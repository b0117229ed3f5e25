import NebulaFS.Encryption
import NebulaFS.Lib.AuthenticatedCipher
import NebulaFS.Proof.BlockCompression

/-!
# What the encryption engine gives back

`encrypt` puts the initialisation vector in front of the ciphertext and the tag behind it, and `decrypt`
takes all of what it is given for the ciphertext. Of OpenSSL it is assumed that the calls together are an
ideal authenticated cipher. Then the ciphertext alone is decrypted (`decrypt_ciphertext`), but what
`encrypt` returns never is (`roundTrips_iff`).
-/

namespace NebulaFS

open CompressionEngine (intPart)

abbrev AesGcm := AuthenticatedCipher (ByteArr 32) (ByteArr 12) UInt8 (ByteArr 16)

/-- Calls that all succeed encrypt the bytes that OpenSSL is told of, whose number is an `int`. -/
def Evp.Encrypts (evp : Evp) (cipher : AesGcm) : Prop :=
  ∀ key iv data text final tag, evp.encryptUpdate key iv data = some text →
    evp.encryptFinal key iv data = some final → evp.getTag key iv data = some tag →
      cipher.encrypt key iv (intPart data) = (text ++ final, tag)

/-- The calls give what the cipher decrypts, and fail for everything else. -/
def EvpDecryption.Decrypts (evp : EvpDecryption) (cipher : AesGcm) : Prop :=
  ∀ key iv data tag plain, cipher.decrypt key iv (intPart data) tag = some plain
    ↔ ∃ front final, evp.decryptUpdate key iv data = some front
      ∧ evp.decryptFinal key iv data tag = some final ∧ plain = front ++ final

theorem length_intPart_eq (data : Bytes) :
    (intPart data).length
      = if data.length % 4294967296 < 2147483648 then data.length % 4294967296 else 0 := by
  rw [intPart, List.length_take, toInt_eq]
  split
  · rw [Int.toNat_natCast]
    exact Nat.min_eq_left (Nat.mod_le _ _)
  · omega

namespace EncryptionEngine

variable {platform : Platform} {engine : EncryptionEngine} {evp : Evp} {evpDecryption : EvpDecryption}
  {cipher : AesGcm} {data encrypted : Bytes} {iv : ByteArr 12} {tag : ByteArr 16}

/-- Where `encrypt` succeeds, `decrypt` of what it returned succeeds and gives the data. -/
def RoundTrips (platform : Platform) (engine : EncryptionEngine) (evp : Evp)
    (evpDecryption : EvpDecryption) (data : Bytes) (iv : ByteArr 12) : Prop :=
  (engine.encryptWith platform evp data iv).success = true →
    (engine.decrypt platform evpDecryption (engine.encryptWith platform evp data iv).data
        (engine.encryptWith platform evp data iv).iv
        (engine.encryptWith platform evp data iv).tag).success = true
      ∧ (engine.decrypt platform evpDecryption (engine.encryptWith platform evp data iv).data
        (engine.encryptWith platform evp data iv).iv
        (engine.encryptWith platform evp data iv).tag).data = data

/-- Every call of OpenSSL during the encryption with this vector succeeds. -/
structure CallsSucceed (evp : Evp) (key : ByteArr 32) (iv : ByteArr 12) (data : Bytes) : Prop where
  selectCipher : evp.selectCipher = true
  setIvLen : evp.setIvLen = true
  initKey : evp.initKey key iv = true
  encryptUpdate : (evp.encryptUpdate key iv data).isSome
  encryptFinal : (evp.encryptFinal key iv data).isSome
  getTag : (evp.getTag key iv data).isSome

/-- The build and the engine are there, with the algorithm that the engine knows. -/
structure Available (platform : Platform) (engine : EncryptionEngine) : Prop where
  hasOpenssl : platform.hasOpenssl = true
  ctx : engine.ctx = true
  algorithm : engine.config.algorithm ≠ .none

theorem available_new_iff {config : EncryptionConfig} {ctxNew : Bool} :
    Available platform (new platform config ctxNew)
      ↔ platform.hasOpenssl = true ∧ config.algorithm = .aes256gcm ∧ ctxNew = true := by
  constructor
  · intro h
    have hctx := h.ctx
    rw [new, Bool.and_eq_true, Bool.and_eq_true, decide_eq_true_eq] at hctx
    exact ⟨hctx.1.1, hctx.1.2, hctx.2⟩
  · rintro ⟨hopenssl, halgorithm, hnew⟩
    refine ⟨hopenssl, ?_, ?_⟩
    · rw [new, hopenssl, halgorithm, hnew]
      rfl
    · change config.algorithm ≠ .none
      rw [halgorithm]
      exact fun h => by cases h

/-- What the buffer of `encrypt` holds. -/
def framed (iv : ByteArr 12) (text : Bytes) (tag : ByteArr 16) : Bytes :=
  iv.toList ++ text ++ tag.toList

theorem length_framed (iv : ByteArr 12) (text : Bytes) (tag : ByteArr 16) :
    (framed iv text tag).length = text.length + 28 := by
  rw [framed, List.length_append, List.length_append, iv.toList_length, tag.toList_length]
  omega

theorem encryptWith_eq (havailable : Available platform engine)
    (hcalls : CallsSucceed evp engine.config.key iv data) :
    ∃ text final tag, evp.encryptUpdate engine.config.key iv data = some text
      ∧ evp.encryptFinal engine.config.key iv data = some final
      ∧ evp.getTag engine.config.key iv data = some tag
      ∧ engine.encryptWith platform evp data iv
        = { data := framed iv (text ++ final) tag, iv := iv, tag := tag, success := true } := by
  obtain ⟨text, htext⟩ := Option.isSome_iff_exists.mp hcalls.encryptUpdate
  obtain ⟨final, hfinal⟩ := Option.isSome_iff_exists.mp hcalls.encryptFinal
  obtain ⟨tag, htag⟩ := Option.isSome_iff_exists.mp hcalls.getTag
  refine ⟨text, final, tag, htext, hfinal, htag, ?_⟩
  rw [encryptWith, if_neg (not_not.mpr havailable.hasOpenssl), if_neg (not_not.mpr havailable.ctx),
    if_neg havailable.algorithm, if_neg (not_not.mpr hcalls.selectCipher),
    if_neg (not_not.mpr hcalls.setIvLen), if_neg (not_not.mpr hcalls.initKey), htext]
  simp only [hfinal, htag]
  rfl

/-- What passes a check of the engine. -/
theorem failed_else_success_iff {c : Prop} [Decidable c] {result : CryptoResult} :
    (if ¬ c then failed else result).success = true ↔ c ∧ result.success = true := by
  by_cases hc : c
  · simp [hc]
  · simp [hc, failed]

theorem encryptWith_success_iff (halgorithm : engine.ctx = true → engine.config.algorithm ≠ .none) :
    (engine.encryptWith platform evp data iv).success = true
      ↔ Available platform engine ∧ CallsSucceed evp engine.config.key iv data := by
  constructor
  · intro h
    simp only [encryptWith] at h
    rw [failed_else_success_iff, failed_else_success_iff] at h
    obtain ⟨hopenssl, hctx, h⟩ := h
    rw [if_neg (halgorithm hctx), failed_else_success_iff, failed_else_success_iff,
      failed_else_success_iff] at h
    obtain ⟨hselect, hlen, hkey, h⟩ := h
    refine ⟨⟨hopenssl, hctx, halgorithm hctx⟩, hselect, hlen, hkey, ?_, ?_, ?_⟩
    all_goals
      revert h
      cases evp.encryptUpdate engine.config.key iv data <;>
        cases evp.encryptFinal engine.config.key iv data <;>
        cases evp.getTag engine.config.key iv data <;> simp [failed]
  · rintro ⟨havailable, hcalls⟩
    obtain ⟨text, final, tag, -, -, -, heq⟩ := encryptWith_eq havailable hcalls
    rw [heq]

/-- The calls of a decryption before and after the text is there succeed. -/
structure ReadyToDecrypt (evp : EvpDecryption) (key : ByteArr 32) (iv : ByteArr 12)
    (tag : ByteArr 16) : Prop where
  selectCipher : evp.selectCipher = true
  setIvLen : evp.setIvLen = true
  initKey : evp.initKey key iv = true
  setTag : evp.setTag tag = true

theorem decrypt_eq (havailable : Available platform engine)
    (hready : ReadyToDecrypt evpDecryption engine.config.key iv tag) {front final : Bytes}
    (hfront : evpDecryption.decryptUpdate engine.config.key iv encrypted = some front)
    (hfinal : evpDecryption.decryptFinal engine.config.key iv encrypted tag = some final) :
    engine.decrypt platform evpDecryption encrypted iv tag
      = { data := front ++ final, success := true } := by
  rw [decrypt, if_neg (not_not.mpr havailable.hasOpenssl), if_neg (not_not.mpr havailable.ctx),
    if_neg havailable.algorithm, if_neg (not_not.mpr hready.selectCipher),
    if_neg (not_not.mpr hready.setIvLen), if_neg (not_not.mpr hready.initKey), hfront]
  simp only [hfinal, if_neg (not_not.mpr hready.setTag)]

/-- A decryption that succeeds has gone through all the calls. -/
theorem of_decrypt_success (halgorithm : engine.config.algorithm ≠ .none)
    (h : (engine.decrypt platform evpDecryption encrypted iv tag).success = true) :
    ∃ front final, evpDecryption.decryptUpdate engine.config.key iv encrypted = some front
      ∧ evpDecryption.decryptFinal engine.config.key iv encrypted tag = some final
      ∧ (engine.decrypt platform evpDecryption encrypted iv tag).data = front ++ final := by
  have hall := h
  simp only [decrypt] at hall
  rw [failed_else_success_iff, failed_else_success_iff, if_neg halgorithm, failed_else_success_iff,
    failed_else_success_iff, failed_else_success_iff] at hall
  obtain ⟨hopenssl, hctx, hselect, hlen, hkey, hcalls⟩ := hall
  cases hfront : evpDecryption.decryptUpdate engine.config.key iv encrypted with
  | none =>
      rw [hfront] at hcalls
      cases hcalls
  | some front =>
      simp only [hfront] at hcalls
      rw [failed_else_success_iff] at hcalls
      obtain ⟨htag, hcalls⟩ := hcalls
      cases hfinal : evpDecryption.decryptFinal engine.config.key iv encrypted tag with
      | none =>
          rw [hfinal] at hcalls
          cases hcalls
      | some final =>
          have havailable : Available platform engine := ⟨hopenssl, hctx, halgorithm⟩
          have heq := decrypt_eq havailable ⟨hselect, hlen, hkey, htag⟩ hfront hfinal
          exact ⟨front, final, rfl, rfl, congrArg CryptoResult.data heq⟩

/-- The ciphertext in a frame is decrypted to the data. -/
theorem decrypt_ciphertext (hencrypts : evp.Encrypts cipher)
    (hdecrypts : evpDecryption.Decrypts cipher) (havailable : Available platform engine)
    (hcalls : CallsSucceed evp engine.config.key iv data)
    (hready : ∀ tag, ReadyToDecrypt evpDecryption engine.config.key iv tag)
    (hsmall : data.length < 2147483648) :
    engine.decrypt platform evpDecryption
        (Cursor.slice (engine.encryptWith platform evp data iv).data 12 data.length)
        (engine.encryptWith platform evp data iv).iv (engine.encryptWith platform evp data iv).tag
      = { data := data, success := true } := by
  obtain ⟨text, final, tag, htext, hfinal, htag, heq⟩ := encryptWith_eq havailable hcalls
  have hencrypted := hencrypts _ _ _ _ _ _ htext hfinal htag
  have hlength := cipher.length_of_encrypt hencrypted
  rw [CompressionEngine.intPart_of_lt hsmall] at hencrypted hlength
  have hslice : Cursor.slice (framed iv (text ++ final) tag) 12 data.length = text ++ final := by
    rw [framed, List.append_assoc, Cursor.slice_append_right (Nat.le_of_eq iv.toList_length),
      iv.toList_length, Cursor.slice_append_left (Nat.le_of_eq hlength.symm |>.trans' (by omega)),
      Cursor.slice_all hlength]
  have hpart : intPart (text ++ final) = text ++ final :=
    CompressionEngine.intPart_of_lt (by omega)
  obtain ⟨front, last, hfront, hlast, hdata⟩ := (hdecrypts engine.config.key iv (text ++ final) tag
    data).mp (by rw [hpart]; exact cipher.decrypt_of_encrypt hencrypted)
  rw [heq]
  simp only [hslice]
  rw [decrypt_eq havailable (hready tag) hfront hlast, hdata]

/-- The bytes of a frame that OpenSSL is told of are never as many as those that were encrypted. -/
theorem length_intPart_framed_ne {text : Bytes} (h : text.length = (intPart data).length) :
    (intPart (framed iv text tag)).length ≠ data.length := by
  rw [length_intPart_eq, length_framed, h, length_intPart_eq]
  split_ifs <;> omega

/-- **Round trip.** What `encrypt` returns is never decrypted to the data, if it succeeds at all. -/
theorem roundTrips_iff (hencrypts : evp.Encrypts cipher) (hdecrypts : evpDecryption.Decrypts cipher)
    (config : EncryptionConfig) (ctxNew : Bool) (data : Bytes) (iv : ByteArr 12) :
    RoundTrips platform (new platform config ctxNew) evp evpDecryption data iv
      ↔ ¬ (platform.hasOpenssl = true ∧ config.algorithm = .aes256gcm ∧ ctxNew = true
        ∧ CallsSucceed evp config.key iv data) := by
  have halgorithm : (new platform config ctxNew).ctx = true →
      (new platform config ctxNew).config.algorithm ≠ .none := by
    intro hctx hnone
    rw [new, Bool.and_eq_true, Bool.and_eq_true, decide_eq_true_eq] at hctx
    exact absurd (hctx.1.2.symm.trans hnone) (by decide)
  have hsuccess : ((new platform config ctxNew).encryptWith platform evp data iv).success = true ↔ _ :=
    encryptWith_success_iff halgorithm
  rw [available_new_iff, and_assoc, and_assoc] at hsuccess
  constructor
  · rintro h ⟨hopenssl, haes, hnew, hcalls⟩
    have havailable := available_new_iff.mpr ⟨hopenssl, haes, hnew⟩
    obtain ⟨text, final, tag, htext, hfinal, htag, heq⟩ := encryptWith_eq havailable hcalls
    obtain ⟨hdecrypted, hdata⟩ := h (hsuccess.mpr ⟨hopenssl, haes, hnew, hcalls⟩)
    rw [heq] at hdecrypted hdata
    obtain ⟨front, last, hfront, hlast, hresult⟩ :=
      of_decrypt_success havailable.algorithm hdecrypted
    rw [hdata] at hresult
    have hencrypted := cipher.length_of_encrypt (hencrypts _ _ _ _ _ _ htext hfinal htag)
    have hback := cipher.length_of_decrypt
      ((hdecrypts _ _ _ _ data).mpr ⟨front, last, hfront, hlast, hresult⟩)
    exact length_intPart_framed_ne hencrypted hback.symm
  · intro h hencrypted
    exact absurd (hsuccess.mp hencrypted) h

/-! ### A cipher to evaluate on -/

/-- The keystream of AES-256-GCM for the first block, with a key and a vector of zeros. -/
def zeroKeystream : Bytes :=
  [0xCE, 0xA7, 0x40, 0x3D, 0x4D, 0x60, 0x6B, 0x6E, 0x07, 0x4E, 0xC5, 0xD3, 0xBA, 0xF3, 0x9D, 0x18]

def zeroCrypt (data : Bytes) : Bytes :=
  data.mapIdx fun i byte => byte ^^^ zeroKeystream.getD i 0

/-- The tags of AES-256-GCM for no text and for a block of zeros, under the same key and vector. -/
def zeroMac (text : Bytes) : ByteArr 16 :=
  if text = [] then
    ⟨[0x53, 0x0F, 0x8A, 0xFB, 0xC7, 0x45, 0x36, 0xB9, 0xA9, 0x63, 0xB4, 0xF1, 0xC4, 0xCB, 0x73, 0x8B],
      rfl⟩
  else if text = zeroKeystream then
    ⟨[0xD0, 0xD1, 0xC8, 0xA7, 0x99, 0x99, 0x6B, 0xF0, 0x26, 0x5B, 0x98, 0xB5, 0xD4, 0x8A, 0xB9, 0x19],
      rfl⟩
  else zeroArr 16

theorem zeroCrypt_zeroCrypt (data : Bytes) : zeroCrypt (zeroCrypt data) = data := by
  rw [zeroCrypt, zeroCrypt, List.mapIdx_mapIdx]
  refine (List.mapIdx_eq_iff).mpr fun i => ?_
  rw [Function.comp_def]
  simp only [UInt8.xor_assoc, UInt8.xor_self, UInt8.xor_zero, Option.map_id']

/-- As AES-256-GCM does it for a key and a vector of zeros and at most one block, which is all zeros. -/
def zeroCipher : AesGcm :=
  .encryptThenMac (fun _ _ => zeroCrypt) (fun _ _ => zeroMac) (fun _ _ _ => List.length_mapIdx)
    (fun _ _ => zeroCrypt_zeroCrypt)

def zeroEvp : Evp where
  randBytes := some (zeroArr 12)
  selectCipher := true
  setIvLen := true
  initKey := fun _ _ => true
  encryptUpdate := fun _ _ data => some (zeroCrypt (intPart data))
  encryptFinal := fun _ _ _ => some []
  getTag := fun _ _ data => some (zeroMac (zeroCrypt (intPart data)))

def zeroEvpDecryption : EvpDecryption where
  selectCipher := true
  setIvLen := true
  initKey := fun _ _ => true
  decryptUpdate := fun _ _ data => some (zeroCrypt (intPart data))
  setTag := fun _ => true
  decryptFinal := fun _ _ data tag => if zeroMac (intPart data) = tag then some [] else none

theorem zeroEvp_encrypts : zeroEvp.Encrypts zeroCipher := by
  intro key iv data text final tag htext hfinal htag
  obtain rfl := Option.some.inj htext
  obtain rfl := Option.some.inj hfinal
  obtain rfl := Option.some.inj htag
  rw [List.append_nil]
  rfl

theorem zeroEvpDecryption_decrypts : zeroEvpDecryption.Decrypts zeroCipher := by
  intro key iv data tag plain
  simp only [zeroCipher, AuthenticatedCipher.encryptThenMac, zeroEvpDecryption]
  split
  · simp [eq_comm]
  · simp

theorem roundTrips_iff_zeros :
    RoundTrips .reference (new .reference {} true) zeroEvp zeroEvpDecryption
        (List.replicate 16 0) (zeroArr 12)
      ↔ ¬ (Platform.reference.hasOpenssl = true
        ∧ ({} : EncryptionConfig).algorithm = .aes256gcm ∧ true = true
        ∧ CallsSucceed zeroEvp ({} : EncryptionConfig).key (zeroArr 12) (List.replicate 16 0)) :=
  roundTrips_iff zeroEvp_encrypts zeroEvpDecryption_decrypts {} true _ _

/-- A block of zeros under a key and a vector of zeros. -/
theorem not_roundTrips_zeros :
    zeroEvp.Encrypts zeroCipher ∧ zeroEvpDecryption.Decrypts zeroCipher
      ∧ ¬ RoundTrips .reference (new .reference {} true) zeroEvp zeroEvpDecryption
        (List.replicate 16 0) (zeroArr 12) := by
  refine ⟨zeroEvp_encrypts, zeroEvpDecryption_decrypts, fun h => ?_⟩
  have hdecrypted := (h rfl).1
  revert hdecrypted
  decide +kernel

end EncryptionEngine

end NebulaFS
