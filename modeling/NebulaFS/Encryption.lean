import NebulaFS.Platform

/-!
# The encryption engine

`crypto/EncryptionEngine.cpp`. A cipher context is made for AES-256-GCM in the OpenSSL build only;
without one `encrypt` fails. The answers of OpenSSL during a call are an argument of the call.
-/

namespace NebulaFS

structure EncryptionConfig where
  algorithm : EncryptionAlgorithm := .aes256gcm
  key : ByteArr 32 := zeroArr 32
deriving DecidableEq

structure CryptoResult where
  data : Bytes := []
  iv : ByteArr 12 := zeroArr 12
  tag : ByteArr 16 := zeroArr 16
  success : Bool := false
  ec : Option ErrorCode := none
deriving DecidableEq

structure EncryptionEngine where
  config : EncryptionConfig := {}
  ctx : Bool := false
deriving DecidableEq

namespace EncryptionEngine

/-- The constructor; `ctxNew` is whether `EVP_CIPHER_CTX_new` gives a context. -/
def new (platform : Platform) (config : EncryptionConfig) (ctxNew : Bool) : EncryptionEngine :=
  { config := config
    ctx := platform.hasOpenssl && config.algorithm = .aes256gcm && ctxNew }

def failed : CryptoResult := { ec := some .encryptionError }

def generateIV (evp : Evp) : ByteArr 12 := evp.randBytes.getD (zeroArr 12)

def encryptWith (platform : Platform) (engine : EncryptionEngine) (evp : Evp) (data : Bytes)
    (iv : ByteArr 12) : CryptoResult :=
  let key := engine.config.key
  if ¬ platform.hasOpenssl then failed
  else if ¬ engine.ctx then failed
  else if engine.config.algorithm = .none then { data := data, success := true }
  else if ¬ evp.selectCipher then failed
  else if ¬ evp.setIvLen then failed
  else if ¬ evp.initKey key iv then failed
  else
    match evp.encryptUpdate key iv data with
    | none => failed
    | some cipher =>
        match evp.encryptFinal key iv data with
        | none => failed
        | some final =>
            match evp.getTag key iv data with
            | none => failed
            | some tag =>
                { data := iv.toList ++ (cipher ++ final) ++ tag.toList
                  iv := iv
                  tag := tag
                  success := true }

def encrypt (platform : Platform) (engine : EncryptionEngine) (evp : Evp) (data : Bytes) :
    CryptoResult :=
  if platform.hasOpenssl then engine.encryptWith platform evp data (generateIV evp) else failed

/-- All of `encryptedData` is taken for the ciphertext. -/
def decrypt (platform : Platform) (engine : EncryptionEngine) (evp : EvpDecryption)
    (encryptedData : Bytes) (iv : ByteArr 12) (tag : ByteArr 16) : CryptoResult :=
  let key := engine.config.key
  if ¬ platform.hasOpenssl then failed
  else if ¬ engine.ctx then failed
  else if engine.config.algorithm = .none then { data := encryptedData, success := true }
  else if ¬ evp.selectCipher then failed
  else if ¬ evp.setIvLen then failed
  else if ¬ evp.initKey key iv then failed
  else
    match evp.decryptUpdate key iv encryptedData with
    | none => failed
    | some plain =>
        if ¬ evp.setTag tag then failed
        else
          match evp.decryptFinal key iv encryptedData tag with
          | none => failed
          | some final => { data := plain ++ final, success := true }

/-- A shorter key replaces the front of the old one. -/
def setKey (engine : EncryptionEngine) (key : Bytes) : EncryptionEngine :=
  { engine with
    config := { engine.config with
      key := ⟨key.take 32 ++ engine.config.key.toList.drop (key.take 32).length, by
        have := engine.config.key.toList_length
        simp only [List.length_append, List.length_take, List.length_drop]
        omega⟩ } }

/-! ### When a call succeeds -/

/-- Every call of OpenSSL during the encryption of `data` succeeds. -/
def EvpSucceeds (evp : Evp) (key : ByteArr 32) (data : Bytes) : Prop :=
  evp.selectCipher ∧ evp.setIvLen ∧ evp.initKey key (generateIV evp)
    ∧ (evp.encryptUpdate key (generateIV evp) data).isSome
    ∧ (evp.encryptFinal key (generateIV evp) data).isSome
    ∧ (evp.getTag key (generateIV evp) data).isSome

theorem encrypt_success_iff (platform : Platform) {engine : EncryptionEngine}
    (halgorithm : engine.config.algorithm ≠ .none) (evp : Evp) (data : Bytes) :
    (engine.encrypt platform evp data).success
      ↔ platform.hasOpenssl ∧ engine.ctx ∧ EvpSucceeds evp engine.config.key data := by
  unfold encrypt encryptWith EvpSucceeds
  cases platform.hasOpenssl with
  | false => simp [failed]
  | true =>
      cases engine.ctx with
      | false => simp [failed]
      | true =>
          simp only [halgorithm, not_true, if_false, if_true, true_and]
          cases evp.selectCipher <;> cases evp.setIvLen <;>
            cases evp.initKey engine.config.key (generateIV evp) <;> simp [failed]
          cases evp.encryptUpdate engine.config.key (generateIV evp) data <;>
            cases evp.encryptFinal engine.config.key (generateIV evp) data <;>
            cases evp.getTag engine.config.key (generateIV evp) data <;> simp

end EncryptionEngine

end NebulaFS
