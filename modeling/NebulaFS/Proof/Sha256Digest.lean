import NebulaFS.Proof.Sha256Compression

/-!
# What the built-in SHA-256 computes

The digest of a message is its hash as the hash is defined: the message is padded to whole blocks with a
one bit, zeros and its length in bits, and the blocks are compressed in order. The context stands for the
message so far (`Holds`) however it came in, and its last one or two blocks are the padding. Where two
messages have one digest, their blocks show a collision of the compression function.
-/

namespace NebulaFS

open LittleEndian MerkleDamgard
open SecureHash (padding messageBlocks flatten_messageBlocks)

namespace Sha256

/-- The hash of a message. -/
def hash (message : Bytes) : ByteArr 32 :=
  ⟨SecureHash.hash message, SecureHash.length_hash message⟩

/-- The context stands for a message. -/
structure Holds (ctx : Ctx) (message : Bytes) : Prop where
  absorbed : Absorbed transform 64 init.state message
    { state := ctx.state, pending := ctx.data.toList.take ctx.datalen }
  bits : ctx.bitlen = UInt64.ofNat (8 * (message.length - ctx.datalen.val))

variable {ctx : Ctx} {message : Bytes}

theorem length_pending (ctx : Ctx) : (ctx.data.toList.take ctx.datalen).length = ctx.datalen.val := by
  rw [List.length_take, List.Vector.toList_length]
  have := ctx.datalen.isLt
  omega

theorem Holds.length_mod (h : Holds ctx message) :
    message.length % 64 = ctx.datalen.val ∧ ctx.datalen.val ≤ message.length := by
  obtain ⟨blocks, hblocks, rfl, -, -⟩ := h.absorbed
  have hflat : blocks.flatten.length = blocks.length * 64 := by
    rw [List.length_flatten, List.map_congr_left hblocks, List.map_const', List.sum_replicate_nat]
  rw [List.length_append, hflat, length_pending]
  have := ctx.datalen.isLt
  omega

theorem holds_init : Holds init [] :=
  ⟨absorbed_start (by decide), rfl⟩

theorem take_set (data : ByteArr 64) (i : Fin 64) (byte : UInt8) :
    (data.set i byte).toList.take (i.val + 1) = data.toList.take i ++ [byte] := by
  have hi : i.val < data.toList.length := by
    rw [List.Vector.toList_length]
    exact i.isLt
  rw [List.Vector.toList_set, List.take_set, List.take_add_one, List.getElem?_eq_getElem hi,
    Option.toList_some, List.set_append_right _ _ (by rw [List.length_take]; omega)]
  have hlength : (data.toList.take i).length = i.val := by rw [List.length_take]; omega
  rw [hlength, Nat.sub_self]
  rfl

/-- One byte more. -/
theorem Holds.updateByte (h : Holds ctx message) (byte : UInt8) :
    Holds (updateByte ctx byte) (message ++ [byte]) := by
  have hstep := h.absorbed.absorb byte
  have hlength : (ctx.data.toList.take ctx.datalen ++ [byte]).length = ctx.datalen.val + 1 := by
    rw [List.length_append, length_pending, List.length_singleton]
  obtain ⟨-, hle⟩ := h.length_mod
  rw [MerkleDamgard.absorb, hlength] at hstep
  rw [Sha256.updateByte]
  by_cases hfull : ctx.datalen.val + 1 = 64
  · rw [if_pos hfull] at hstep
    simp only [hfull, dif_pos]
    have hdata : (ctx.data.set ctx.datalen byte).toList
        = ctx.data.toList.take ctx.datalen ++ [byte] := by
      rw [← take_set, hfull, List.take_of_length_le (by rw [List.Vector.toList_length])]
    refine ⟨?_, ?_⟩
    · simp only [hdata]
      exact hstep
    · rw [h.bits]
      apply UInt64.toNat.inj
      simp only [List.length_append, List.length_singleton, UInt64.toNat_add, UInt64.toNat_ofNat',
        UInt64.reduceToNat, Fin.val_zero]
      omega
  · rw [if_neg hfull] at hstep
    simp only [hfull, dif_neg, not_false_eq_true]
    refine ⟨?_, ?_⟩
    · simp only [take_set]
      exact hstep
    · have hsame : message.length + 1 - (ctx.datalen.val + 1) = message.length - ctx.datalen.val := by
        omega
      rw [h.bits, List.length_append, List.length_singleton]
      simp only [hsame]

theorem Holds.update (h : Holds ctx message) (data : Bytes) :
    Holds (update ctx data) (message ++ data) := by
  induction data generalizing ctx message with
  | nil => rwa [List.append_nil]
  | cons byte data ih =>
      rw [List.append_cons]
      exact ih (h.updateByte byte)

/-! ### The last blocks -/

theorem length_beBytes (n v : Nat) : (beBytes n v).length = n := SecureHash.length_bigEndian n v

theorem padding_eq (length : Nat) : padding length
    = 0x80 :: List.replicate ((119 - length % 64) % 64) 0 ++ beBytes 8 (8 * length % 2 ^ 64) := rfl

theorem Holds.bitlen_eq (h : Holds ctx message) :
    (ctx.bitlen + UInt64.ofNat (ctx.datalen.val * 8)).toNat = 8 * message.length % 2 ^ 64 := by
  obtain ⟨-, hle⟩ := h.length_mod
  rw [h.bits]
  simp only [UInt64.toNat_add, UInt64.toNat_ofNat']
  omega

/-- The pending bytes and the padding are the blocks that are left, and `lastBlock` is the last of
them. -/
theorem Holds.lastBlock (h : Holds ctx message) :
    ∃ last : List Bytes, (∀ block ∈ last, block.length = 64)
      ∧ ctx.data.toList.take ctx.datalen ++ padding message.length = last.flatten
      ∧ transform (lastBlock ctx).1 (lastBlock ctx).2 = chain transform ctx.state last := by
  obtain ⟨hmod, -⟩ := h.length_mod
  have hbits := h.bitlen_eq
  have hlt := ctx.datalen.isLt
  have hpending := length_pending ctx
  have hpadded : ∀ n, (padTo ctx.data.toList ctx.datalen n).take n
      = (ctx.data.toList.take ctx.datalen ++ 0x80 :: List.replicate (n - ctx.datalen.val - 1) 0).take
        n := by
    intro n
    rw [padTo]
    by_cases hn : n ≤ ctx.datalen.val
    · rw [List.append_assoc, List.take_append_of_le_length (by omega),
        List.take_append_of_le_length (by omega)]
    · rw [List.take_append_of_le_length]
      simp only [List.length_append, hpending, List.length_cons, List.length_replicate]
      omega
  by_cases hshort : ctx.datalen.val < 56
  · refine ⟨[ctx.data.toList.take ctx.datalen ++ padding message.length], ?_, ?_, ?_⟩
    · intro block hblock
      rw [List.mem_singleton.mp hblock, padding_eq, hmod]
      simp only [List.length_append, hpending, List.length_cons, List.length_replicate, length_beBytes]
      omega
    · rw [List.flatten_singleton]
    · have hzeros : (119 - ctx.datalen.val) % 64 = 56 - ctx.datalen.val - 1 := by omega
      simp only [Sha256.lastBlock, if_pos hshort, hbits, hpadded]
      rw [List.take_of_length_le (by
        simp only [List.length_append, hpending, List.length_cons, List.length_replicate]; omega)]
      rw [padding_eq, hmod, hzeros, List.append_assoc]
      rfl
  · have hdata : (padTo ctx.data.toList ctx.datalen 64)
        = ctx.data.toList.take ctx.datalen
          ++ 0x80 :: List.replicate (64 - ctx.datalen.val - 1) 0 := by
      rw [padTo, List.drop_eq_nil_of_le (by rw [List.Vector.toList_length]), List.append_nil]
    refine ⟨[ctx.data.toList.take ctx.datalen ++ 0x80 :: List.replicate (64 - ctx.datalen.val - 1) 0,
      List.replicate 56 0 ++ beBytes 8 (8 * message.length % 2 ^ 64)], ?_, ?_, ?_⟩
    · intro block hblock
      rcases List.mem_cons.mp hblock with rfl | hblock
      · simp only [List.length_append, hpending, List.length_cons, List.length_replicate]
        omega
      · rw [List.mem_singleton.mp hblock, List.length_append, List.length_replicate, length_beBytes]
    · have hzeros : (119 - ctx.datalen.val) % 64 = (64 - ctx.datalen.val - 1) + 56 := by omega
      rw [List.flatten_cons, List.flatten_singleton, padding_eq, hmod, hzeros, List.replicate_add]
      simp only [List.append_assoc, List.cons_append]
    · simp only [Sha256.lastBlock, if_neg hshort, hbits, hdata]
      rw [List.take_left' (List.length_replicate ..)]
      rfl

theorem Holds.toList_final (h : Holds ctx message) :
    (final ctx).toList = stateBytes (chain transform init.state (messageBlocks message)) := by
  obtain ⟨last, hlast, hpadding, hstate⟩ := h.lastBlock
  rw [Sha256.final, List.Vector.toList_mk, hstate]
  exact congrArg stateBytes (h.absorbed.chain_eq hlast hpadding)

/-- Whatever bytes the context has taken, its digest is their hash. -/
theorem Holds.final (h : Holds ctx message) : final ctx = hash message := by
  apply List.Vector.toList_injective
  rw [h.toList_final, stateBytes_eq, words_chain, words_init, hash, List.Vector.toList_mk,
    SecureHash.hash]

theorem holds_update (message : Bytes) : Holds (update init message) message :=
  holds_init.update message

theorem digest_eq (message : Bytes) : digest message = hash message :=
  (holds_update message).final

/-- "abc". -/
example : (digest [0x61, 0x62, 0x63]).toList =
    [0xba, 0x78, 0x16, 0xbf, 0x8f, 0x01, 0xcf, 0xea, 0x41, 0x41, 0x40, 0xde, 0x5d, 0xae, 0x22, 0x23,
      0xb0, 0x03, 0x61, 0xa3, 0x96, 0x17, 0x7a, 0x9c, 0xb4, 0x10, 0xff, 0x61, 0xf2, 0x00, 0x15,
      0xad] := by
  decide +kernel

/-! ### Two messages with one digest -/

theorem beBytes_inj {n v w : Nat} (hv : v < 256 ^ n) (hw : w < 256 ^ n)
    (h : beBytes n v = beBytes n w) : v = w := by
  have hvalue := congrArg leValue (List.reverse_inj.mp h)
  rwa [leValue_leBytes, leValue_leBytes, Nat.mod_eq_of_lt hv, Nat.mod_eq_of_lt hw] at hvalue

theorem flatMap_beBytes_inj {words others : List UInt32} (hlength : words.length = others.length)
    (h : (words.flatMap fun word => beBytes 4 word.toNat)
      = others.flatMap fun word => beBytes 4 word.toNat) : words = others := by
  induction words generalizing others with
  | nil => exact (List.length_eq_zero_iff.mp hlength.symm).symm
  | cons word words ih =>
      cases others with
      | nil => cases hlength
      | cons other others =>
          rw [List.flatMap_cons, List.flatMap_cons] at h
          obtain ⟨hhead, htail⟩ := List.append_inj h (by rw [length_beBytes, length_beBytes])
          have hword : word = other :=
            UInt32.toNat.inj (beBytes_inj (by simpa using word.toNat_lt) (by simpa using other.toNat_lt)
              hhead)
          rw [hword, ih (Nat.succ.inj hlength) htail]

theorem stateBytes_inj {state other : State} (h : stateBytes state = stateBytes other) :
    state = other := by
  have hwords : [state.a, state.b, state.c, state.d, state.e, state.f, state.g, state.h]
      = [other.a, other.b, other.c, other.d, other.e, other.f, other.g, other.h] :=
    flatMap_beBytes_inj rfl h
  simp only [List.cons.injEq, and_true] at hwords
  obtain ⟨ha, hb, hc, hd, he, hf, hg, hh⟩ := hwords
  cases state
  cases other
  simp_all

/-- The blocks of one message are the last ones of another only if it is the same message. -/
theorem eq_of_messageBlocks_suffix {message other : Bytes} (hmessage : message.length < 2 ^ 61)
    (hother : other.length < 2 ^ 61) (h : messageBlocks message <:+ messageBlocks other) :
    message = other := by
  obtain ⟨front, hfront⟩ := h
  have hflat := congrArg List.flatten hfront
  rw [List.flatten_append, flatten_messageBlocks, flatten_messageBlocks, padding_eq, padding_eq,
    ← List.append_assoc, ← List.append_assoc, ← List.append_assoc] at hflat
  obtain ⟨hbody, hlength⟩ := List.append_inj' hflat (by rw [length_beBytes, length_beBytes])
  have hsame : message.length = other.length := by
    have hbits := beBytes_inj (Nat.mod_lt _ (by decide)) (Nat.mod_lt _ (by decide)) hlength
    omega
  rw [hsame] at hbody
  obtain ⟨hfrontMessage, -⟩ := List.append_inj' hbody rfl
  exact (List.append_inj' (hfrontMessage.trans (List.nil_append other).symm) hsame).2

/-- **Two messages with one digest** show two different inputs, among those of their own blocks, that the
compression function takes to one state. -/
theorem digest_collision {message other : Bytes} (hne : message ≠ other)
    (hmessage : message.length < 2 ^ 61) (hother : other.length < 2 ^ 61) :
    digest message ≠ digest other
      ∨ Collision transform (inputs transform init.state (messageBlocks message))
        (inputs transform init.state (messageBlocks other)) := by
  by_cases hdigest : digest message = digest other
  · right
    have hbytes := congrArg List.Vector.toList hdigest
    rw [digest, digest, (holds_update message).toList_final, (holds_update other).toList_final]
      at hbytes
    have hchain := stateBytes_inj hbytes
    exact collision_of_chain_eq hchain
      (fun hsuffix => hne (eq_of_messageBlocks_suffix hmessage hother hsuffix))
      fun hsuffix => hne (eq_of_messageBlocks_suffix hother hmessage hsuffix).symm
  · exact .inl hdigest

/-- A message and the same one with a zero behind it, which zeros alone as padding would confuse. -/
theorem digest_collision_zeroBehind :
    digest [0x61] ≠ digest [0x61, 0x00]
      ∨ Collision transform (inputs transform init.state (messageBlocks [0x61]))
        (inputs transform init.state (messageBlocks [0x61, 0x00])) :=
  digest_collision (by decide) (by decide) (by decide)

end Sha256

/-! ### The engine without OpenSSL -/

namespace Sha256Engine

/-- What is done to an engine before its digest is taken. -/
inductive Op
  | update (data : Bytes)
  | reset

def apply (engine : Sha256Engine) : Op → Sha256Engine
  | .update data => engine.update data
  | .reset => engine.reset

/-- The bytes since the last reset. -/
def absorbed : List Op → Bytes → Bytes
  | [], message => message
  | .update data :: ops, message => absorbed ops (message ++ data)
  | .reset :: ops, _ => absorbed ops []

/-- The same for the engine that keeps what it absorbed. -/
def applyAbsorbed (engine : ChecksumEngine) : Op → ChecksumEngine
  | .update data => engine.update data
  | .reset => engine.reset

/-- The context of the one engine stands for what the other one keeps. -/
structure Agrees (engine : Sha256Engine) (kept : ChecksumEngine) : Prop where
  algo : engine.algo = kept.algo
  none_iff : engine.ctx = none ↔ kept.ctx = none
  holds : ∀ ctx message, engine.ctx = some ctx → kept.ctx = some message → Sha256.Holds ctx message

variable {engine : Sha256Engine} {kept : ChecksumEngine}

theorem agrees_init (algo : HashAlgorithm) :
    Agrees { algo := algo, ctx := initContext algo }
      { algo := algo, ctx := ChecksumEngine.initContext algo } := by
  rw [initContext, ChecksumEngine.initContext]
  by_cases hdigest : algo = .sha256 ∨ algo = .blake3
  · rw [if_pos hdigest, if_pos hdigest]
    refine ⟨rfl, by simp, fun ctx message hctx hmessage => ?_⟩
    obtain rfl := Option.some.inj hctx
    obtain rfl := Option.some.inj hmessage
    exact Sha256.holds_init
  · rw [if_neg hdigest, if_neg hdigest]
    exact ⟨rfl, by simp, fun _ _ hctx => by cases hctx⟩

theorem Agrees.apply (h : Agrees engine kept) (op : Op) :
    Agrees (apply engine op) (applyAbsorbed kept op) := by
  cases op with
  | reset =>
      simp only [Sha256Engine.apply, applyAbsorbed, reset, ChecksumEngine.reset, h.algo]
      exact agrees_init kept.algo
  | update data =>
      refine ⟨h.algo, ?_, fun ctx message hctx hmessage => ?_⟩
      · simp only [Sha256Engine.apply, applyAbsorbed, update, ChecksumEngine.update,
          Option.map_eq_none_iff]
        exact h.none_iff
      · obtain ⟨before, hbefore, rfl⟩ := Option.map_eq_some_iff.mp hctx
        obtain ⟨absorbed, habsorbed, rfl⟩ := Option.map_eq_some_iff.mp hmessage
        have hholds := h.holds before absorbed hbefore habsorbed
        by_cases hdata : 0 < data.length
        · rw [if_pos hdata]
          exact hholds.update data
        · rw [if_neg hdata, List.length_eq_zero_iff.mp (Nat.le_zero.mp (Nat.not_lt.mp hdata)),
            List.append_nil]
          exact hholds

theorem Agrees.foldl (h : Agrees engine kept) (ops : List Op) :
    Agrees (ops.foldl Sha256Engine.apply engine) (ops.foldl applyAbsorbed kept) := by
  induction ops generalizing engine kept with
  | nil => exact h
  | cons op ops ih => exact ih (h.apply op)

theorem Agrees.finalize (h : Agrees engine kept) (platform : Platform) :
    kept.finalize platform.withoutOpenssl = some engine.finalize := by
  rw [Sha256Engine.finalize, ChecksumEngine.finalize]
  cases hctx : engine.ctx with
  | none => rw [h.none_iff.mp hctx]
  | some ctx =>
      cases hkept : kept.ctx with
      | none =>
          rw [h.none_iff.mpr hkept] at hctx
          cases hctx
      | some message =>
          have hfinal := (h.holds ctx message hctx hkept).final
          simp only [Platform.withoutOpenssl, Bool.false_eq_true, false_and, if_false]
          rw [hfinal, Sha256.digest_eq]

theorem ctx_foldl (ops : List Op) (kept : ChecksumEngine) {message : Bytes}
    (hctx : kept.ctx = some message)
    (hinit : ChecksumEngine.initContext kept.algo = some []) :
    (ops.foldl applyAbsorbed kept).ctx = some (absorbed ops message) := by
  induction ops generalizing kept message with
  | nil => exact hctx
  | cons op ops ih =>
      cases op with
      | update data => exact ih _ (by rw [applyAbsorbed, ChecksumEngine.update, hctx]; rfl) hinit
      | reset => exact ih _ hinit hinit

theorem ctx_foldl_crc32 (ops : List Op) {kept : ChecksumEngine} (halgo : kept.algo = .crc32)
    (hnone : kept.ctx = none) : (ops.foldl applyAbsorbed kept).ctx = none := by
  induction ops generalizing kept with
  | nil => exact hnone
  | cons op ops ih =>
      cases op with
      | update data => exact ih halgo (by rw [applyAbsorbed, ChecksumEngine.update, hnone]; rfl)
      | reset => exact ih halgo (ChecksumEngine.ctx_of_crc32 halgo)

theorem finalize_foldl (platform : Platform) (algo : HashAlgorithm) (ops : List Op) :
    (ops.foldl applyAbsorbed (ChecksumEngine.new algo)).finalize platform.withoutOpenssl
      = some (ops.foldl Sha256Engine.apply (new algo)).finalize :=
  ((agrees_init algo).foldl ops).finalize platform

theorem finalize_foldl_eq_hash (algo : HashAlgorithm) (ops : List Op) :
    (ops.foldl Sha256Engine.apply (new algo)).finalize
      = if algo = .crc32 then zeroArr 32 else Sha256.hash (absorbed ops []) := by
  apply Option.some.inj
  rw [← finalize_foldl Platform.reference]
  by_cases hcrc : algo = .crc32
  · rw [if_pos hcrc]
    exact ChecksumEngine.finalize_of_ctx_none _ (ctx_foldl_crc32 ops hcrc (by rw [hcrc]; rfl))
  · have hinit : ChecksumEngine.initContext algo = some [] := by
      rw [ChecksumEngine.initContext, if_pos]
      cases algo with
      | crc32 => exact (hcrc rfl).elim
      | sha256 => exact .inl rfl
      | blake3 => exact .inr rfl
    rw [if_neg hcrc, ChecksumEngine.finalize,
      ctx_foldl ops (ChecksumEngine.new algo) hinit hinit]
    simp only [Platform.withoutOpenssl, Bool.false_eq_true, false_and, if_false]
    exact congrArg some (Sha256.digest_eq _)

theorem absorbed_update (buffers : List Bytes) (message : Bytes) :
    absorbed (buffers.map .update) message = message ++ buffers.flatten := by
  induction buffers generalizing message with
  | nil => exact (List.append_nil _).symm
  | cons buffer buffers ih =>
      rw [List.map_cons, absorbed, ih, List.flatten_cons, List.append_assoc]

/-- **The engine without OpenSSL.** Whatever is done to it before its digest is taken, it agrees with the
engine that keeps every byte and hashes them in the end, and where it has a context the digest is the
hash of the bytes since the last reset, in whatever pieces they came. -/
theorem digest_run (platform : Platform) (algo : HashAlgorithm) (ops : List Op) :
    (ops.foldl applyAbsorbed (ChecksumEngine.new algo)).finalize platform.withoutOpenssl
        = some (ops.foldl Sha256Engine.apply (new algo)).finalize
      ∧ (ops.foldl Sha256Engine.apply (new algo)).finalize
        = (if algo = .crc32 then zeroArr 32 else Sha256.hash (absorbed ops []))
      ∧ ∀ buffers : List Bytes, computeAll buffers algo
        = if algo = .crc32 then zeroArr 32 else Sha256.hash buffers.flatten := by
  refine ⟨finalize_foldl platform algo ops, finalize_foldl_eq_hash algo ops, fun buffers => ?_⟩
  have hbuffers := finalize_foldl_eq_hash algo (buffers.map .update)
  rw [absorbed_update, List.nil_append, List.foldl_map] at hbuffers
  exact hbuffers

end Sha256Engine

end NebulaFS
