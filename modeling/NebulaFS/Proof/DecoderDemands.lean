import NebulaFS.IndexCodec
import NebulaFS.Proof.VarIntLemmas
import NebulaFS.Snapshot

/-!
# What decoders ask of their input

A decoder reads lengths and numbers as it goes. The end of a range can wrap around the word and pass its
check, and a `reserve` can ask for more memory than there is. Nothing else keeps the three decoders from
returning a value or `std::nullopt`. What a decoder comes to is described by the varints that stand in the
input, without the decoder (`Demands` of each of them).
-/

namespace NebulaFS

open Cursor

/-- What a decoder asks for: the bytes of a range, a `subspan`, or memory. -/
inductive Demand
  | range (start length : Nat)
  | span (start length : Nat)
  | memory (granted : Bool)

/-- The end of a range is beyond the input and wraps around the word to a position of the input. -/
def Wraps (bytes : Bytes) (start length : Nat) : Prop :=
  bytes.length < start + length ∧ (start + length) % wordSize ≤ bytes.length

/-- No end wraps, save that of a `subspan` that takes the rest of the input, and there is memory. -/
def Demand.Met (bytes : Bytes) : Demand → Prop
  | .range start length => ¬ Wraps bytes start length
  | .span start length => length = wordSize - 1 ∨ ¬ Wraps bytes start length
  | .memory granted => granted = true

/-- A value, or the one error that stands for `std::nullopt`. -/
def ReturnsValueOr {α : Type} (nullopt : ErrorCode) (result : Except (Fault ErrorCode) α) : Prop :=
  (∃ value, result = .ok value) ∨ result = .error (.returned nullopt)

/-- A varint stands at the position. -/
structure VarIntAt (bytes : Bytes) (pos : Nat) (value : UInt64) (next : Nat) : Prop where
  le_length : pos ≤ bytes.length
  valid : (VarInt.decode (bytes.drop pos)).valid = true
  value_eq : value = (VarInt.decode (bytes.drop pos)).value
  next_eq : next = pos + (VarInt.decode (bytes.drop pos)).consumed

def VarIntTo (bytes : Bytes) (pos next : Nat) : Prop := ∃ value, VarIntAt bytes pos value next

variable {bytes : Bytes} {pos next start : Nat} {value : UInt64} {ec other : ErrorCode} {α : Type}

theorem not_wraps_iff {length : Nat} : ¬ Wraps bytes start length
    ↔ ((start + length) % wordSize ≤ bytes.length → start + length ≤ bytes.length) := by
  rw [Wraps, not_and', not_lt]

theorem returnsValueOr_iff {result : Except (Fault ErrorCode) α} :
    ReturnsValueOr ec result ↔ FailsOnly (· = .returned ec) result := by
  rw [ReturnsValueOr]
  cases result with
  | ok value => exact iff_of_true (Or.inl ⟨value, rfl⟩) (failsOnly_ok _ value)
  | error e =>
      rw [failsOnly_error_iff, or_iff_right, Except.error.injEq]
      rintro ⟨value, hvalue⟩
      cases hvalue

/-! ### The reads -/

theorem readVarInt_eq_ok_iff :
    readVarInt ec bytes pos = .ok (value, next) ↔ VarIntAt bytes pos value next := by
  rw [readVarInt]
  constructor
  · intro h
    split at h
    · cases h
    · rename_i hpos
      simp only at h
      split at h
      · rename_i hvalid
        cases h
        exact ⟨Nat.not_lt.mp hpos, hvalid, rfl, rfl⟩
      · cases h
  · rintro ⟨hpos, hvalid, rfl, rfl⟩
    simp only [if_neg (Nat.not_lt.mpr hpos), if_pos hvalid]

theorem VarIntAt.lt_length (h : VarIntAt bytes pos value next) :
    pos < next ∧ next ≤ bytes.length := by
  have hread : readVarInt .internalError bytes pos = .ok (value, next) := readVarInt_eq_ok_iff.mpr h
  exact (readVarInt_inside .internalError h.le_length).of_ok hread

theorem ne_nil_of_varIntAt (h : VarIntAt bytes pos value next) : bytes ≠ [] := by
  rintro rfl
  exact absurd h.lt_length.2 (Nat.not_le.mpr (Nat.zero_lt_of_lt h.lt_length.1))

theorem readNext_eq_ok_iff :
    readNext ec bytes pos = .ok (value, next) ↔ VarIntAt bytes pos value next := by
  rw [readNext]
  constructor
  · intro h
    split at h
    · exact readVarInt_eq_ok_iff.mp h
    · cases h
  · intro h
    have hlt := h.lt_length
    rw [if_pos (by omega)]
    exact readVarInt_eq_ok_iff.mpr h

theorem failsOnly_readNext : FailsOnly (· = .returned ec) (readNext ec bytes pos) :=
  (readNext_inside ec bytes pos).failsOnly

theorem failsOnly_readVarInt (h : pos ≤ bytes.length) :
    FailsOnly (· = .returned ec) (readVarInt ec bytes pos) :=
  (readVarInt_inside ec h).failsOnly

theorem require_bind_readVarInt {β : Type}
    (next : UInt64 × Nat → Except (Fault ErrorCode) β) :
    (do
      require (pos < bytes.length) ec
      let read ← readVarInt ec bytes pos
      next read) = (do
      let read ← readNext ec bytes pos
      next read) := by
  rw [readNext, require]
  by_cases hlt : pos < bytes.length
  · rw [if_pos (decide_eq_true hlt), if_pos hlt]
    rfl
  · rw [if_neg (by simp [hlt]), if_neg hlt]
    rfl

theorem require_eq_ok_iff {condition : Bool} {done : Unit} :
    require condition ec = .ok done ↔ condition = true := by
  cases condition with
  | true => exact iff_of_true rfl rfl
  | false =>
      refine iff_of_false ?_ Bool.false_ne_true
      intro h
      cases h

theorem failsOnly_require {condition : Bool} :
    FailsOnly (· = .returned ec) (require condition ec) := by
  cases condition with
  | true => exact failsOnly_ok _ _
  | false => exact failsOnly_error_iff.mpr rfl

/-- A refused `reserve` is no `std::nullopt`. -/
theorem failsOnly_require_of_ne {condition : Bool} (hne : other ≠ ec) :
    FailsOnly (· = .returned ec) (require condition other) ↔ condition = true := by
  cases condition with
  | true => exact iff_of_true (failsOnly_ok _ _) rfl
  | false =>
      refine iff_of_false ?_ Bool.false_ne_true
      intro h
      exact hne (Fault.returned.inj (h (.returned other) rfl))

theorem readRange_eq_ok_iff {length : Nat} {item : Bytes} :
    readRange bytes pos length = .ok (item, next)
      ↔ pos + length ≤ bytes.length ∧ item = slice bytes pos length ∧ next = pos + length := by
  rw [readRange]
  constructor
  · intro h
    split at h
    · rename_i hfits
      cases h
      exact ⟨hfits, rfl, rfl⟩
    · cases h
  · rintro ⟨hfits, rfl, rfl⟩
    rw [if_pos hfits]

theorem failsOnly_readRange_iff {length : Nat} :
    FailsOnly (· = .returned ec) (readRange bytes pos length) ↔ pos + length ≤ bytes.length := by
  rw [readRange]
  split
  · rename_i hfits
    exact iff_of_true (failsOnly_ok _ _) hfits
  · rename_i hbeyond
    refine iff_of_false ?_ hbeyond
    intro h
    cases failsOnly_error_iff.mp h

theorem readByte_eq_ok_iff {byte : UInt8} :
    readByte bytes pos = .ok (byte, next) ↔ bytes[pos]? = some byte ∧ next = pos + 1 := by
  rw [readByte]
  cases bytes[pos]? with
  | none => simp
  | some other => simp [eq_comm]

theorem failsOnly_readByte (h : pos < bytes.length) (E : Fault ErrorCode → Prop) :
    FailsOnly E (readByte bytes pos) := by
  rw [readByte_of_lt h]
  exact failsOnly_ok _ _

/-- A loop that needs nothing but varints. -/
theorem failsOnly_readMany_readNext (count : Nat) :
    FailsOnly (fun failure => failure.2 = .returned ec) (readMany (readNext ec bytes) count pos) :=
  (failsOnly_readMany_iff (fun _ _ => Iff.rfl) count pos).mpr fun _ _ _ _ => failsOnly_readNext

theorem readMany_readVarInt_iff (ec : ErrorCode) (count : Nat) :
    (∃ values, readMany (readVarInt ec bytes) count pos = .ok (values, next))
      ↔ Chain (VarIntTo bytes) count pos next := by
  refine (chain_iff (fun pos next => ?_) count pos next).symm
  simp only [VarIntTo, readVarInt_eq_ok_iff]

theorem readMany_readNext_iff (ec : ErrorCode) (count : Nat) :
    (∃ values, readMany (readNext ec bytes) count pos = .ok (values, next))
      ↔ Chain (VarIntTo bytes) count pos next := by
  refine (chain_iff (fun pos next => ?_) count pos next).symm
  simp only [VarIntTo, readNext_eq_ok_iff]

/-! ### Manifests -/

namespace SnapshotManifest

variable {reserves : Nat → Bool}

/-- The input begins with three varints and the length of a label. -/
def LabelAt (bytes : Bytes) (labelLen : UInt64) (labelAt : Nat) : Prop :=
  ∃ lenAt, Chain (VarIntTo bytes) 3 0 lenAt ∧ VarIntAt bytes lenAt labelLen labelAt

/-- The label fits and the number of nodes stands behind it. -/
def NodesAt (bytes : Bytes) (numNodes : UInt64) (start : Nat) : Prop :=
  ∃ labelLen labelAt, LabelAt bytes labelLen labelAt ∧ labelAt + labelLen.toNat ≤ bytes.length
    ∧ VarIntAt bytes (labelAt + labelLen.toNat) numNodes start

/-- A node begins at the position whose path fits, up to the number of its blocks. -/
def BlocksAt (bytes : Bytes) (pos : Nat) (numBlocks : UInt64) (blocksAt : Nat) : Prop :=
  ∃ pathLen pathAt countAt, VarIntAt bytes pos pathLen pathAt
    ∧ pathAt + pathLen.toNat ≤ bytes.length
    ∧ Chain (VarIntTo bytes) 4 (pathAt + pathLen.toNat) countAt
    ∧ VarIntAt bytes countAt numBlocks blocksAt

/-- A whole node, for whose blocks there is memory. -/
def NodeTo (reserves : Nat → Bool) (bytes : Bytes) (pos next : Nat) : Prop :=
  ∃ numBlocks blocksAt, BlocksAt bytes pos numBlocks blocksAt ∧ reserves numBlocks.toNat = true
    ∧ Chain (VarIntTo bytes) numBlocks.toNat blocksAt next

/-- The loop over the nodes comes to the position. -/
def ComesTo (reserves : Nat → Bool) (bytes : Bytes) (pos : Nat) : Prop :=
  ∃ numNodes start k, NodesAt bytes numNodes start ∧ k < numNodes.toNat
    ∧ Chain (NodeTo reserves bytes) k start pos

inductive Demands (reserves : Nat → Bool) (bytes : Bytes) : Demand → Prop
  | label {labelLen : UInt64} {labelAt : Nat} (h : LabelAt bytes labelLen labelAt) :
      Demands reserves bytes (.range labelAt labelLen.toNat)
  | path {pos pathAt : Nat} {pathLen : UInt64} (h : ComesTo reserves bytes pos)
      (hpath : VarIntAt bytes pos pathLen pathAt) :
      Demands reserves bytes (.range pathAt pathLen.toNat)
  | blocks {pos blocksAt : Nat} {numBlocks : UInt64} (h : ComesTo reserves bytes pos)
      (hblocks : BlocksAt bytes pos numBlocks blocksAt) :
      Demands reserves bytes (.memory (reserves numBlocks.toNat))

theorem nodeTo_iff (pos next : Nat) : NodeTo reserves bytes pos next
    ↔ ∃ node, readNode reserves bytes pos = .ok (node, next) := by
  simp only [readNode, bind_eq_ok_iff, Prod.exists, readNext_eq_ok_iff, require_eq_ok_iff,
    decide_eq_true_eq, readRange_eq_ok_iff, NodeTo, BlocksAt, chain_succ_iff, chain_zero_iff]
  constructor
  · rintro ⟨numBlocks, blocksAt, ⟨pathLen, pathAt, _, hpath, hfits,
      ⟨_, ⟨entryId, hid⟩, _, ⟨size, hsize⟩, _, ⟨checksum, hchecksum⟩, _, ⟨time, htime⟩, rfl⟩, hcount⟩,
      hmemory, hblocks⟩
    obtain ⟨blockIds, hloop⟩ := (readMany_readNext_iff noManifest _).mpr hblocks
    refine ⟨{ path := slice bytes pathAt pathLen.toNat, entryId := entryId, size := size
              checksum := checksum.toUInt32, modifiedTime := time, blockIds := blockIds },
      pathLen, pathAt, hpath, (), (Nat.mod_le _ _).trans hfits, _, _, ⟨hfits, rfl, rfl⟩,
      entryId, _, hid, size, _, hsize, checksum, _, hchecksum, time, _, htime, numBlocks, _, hcount,
      (), hmemory, ?_⟩
    rw [hloop]
    rfl
  · rintro ⟨node, pathLen, pathAt, hpath, -, -, _, _, ⟨hfits, rfl, rfl⟩, entryId, _, hid, size, _,
      hsize, checksum, _, hchecksum, time, _, htime, numBlocks, blocksAt, hcount, -, hmemory, hlast⟩
    refine ⟨numBlocks, blocksAt, ⟨pathLen, pathAt, _, hpath, hfits,
      ⟨_, ⟨entryId, hid⟩, _, ⟨size, hsize⟩, _, ⟨checksum, hchecksum⟩, _, ⟨time, htime⟩, rfl⟩, hcount⟩,
      hmemory, (readMany_readNext_iff noManifest _).mp ?_⟩
    cases hloop : readMany (readNext noManifest bytes) numBlocks.toNat blocksAt with
    | error failure =>
        rw [hloop] at hlast
        cases hlast
    | ok found =>
        rw [hloop] at hlast
        cases hlast
        exact ⟨found.1, rfl⟩

theorem failsOnly_readNode_iff :
    FailsOnly (· = .returned noManifest) (readNode reserves bytes pos)
      ↔ (∀ pathLen pathAt, VarIntAt bytes pos pathLen pathAt → ¬ Wraps bytes pathAt pathLen.toNat)
        ∧ ∀ numBlocks blocksAt, BlocksAt bytes pos numBlocks blocksAt →
          reserves numBlocks.toNat = true := by
  simp only [readNode, failsOnly_bind_iff, Prod.forall, failsOnly_readNext, true_and,
    readNext_eq_ok_iff, failsOnly_require, require_eq_ok_iff, decide_eq_true_eq,
    failsOnly_readRange_iff, readRange_eq_ok_iff, forall_const, not_wraps_iff]
  constructor
  · intro h
    refine ⟨fun pathLen pathAt hpath hsum => (h pathLen pathAt hpath hsum).1, ?_⟩
    simp only [BlocksAt, chain_succ_iff, chain_zero_iff]
    rintro numBlocks blocksAt ⟨pathLen, pathAt, _, hpath, hfits,
      ⟨_, ⟨entryId, hid⟩, _, ⟨size, hsize⟩, _, ⟨checksum, hchecksum⟩, _, ⟨time, htime⟩, rfl⟩, hcount⟩
    have hlast := ((h pathLen pathAt hpath ((Nat.mod_le _ _).trans hfits)).2 _ _ ⟨hfits, rfl, rfl⟩
      entryId _ hid size _ hsize checksum _ hchecksum time _ htime numBlocks _ hcount).1
    exact (failsOnly_require_of_ne (by decide)).mp hlast
  · rintro ⟨hranges, hmemory⟩ pathLen pathAt hpath hsum
    refine ⟨hranges pathLen pathAt hpath hsum, ?_⟩
    rintro _ _ ⟨hfits, rfl, rfl⟩ entryId _ hid size _ hsize checksum _ hchecksum time _ htime numBlocks
      blocksAt hcount
    have hgranted : reserves numBlocks.toNat = true := by
      apply hmemory numBlocks blocksAt
      simp only [BlocksAt, chain_succ_iff, chain_zero_iff]
      exact ⟨pathLen, pathAt, _, hpath, hfits, ⟨_, ⟨entryId, hid⟩, _, ⟨size, hsize⟩, _,
        ⟨checksum, hchecksum⟩, _, ⟨time, htime⟩, rfl⟩, hcount⟩
    refine ⟨(failsOnly_require_of_ne (by decide)).mpr hgranted, fun _ => ?_⟩
    have hblocks := @failsOnly_readMany_readNext bytes blocksAt noManifest numBlocks.toNat
    cases hloop : readMany (readNext noManifest bytes) numBlocks.toNat blocksAt with
    | error failure => exact failsOnly_error_iff.mpr (hblocks failure hloop)
    | ok found => exact failsOnly_ok _ _

/-- The label and the nodes are all that can go wrong. -/
theorem failsOnly_deserialize_iff (now : UInt64) :
    FailsOnly (· = .returned noManifest) (deserialize reserves now bytes)
      ↔ (∀ labelLen labelAt, LabelAt bytes labelLen labelAt →
          ¬ Wraps bytes labelAt labelLen.toNat)
        ∧ ∀ pos, ComesTo reserves bytes pos →
          FailsOnly (· = .returned noManifest) (readNode reserves bytes pos) := by
  simp only [deserialize, failsOnly_bind_iff, Prod.forall, failsOnly_readNext, true_and,
    readNext_eq_ok_iff, failsOnly_require, require_eq_ok_iff, decide_eq_true_eq,
    failsOnly_readRange_iff, readRange_eq_ok_iff, readVarInt_eq_ok_iff, forall_const, not_wraps_iff,
    failsOnly_readVarInt (Nat.zero_le _)]
  constructor
  · intro h
    constructor
    · simp only [LabelAt, chain_succ_iff, chain_zero_iff]
      rintro labelLen labelAt ⟨_, ⟨_, ⟨id, hid⟩, _, ⟨parentId, hparent⟩, _, ⟨time, htime⟩, rfl⟩, hlabel⟩
        hsum
      exact (h (ne_nil_of_varIntAt hid) id _ hid parentId _ hparent time _ htime labelLen labelAt hlabel
        hsum).1
    · simp only [ComesTo, NodesAt, LabelAt, chain_succ_iff, chain_zero_iff]
      rintro pos ⟨numNodes, start, k, ⟨labelLen, labelAt, ⟨_, ⟨_, ⟨id, hid⟩, _, ⟨parentId, hparent⟩, _,
        ⟨time, htime⟩, rfl⟩, hlabel⟩, hfits, hnum⟩, hk, hchain⟩
      have htail := (h (ne_nil_of_varIntAt hid) id _ hid parentId _ hparent time _ htime labelLen labelAt
        hlabel ((Nat.mod_le _ _).trans hfits)).2 _ _ ⟨hfits, rfl, rfl⟩
      have hlt := hnum.lt_length
      rw [if_neg (by omega), failsOnly_bind_iff] at htail
      have hloop := htail.2 (numNodes, start) (readVarInt_eq_ok_iff.mpr hnum)
      refine (failsOnly_readMany_iff nodeTo_iff _ _).mp ?_ k hk pos hchain
      intro failure hfail
      simp only [hfail] at hloop
      exact hloop failure.2 rfl
  · rintro ⟨hlabelMet, hnodes⟩ hne id _ hid parentId _ hparent time _ htime labelLen labelAt hlabel hsum
    have hlabelAt : LabelAt bytes labelLen labelAt := by
      simp only [LabelAt, chain_succ_iff, chain_zero_iff]
      exact ⟨_, ⟨_, ⟨id, hid⟩, _, ⟨parentId, hparent⟩, _, ⟨time, htime⟩, rfl⟩, hlabel⟩
    refine ⟨hlabelMet labelLen labelAt hlabelAt hsum, ?_⟩
    rintro label _ ⟨hfits, -, rfl⟩
    split
    · exact failsOnly_ok _ _
    · rw [failsOnly_bind_iff]
      refine ⟨failsOnly_readVarInt hfits, ?_⟩
      rintro ⟨numNodes, start⟩ hnum
      have hnodesAt : NodesAt bytes numNodes start :=
        ⟨labelLen, labelAt, hlabelAt, hfits, readVarInt_eq_ok_iff.mp hnum⟩
      have hread : FailsOnly (fun failure => failure.2 = .returned noManifest)
          (readMany (readNode reserves bytes) numNodes.toNat start) :=
        (failsOnly_readMany_iff nodeTo_iff _ _).mpr fun k hk pos hchain =>
          hnodes pos ⟨numNodes, start, k, hnodesAt, hk, hchain⟩
      simp only
      cases hloop : readMany (readNode reserves bytes) numNodes.toNat start with
      | error failure => exact failsOnly_error_iff.mpr (hread failure hloop)
      | ok found => exact failsOnly_ok _ _

theorem returnsValueOr_deserialize_iff (now : UInt64) :
    ReturnsValueOr noManifest (deserialize reserves now bytes)
      ↔ ∀ demand, Demands reserves bytes demand → demand.Met bytes := by
  simp only [returnsValueOr_iff, failsOnly_deserialize_iff, failsOnly_readNode_iff]
  constructor
  · rintro ⟨hlabel, hnodes⟩ demand hdemand
    cases hdemand with
    | label h => exact hlabel _ _ h
    | path h hpath => exact (hnodes _ h).1 _ _ hpath
    | blocks h hblocks => exact (hnodes _ h).2 _ _ hblocks
  · intro h
    exact ⟨fun labelLen labelAt hlabel => h _ (.label hlabel), fun pos hpos =>
      ⟨fun pathLen pathAt hpath => h _ (.path hpos hpath),
        fun numBlocks blocksAt hblocks => h _ (.blocks hpos hblocks)⟩⟩

end SnapshotManifest

/-! ### Deltas -/

namespace SnapshotDelta

variable {reserves : Nat → Bool}

/-- The input begins with two varints and the number of entries. -/
def EntriesAt (bytes : Bytes) (numEntries : UInt64) (start : Nat) : Prop :=
  ∃ countAt, Chain (VarIntTo bytes) 2 0 countAt ∧ VarIntAt bytes countAt numEntries start

def NodeTo (bytes : Bytes) (pos next : Nat) : Prop :=
  ∃ countAt blockCount blocksAt, Chain (VarIntTo bytes) 4 pos countAt
    ∧ VarIntAt bytes countAt blockCount blocksAt
    ∧ Chain (VarIntTo bytes) blockCount.toNat blocksAt next

/-- A whole entry: a path that fits, two bytes, and a node where the second of them is not zero. -/
def EntryTo (bytes : Bytes) (pos next : Nat) : Prop :=
  ∃ pathLen pathAt hasNewNode, VarIntAt bytes pos pathLen pathAt
    ∧ bytes[pathAt + pathLen.toNat + 1]? = some hasNewNode
    ∧ if hasNewNode ≠ 0 then NodeTo bytes (pathAt + pathLen.toNat + 2) next
      else next = pathAt + pathLen.toNat + 2

/-- The loop over the entries comes to the position. -/
def ComesTo (reserves : Nat → Bool) (bytes : Bytes) (pos : Nat) : Prop :=
  ∃ numEntries start k, EntriesAt bytes numEntries start ∧ reserves numEntries.toNat = true
    ∧ k < numEntries.toNat ∧ Chain (EntryTo bytes) k start pos

inductive Demands (reserves : Nat → Bool) (bytes : Bytes) : Demand → Prop
  | entries {numEntries : UInt64} {start : Nat} (h : EntriesAt bytes numEntries start) :
      Demands reserves bytes (.memory (reserves numEntries.toNat))
  | path {pos pathAt : Nat} {pathLen : UInt64} (h : ComesTo reserves bytes pos)
      (hpath : VarIntAt bytes pos pathLen pathAt) :
      Demands reserves bytes (.range pathAt pathLen.toNat)

theorem nodeTo_iff (path : Bytes) (pos next : Nat) : NodeTo bytes pos next
    ↔ ∃ node, readNode path bytes pos = .ok (node, next) := by
  simp only [readNode, bind_eq_ok_iff, Prod.exists, readVarInt_eq_ok_iff, NodeTo, chain_succ_iff,
    chain_zero_iff]
  constructor
  · rintro ⟨_, blockCount, blocksAt, ⟨_, ⟨entryId, hid⟩, _, ⟨size, hsize⟩, _, ⟨checksum, hchecksum⟩, _,
      ⟨time, htime⟩, rfl⟩, hcount, hblocks⟩
    obtain ⟨blockIds, hloop⟩ := (readMany_readVarInt_iff noDelta _).mpr hblocks
    refine ⟨{ path := path, entryId := entryId, size := size, checksum := checksum.toUInt32
              modifiedTime := time, blockIds := blockIds },
      entryId, _, hid, size, _, hsize, checksum, _, hchecksum, time, _, htime, blockCount, _, hcount, ?_⟩
    rw [hloop]
    rfl
  · rintro ⟨node, entryId, _, hid, size, _, hsize, checksum, _, hchecksum, time, _, htime, blockCount,
      blocksAt, hcount, hlast⟩
    refine ⟨_, blockCount, blocksAt, ⟨_, ⟨entryId, hid⟩, _, ⟨size, hsize⟩, _, ⟨checksum, hchecksum⟩, _,
      ⟨time, htime⟩, rfl⟩, hcount, (readMany_readVarInt_iff noDelta _).mp ?_⟩
    cases hloop : readMany (readVarInt noDelta bytes) blockCount.toNat blocksAt with
    | error failure =>
        rw [hloop] at hlast
        cases hlast
    | ok found =>
        rw [hloop] at hlast
        cases hlast
        exact ⟨found.1, rfl⟩

/-- Without a check before each varint the rest of the input may be empty, and no varint is valid then. -/
theorem failsOnly_readNode (path : Bytes) (h : pos ≤ bytes.length) :
    FailsOnly (· = .returned noDelta) (readNode path bytes pos) := by
  have hnode : Yields (· = .returned noDelta) (fun _ => True) (readNode path bytes pos) := by
    refine (readVarInt_inside noDelta h).bind fun entryId hid => ?_
    refine (readVarInt_inside noDelta hid.2).bind fun size hsize => ?_
    refine (readVarInt_inside noDelta hsize.2).bind fun checksum hchecksum => ?_
    refine (readVarInt_inside noDelta hchecksum.2).bind fun time htime => ?_
    refine (readVarInt_inside noDelta htime.2).bind fun blockCount hcount => ?_
    have hblocks := readMany_yields (fun pos (hpos : pos ≤ bytes.length) =>
      (readVarInt_inside noDelta hpos).mono fun _ hread => hread.2) blockCount.1.toNat hcount.2
    simp only
    cases hloop : readMany (readVarInt noDelta bytes) blockCount.1.toNat blockCount.2 with
    | error failure => exact hblocks.of_error hloop
    | ok found => trivial
  exact hnode.failsOnly

theorem entryTo_iff (pos next : Nat) : EntryTo bytes pos next
    ↔ ∃ entry, readEntry bytes pos = .ok (entry, next) := by
  simp only [readEntry, require_bind_readVarInt, bind_eq_ok_iff, Prod.exists, readNext_eq_ok_iff, EntryTo,
    require_eq_ok_iff, decide_eq_true_eq, readRange_eq_ok_iff, readByte_eq_ok_iff]
  constructor
  · rintro ⟨pathLen, pathAt, hasNewNode, hpath, hflag, hnode⟩
    obtain ⟨hlt, -⟩ := List.getElem?_eq_some_iff.mp hflag
    have hfits : pathAt + pathLen.toNat ≤ bytes.length := by omega
    obtain ⟨action, haction⟩ : ∃ action, bytes[pathAt + pathLen.toNat]? = some action :=
      ⟨_, List.getElem?_eq_getElem (by omega)⟩
    split at hnode
    · rename_i hnew
      obtain ⟨node, hread⟩ := (nodeTo_iff (slice bytes pathAt pathLen.toNat) _ next).mp hnode
      refine ⟨{ path := slice bytes pathAt pathLen.toNat, action := .ofByte action
                newNode := some node },
        pathLen, pathAt, hpath, (), (Nat.mod_le _ _).trans hfits, _, _, ⟨hfits, rfl, rfl⟩, (),
        by omega, _, _, ⟨haction, rfl⟩, (), hlt, _, _, ⟨hflag, rfl⟩, ?_⟩
      rw [if_pos hnew, hread]
      rfl
    · rename_i hold
      refine ⟨{ path := slice bytes pathAt pathLen.toNat, action := .ofByte action },
        pathLen, pathAt, hpath, (), (Nat.mod_le _ _).trans hfits, _, _, ⟨hfits, rfl, rfl⟩, (),
        by omega, _, _, ⟨haction, rfl⟩, (), hlt, _, _, ⟨hflag, rfl⟩, ?_⟩
      subst hnode
      rw [if_neg hold]
      rfl
  · rintro ⟨entry, pathLen, pathAt, hpath, -, -, _, _, ⟨hfits, rfl, rfl⟩, -, -, action, _, ⟨haction, rfl⟩,
      -, -, hasNewNode, _, ⟨hflag, rfl⟩, hlast⟩
    refine ⟨pathLen, pathAt, hasNewNode, hpath, hflag, ?_⟩
    split at hlast
    · rename_i hnew
      simp only [bind_eq_ok_iff, Prod.exists] at hlast
      obtain ⟨node, last, hread, heq⟩ := hlast
      cases heq
      rw [if_pos hnew]
      exact (nodeTo_iff _ _ _).mpr ⟨node, hread⟩
    · rename_i hold
      cases hlast
      rw [if_neg hold]

theorem failsOnly_readEntry_iff : FailsOnly (· = .returned noDelta) (readEntry bytes pos)
    ↔ ∀ pathLen pathAt, VarIntAt bytes pos pathLen pathAt → ¬ Wraps bytes pathAt pathLen.toNat := by
  simp only [readEntry, require_bind_readVarInt, failsOnly_bind_iff, Prod.forall, failsOnly_readNext,
    true_and, readNext_eq_ok_iff, failsOnly_require, require_eq_ok_iff, decide_eq_true_eq,
    failsOnly_readRange_iff, readRange_eq_ok_iff, readByte_eq_ok_iff, forall_const, not_wraps_iff]
  constructor
  · exact fun h pathLen pathAt hpath hsum => (h pathLen pathAt hpath hsum).1
  · rintro h pathLen pathAt hpath hsum
    refine ⟨h pathLen pathAt hpath hsum, ?_⟩
    rintro path _ ⟨-, -, rfl⟩ hactionAt
    refine ⟨failsOnly_readByte hactionAt _, ?_⟩
    rintro action _ ⟨-, rfl⟩ hflagAt
    refine ⟨failsOnly_readByte hflagAt _, ?_⟩
    rintro hasNewNode _ ⟨-, rfl⟩
    split
    · exact failsOnly_bind_iff.mpr ⟨failsOnly_readNode path hflagAt, fun _ _ => failsOnly_ok _ _⟩
    · exact failsOnly_ok _ _

theorem failsOnly_deserialize_iff :
    FailsOnly (· = .returned noDelta) (deserializeReserving reserves bytes)
      ↔ (∀ numEntries start, EntriesAt bytes numEntries start → reserves numEntries.toNat = true)
        ∧ ∀ pos, ComesTo reserves bytes pos →
          FailsOnly (· = .returned noDelta) (readEntry bytes pos) := by
  simp only [deserializeReserving, failsOnly_bind_iff, Prod.forall, failsOnly_readNext, true_and,
    readNext_eq_ok_iff, failsOnly_require, require_eq_ok_iff, decide_eq_true_eq,
    readVarInt_eq_ok_iff, forall_const, failsOnly_readVarInt (Nat.zero_le _)]
  constructor
  · intro h
    constructor
    · simp only [EntriesAt, chain_succ_iff, chain_zero_iff]
      rintro numEntries start ⟨_, ⟨_, ⟨baseId, hbase⟩, _, ⟨targetId, htarget⟩, rfl⟩, hnum⟩
      exact (failsOnly_require_of_ne (by decide)).mp
        (h (ne_nil_of_varIntAt hbase) baseId _ hbase targetId _ htarget numEntries start hnum).1
    · simp only [ComesTo, EntriesAt, chain_succ_iff, chain_zero_iff]
      rintro pos ⟨numEntries, start, k, ⟨_, ⟨_, ⟨baseId, hbase⟩, _, ⟨targetId, htarget⟩, rfl⟩, hnum⟩,
        hmemory, hk, hchain⟩
      have hloop := (h (ne_nil_of_varIntAt hbase) baseId _ hbase targetId _ htarget numEntries start
        hnum).2 hmemory
      refine (failsOnly_readMany_iff entryTo_iff _ _).mp ?_ k hk pos hchain
      intro failure hfail
      simp only [hfail] at hloop
      exact hloop failure.2 rfl
  · rintro ⟨hmemory, hentries⟩ hne baseId _ hbase targetId _ htarget numEntries start hnum
    have hentriesAt : EntriesAt bytes numEntries start := by
      simp only [EntriesAt, chain_succ_iff, chain_zero_iff]
      exact ⟨_, ⟨_, ⟨baseId, hbase⟩, _, ⟨targetId, htarget⟩, rfl⟩, hnum⟩
    have hgranted := hmemory numEntries start hentriesAt
    refine ⟨(failsOnly_require_of_ne (by decide)).mpr hgranted, fun _ => ?_⟩
    have hread : FailsOnly (fun failure => failure.2 = .returned noDelta)
        (readMany (readEntry bytes) numEntries.toNat start) :=
      (failsOnly_readMany_iff entryTo_iff _ _).mpr fun k hk pos hchain =>
        hentries pos ⟨numEntries, start, k, hentriesAt, hgranted, hk, hchain⟩
    cases hloop : readMany (readEntry bytes) numEntries.toNat start with
    | error failure => exact failsOnly_error_iff.mpr (hread failure hloop)
    | ok found => exact failsOnly_ok _ _

theorem returnsValueOr_deserialize_iff :
    ReturnsValueOr noDelta (deserializeReserving reserves bytes)
      ↔ ∀ demand, Demands reserves bytes demand → demand.Met bytes := by
  simp only [returnsValueOr_iff, failsOnly_deserialize_iff, failsOnly_readEntry_iff]
  constructor
  · rintro ⟨hmemory, hentries⟩ demand hdemand
    cases hdemand with
    | entries h => exact hmemory _ _ h
    | path h hpath => exact hentries _ h _ _ hpath
  · intro h
    exact ⟨fun numEntries start hnum => h _ (.entries hnum),
      fun pos hpos pathLen pathAt hpath => h _ (.path hpos hpath)⟩

end SnapshotDelta

/-! ### Posting lists -/

namespace PostingList

variable {memory : PostingMemory}

/-- A posting begins at the position, up to the number of its positions. -/
def PositionsAt (bytes : Bytes) (pos : Nat) (tf : UInt64) (start : Nat) : Prop :=
  ∃ tfAt, VarIntTo bytes pos tfAt ∧ VarIntAt bytes tfAt tf start

def PostingTo (memory : PostingMemory) (bytes : Bytes) (pos next : Nat) : Prop :=
  ∃ tf start, PositionsAt bytes pos tf start ∧ memory.positions tf.toUInt32.toNat = true
    ∧ Chain (VarIntTo bytes) tf.toUInt32.toNat start next

/-- The loop over the postings comes to the position. -/
def ComesTo (memory : PostingMemory) (bytes : Bytes) (pos : Nat) : Prop :=
  ∃ numDocs start k, VarIntAt bytes 0 numDocs start ∧ memory.postings numDocs.toNat = true
    ∧ k < numDocs.toNat ∧ Chain (PostingTo memory bytes) k start pos

inductive Demands (memory : PostingMemory) (bytes : Bytes) : Demand → Prop
  | postings {numDocs : UInt64} {start : Nat} (h : VarIntAt bytes 0 numDocs start) :
      Demands memory bytes (.memory (memory.postings numDocs.toNat))
  | positions {pos start : Nat} {tf : UInt64} (h : ComesTo memory bytes pos)
      (htf : PositionsAt bytes pos tf start) :
      Demands memory bytes (.memory (memory.positions tf.toUInt32.toNat))

/-- The bytes are a whole list, for which there is memory. -/
def IsWhole (memory : PostingMemory) (bytes : Bytes) : Prop :=
  bytes = [] ∨ ∃ numDocs start next, VarIntAt bytes 0 numDocs start
    ∧ memory.postings numDocs.toNat = true ∧ Chain (PostingTo memory bytes) numDocs.toNat start next

theorem postingTo_iff (pos next : Nat) : PostingTo memory bytes pos next
    ↔ ∃ posting, readPosting memory bytes pos = .ok (posting, next) := by
  simp only [readPosting, bind_eq_ok_iff, Prod.exists, readNext_eq_ok_iff, require_eq_ok_iff, PostingTo,
    PositionsAt]
  constructor
  · rintro ⟨tf, start, ⟨_, ⟨delta, hdelta⟩, htf⟩, hmemory, hpositions⟩
    obtain ⟨deltas, hloop⟩ := (readMany_readNext_iff noIndex _).mpr hpositions
    refine ⟨{ docId := delta, termFrequency := tf.toUInt32, positions := sumPositions 0 deltas },
      delta, _, hdelta, tf, _, htf, (), hmemory, ?_⟩
    rw [hloop]
    rfl
  · rintro ⟨posting, delta, _, hdelta, tf, start, htf, -, hmemory, hlast⟩
    refine ⟨tf, start, ⟨_, ⟨delta, hdelta⟩, htf⟩, hmemory,
      (readMany_readNext_iff noIndex _).mp ?_⟩
    cases hloop : readMany (readNext noIndex bytes) tf.toUInt32.toNat start with
    | error failure =>
        rw [hloop] at hlast
        cases hlast
    | ok found =>
        rw [hloop] at hlast
        cases hlast
        exact ⟨found.1, rfl⟩

theorem failsOnly_readPosting_iff : FailsOnly (· = .returned noIndex) (readPosting memory bytes pos)
    ↔ ∀ tf start, PositionsAt bytes pos tf start → memory.positions tf.toUInt32.toNat = true := by
  simp only [readPosting, failsOnly_bind_iff, Prod.forall, failsOnly_readNext, true_and,
    readNext_eq_ok_iff, require_eq_ok_iff, forall_const]
  constructor
  · rintro h tf start ⟨_, ⟨delta, hdelta⟩, htf⟩
    exact (failsOnly_require_of_ne (by decide)).mp (h delta _ hdelta tf start htf).1
  · intro h delta tfAt hdelta tf start htf
    have hgranted := h tf start ⟨tfAt, ⟨delta, hdelta⟩, htf⟩
    refine ⟨(failsOnly_require_of_ne (by decide)).mpr hgranted, fun _ => ?_⟩
    have hpositions := @failsOnly_readMany_readNext bytes start noIndex tf.toUInt32.toNat
    cases hloop : readMany (readNext noIndex bytes) tf.toUInt32.toNat start with
    | error failure => exact failsOnly_error_iff.mpr (hpositions failure hloop)
    | ok found => exact failsOnly_ok _ _

theorem isWhole_iff : IsWhole memory bytes ↔ ∃ list, deserialize memory bytes = .ok list := by
  rw [deserialize, IsWhole]
  by_cases hempty : bytes = []
  · rw [if_pos hempty]
    exact iff_of_true (Or.inl hempty) ⟨{}, rfl⟩
  · rw [if_neg hempty, or_iff_right hempty]
    simp only [bind_eq_ok_iff, Prod.exists, readVarInt_eq_ok_iff, require_eq_ok_iff]
    constructor
    · rintro ⟨numDocs, start, next, hnum, hmemory, hchain⟩
      obtain ⟨postings, hloop⟩ := (chain_iff postingTo_iff _ _ _).mp hchain
      refine ⟨(sumDocIds 0 postings).foldl addPosting {}, numDocs, start, hnum, (), hmemory, ?_⟩
      rw [hloop]
      rfl
    · rintro ⟨list, numDocs, start, hnum, -, hmemory, hlast⟩
      cases hloop : readMany (readPosting memory bytes) numDocs.toNat start with
      | error failure =>
          rw [hloop] at hlast
          cases hlast
      | ok found =>
          exact ⟨numDocs, start, found.2, hnum, hmemory,
            (chain_iff postingTo_iff _ _ _).mpr ⟨found.1, hloop⟩⟩

theorem failsOnly_deserialize_iff :
    FailsOnly (· = .returned noIndex) (deserialize memory bytes)
      ↔ ∀ granted, Demands memory bytes (.memory granted) → granted = true := by
  rw [deserialize]
  by_cases hempty : bytes = []
  · rw [if_pos hempty]
    refine iff_of_true (failsOnly_ok _ _) fun granted hdemand => ?_
    cases hdemand with
    | postings h => exact absurd hempty (ne_nil_of_varIntAt h)
    | positions h _ =>
        obtain ⟨numDocs, start, k, hnum, -⟩ := h
        exact absurd hempty (ne_nil_of_varIntAt hnum)
  · rw [if_neg hempty]
    simp only [failsOnly_bind_iff, Prod.forall, readVarInt_eq_ok_iff, require_eq_ok_iff,
      failsOnly_readVarInt (Nat.zero_le _), true_and, forall_const]
    constructor
    · intro h granted hdemand
      cases hdemand with
      | postings hnum => exact (failsOnly_require_of_ne (by decide)).mp (h _ _ hnum).1
      | positions hcomes htf =>
          obtain ⟨numDocs, start, k, hnum, hmemory, hk, hchain⟩ := hcomes
          have hloop := (h numDocs start hnum).2 hmemory
          refine failsOnly_readPosting_iff.mp ?_ _ _ htf
          refine (failsOnly_readMany_iff postingTo_iff _ _).mp ?_ k hk _ hchain
          intro failure hfail
          simp only [hfail] at hloop
          exact hloop failure.2 rfl
    · intro h numDocs start hnum
      have hgranted := h _ (.postings hnum)
      refine ⟨(failsOnly_require_of_ne (by decide)).mpr hgranted, fun _ => ?_⟩
      have hread : FailsOnly (fun failure => failure.2 = .returned noIndex)
          (readMany (readPosting memory bytes) numDocs.toNat start) :=
        (failsOnly_readMany_iff postingTo_iff _ _).mpr fun k hk pos hchain =>
          failsOnly_readPosting_iff.mpr fun tf at' htf =>
            h _ (.positions ⟨numDocs, start, k, hnum, hgranted, hk, hchain⟩ htf)
      cases hloop : readMany (readPosting memory bytes) numDocs.toNat start with
      | error failure => exact failsOnly_error_iff.mpr (hread failure hloop)
      | ok found => exact failsOnly_ok _ _

end PostingList

/-! ### The index -/

namespace InvertedIndex

variable {memory : PostingMemory}

/-- The lengths of the documents and the number of terms stand in the input. -/
def TermsAt (bytes : Bytes) (numTerms : UInt64) (start : Nat) : Prop :=
  ∃ numDocs lengthsAt countAt, VarIntAt bytes 0 numDocs lengthsAt
    ∧ Chain (Chain (VarIntTo bytes) 2) numDocs.toNat lengthsAt countAt
    ∧ VarIntAt bytes countAt numTerms start

/-- A term begins at the position that fits, up to the length of its posting bytes. -/
def PostingsAt (bytes : Bytes) (pos : Nat) (pBytesLen : UInt64) (pBytesAt : Nat) : Prop :=
  ∃ termLen termAt, VarIntAt bytes pos termLen termAt ∧ termAt + termLen.toNat ≤ bytes.length
    ∧ VarIntAt bytes (termAt + termLen.toNat) pBytesLen pBytesAt

/-- A term with its posting bytes, and where the loop goes on behind them. -/
def ListAt (bytes : Bytes) (pos : Nat) (pBytes : Bytes) (next : Nat) : Prop :=
  ∃ pBytesLen pBytesAt, PostingsAt bytes pos pBytesLen pBytesAt
    ∧ (pBytesAt + pBytesLen.toNat) % wordSize ≤ bytes.length
    ∧ if pBytesLen.toNat = wordSize - 1 then
        pBytes = bytes.drop pBytesAt ∧ next = (pBytesAt + pBytesLen.toNat) % wordSize
      else pBytesAt + pBytesLen.toNat ≤ bytes.length
        ∧ pBytes = slice bytes pBytesAt pBytesLen.toNat ∧ next = pBytesAt + pBytesLen.toNat

def TermTo (memory : PostingMemory) (bytes : Bytes) (pos next : Nat) : Prop :=
  ∃ pBytes, ListAt bytes pos pBytes next ∧ PostingList.IsWhole memory pBytes

/-- The loop over the terms comes to the position. -/
def ComesTo (memory : PostingMemory) (bytes : Bytes) (pos : Nat) : Prop :=
  ∃ numTerms start k, TermsAt bytes numTerms start ∧ k < numTerms.toNat
    ∧ Chain (TermTo memory bytes) k start pos

inductive Demands (memory : PostingMemory) (bytes : Bytes) : Demand → Prop
  | term {pos termAt : Nat} {termLen : UInt64} (h : ComesTo memory bytes pos)
      (hterm : VarIntAt bytes pos termLen termAt) : Demands memory bytes (.range termAt termLen.toNat)
  | postings {pos pBytesAt : Nat} {pBytesLen : UInt64} (h : ComesTo memory bytes pos)
      (hpostings : PostingsAt bytes pos pBytesLen pBytesAt) :
      Demands memory bytes (.span pBytesAt pBytesLen.toNat)
  | list {pos next : Nat} {pBytes : Bytes} {granted : Bool} (h : ComesTo memory bytes pos)
      (hlist : ListAt bytes pos pBytes next)
      (hdemand : PostingList.Demands memory pBytes (.memory granted)) :
      Demands memory bytes (.memory granted)

theorem readSubspan_eq_ok_iff {count : Nat} {item : Bytes} :
    readSubspan bytes start count = .ok (item, next)
      ↔ if count = wordSize - 1 then item = bytes.drop start ∧ next = (start + count) % wordSize
        else start + count ≤ bytes.length ∧ item = slice bytes start count ∧ next = start + count := by
  rw [readSubspan]
  split
  · constructor
    · rintro ⟨⟩
      exact ⟨rfl, rfl⟩
    · rintro ⟨rfl, rfl⟩
      rfl
  · exact readRange_eq_ok_iff

theorem failsOnly_readSubspan_iff {count : Nat} :
    FailsOnly (· = .returned ec) (readSubspan bytes start count)
      ↔ count = wordSize - 1 ∨ start + count ≤ bytes.length := by
  rw [readSubspan]
  split
  · rename_i hrest
    exact iff_of_true (failsOnly_ok _ _) (Or.inl hrest)
  · rename_i hcount
    rw [or_iff_right hcount]
    exact failsOnly_readRange_iff

theorem termTo_iff (pos next : Nat) : TermTo memory bytes pos next
    ↔ ∃ term, readTerm memory bytes pos = .ok (term, next) := by
  simp only [readTerm, bind_eq_ok_iff, Prod.exists, readNext_eq_ok_iff, require_eq_ok_iff,
    decide_eq_true_eq, readRange_eq_ok_iff, readSubspan_eq_ok_iff, TermTo, ListAt, PostingsAt,
    PostingList.isWhole_iff]
  constructor
  · rintro ⟨pBytes, ⟨pBytesLen, pBytesAt, ⟨termLen, termAt, hterm, hfits, hlen⟩, hsum, hspan⟩, pList,
      hlist⟩
    exact ⟨slice bytes termAt termLen.toNat, pList, termLen, termAt, hterm, (),
      (Nat.mod_le _ _).trans hfits, _, _, ⟨hfits, rfl, rfl⟩, pBytesLen, pBytesAt, hlen, (), hsum, pBytes,
      next, hspan, pList, hlist, rfl⟩
  · rintro ⟨_, pList, termLen, termAt, hterm, -, -, _, _, ⟨hfits, rfl, rfl⟩, pBytesLen, pBytesAt, hlen,
      -, hsum, pBytes, _, hspan, _, hlist, ⟨⟩⟩
    exact ⟨pBytes, ⟨pBytesLen, pBytesAt, ⟨termLen, termAt, hterm, hfits, hlen⟩, hsum, hspan⟩, pList,
      hlist⟩

theorem failsOnly_readTerm_iff : FailsOnly (· = .returned noIndex) (readTerm memory bytes pos)
    ↔ (∀ termLen termAt, VarIntAt bytes pos termLen termAt → ¬ Wraps bytes termAt termLen.toNat)
      ∧ (∀ pBytesLen pBytesAt, PostingsAt bytes pos pBytesLen pBytesAt →
        pBytesLen.toNat = wordSize - 1 ∨ ¬ Wraps bytes pBytesAt pBytesLen.toNat)
      ∧ ∀ pBytes next, ListAt bytes pos pBytes next →
        ∀ granted, PostingList.Demands memory pBytes (.memory granted) → granted = true := by
  simp only [readTerm, failsOnly_bind_iff, Prod.forall, failsOnly_readNext, true_and,
    readNext_eq_ok_iff, failsOnly_require, require_eq_ok_iff, decide_eq_true_eq,
    failsOnly_readRange_iff, readRange_eq_ok_iff, readSubspan_eq_ok_iff, failsOnly_readSubspan_iff,
    forall_const, not_wraps_iff, PostingList.failsOnly_deserialize_iff]
  constructor
  · intro h
    -- what follows a term that fits
    have hbehind : ∀ termLen termAt, VarIntAt bytes pos termLen termAt →
        termAt + termLen.toNat ≤ bytes.length → _ :=
      fun termLen termAt hterm hfits => (h termLen termAt hterm ((Nat.mod_le _ _).trans hfits)).2 _ _
        ⟨hfits, rfl, rfl⟩
    refine ⟨fun termLen termAt hterm hsum => (h termLen termAt hterm hsum).1, ?_, ?_⟩
    · rintro pBytesLen pBytesAt ⟨termLen, termAt, hterm, hfits, hlen⟩
      by_cases hsum : (pBytesAt + pBytesLen.toNat) % wordSize ≤ bytes.length
      · exact (hbehind termLen termAt hterm hfits pBytesLen pBytesAt hlen hsum).1.imp_right
          fun hspan _ => hspan
      · exact Or.inr fun hmet => absurd hmet hsum
    · rintro pBytes next ⟨pBytesLen, pBytesAt, ⟨termLen, termAt, hterm, hfits, hlen⟩, hsum, hspan⟩
      exact ((hbehind termLen termAt hterm hfits pBytesLen pBytesAt hlen hsum).2 pBytes next hspan).1
  · rintro ⟨hranges, hspans, hlists⟩ termLen termAt hterm hsum
    refine ⟨hranges termLen termAt hterm hsum, ?_⟩
    rintro term _ ⟨hfits, -, rfl⟩ pBytesLen pBytesAt hlen hspanSum
    have hpostings : PostingsAt bytes pos pBytesLen pBytesAt := ⟨termLen, termAt, hterm, hfits, hlen⟩
    refine ⟨(hspans pBytesLen pBytesAt hpostings).imp_right fun hmet => hmet hspanSum, ?_⟩
    intro pBytes next hspan
    exact ⟨hlists pBytes next ⟨pBytesLen, pBytesAt, hpostings, hspanSum, hspan⟩,
      fun _ _ => failsOnly_ok _ _⟩

theorem failsOnly_readLength : FailsOnly (· = .returned noIndex) (readLength bytes pos) := by
  simp only [readLength, failsOnly_bind_iff, failsOnly_readNext, true_and]
  exact fun _ _ _ _ => failsOnly_ok _ _

theorem lengthTo_iff (pos next : Nat) : Chain (VarIntTo bytes) 2 pos next
    ↔ ∃ read, readLength bytes pos = .ok (read, next) := by
  simp only [readLength, bind_eq_ok_iff, Prod.exists, readNext_eq_ok_iff, chain_succ_iff, chain_zero_iff]
  constructor
  · rintro ⟨_, ⟨docId, hid⟩, _, ⟨len, hlen⟩, rfl⟩
    exact ⟨docId, len, docId, _, hid, len, _, hlen, rfl⟩
  · rintro ⟨docId, len, _, _, hid, _, _, hlen, ⟨⟩⟩
    exact ⟨_, ⟨docId, hid⟩, _, ⟨len, hlen⟩, rfl⟩

theorem failsOnly_deserialize_iff :
    FailsOnly (· = .returned noIndex) (deserialize memory bytes)
      ↔ ∀ pos, ComesTo memory bytes pos →
        FailsOnly (· = .returned noIndex) (readTerm memory bytes pos) := by
  rw [deserialize]
  by_cases hempty : bytes = []
  · rw [if_pos hempty]
    refine iff_of_true (failsOnly_ok _ _) ?_
    rintro pos ⟨numTerms, start, k, ⟨numDocs, lengthsAt, countAt, hdocs, -⟩, -⟩
    exact absurd hempty (ne_nil_of_varIntAt hdocs)
  · rw [if_neg hempty]
    simp only [failsOnly_bind_iff, Prod.forall, readVarInt_eq_ok_iff,
      failsOnly_readVarInt (Nat.zero_le _), true_and]
    constructor
    · rintro h pos ⟨numTerms, start, k, ⟨numDocs, lengthsAt, countAt, hdocs, hlengths, hterms⟩, hk,
        hchain⟩
      have hall := h numDocs lengthsAt hdocs
      obtain ⟨lengths, hloop⟩ := (chain_iff lengthTo_iff _ _ _).mp hlengths
      rw [hloop] at hall
      have hbehind := (failsOnly_bind_iff.mp hall).2 (numTerms, start) (readNext_eq_ok_iff.mpr hterms)
      refine (failsOnly_readMany_iff termTo_iff _ _).mp ?_ k hk pos hchain
      intro failure hfail
      simp only [hfail] at hbehind
      exact hbehind failure.2 rfl
    · intro h numDocs lengthsAt hdocs
      cases hloop : readMany (readLength bytes) numDocs.toNat lengthsAt with
      | error failure =>
          have hlengths : FailsOnly (fun failure => failure.2 = .returned noIndex)
              (readMany (readLength bytes) numDocs.toNat lengthsAt) :=
            (failsOnly_readMany_iff lengthTo_iff _ _).mpr fun _ _ _ _ => failsOnly_readLength
          exact failsOnly_error_iff.mpr (hlengths failure hloop)
      | ok found =>
          simp only [failsOnly_bind_iff, failsOnly_readNext, true_and, Prod.forall, readNext_eq_ok_iff]
          intro numTerms start hterms
          have htermsAt : TermsAt bytes numTerms start := ⟨numDocs, lengthsAt, found.2, hdocs,
            (chain_iff lengthTo_iff _ _ _).mpr ⟨found.1, hloop⟩, hterms⟩
          have hread : FailsOnly (fun failure => failure.2 = .returned noIndex)
              (readMany (readTerm memory bytes) numTerms.toNat start) :=
            (failsOnly_readMany_iff termTo_iff _ _).mpr fun k hk pos hchain =>
              h pos ⟨numTerms, start, k, htermsAt, hk, hchain⟩
          cases hloop : readMany (readTerm memory bytes) numTerms.toNat start with
          | error failure => exact failsOnly_error_iff.mpr (hread failure hloop)
          | ok found => exact failsOnly_ok _ _

theorem returnsValueOr_deserialize_iff :
    ReturnsValueOr noIndex (deserialize memory bytes)
      ↔ ∀ demand, Demands memory bytes demand → demand.Met bytes := by
  simp only [returnsValueOr_iff, failsOnly_deserialize_iff, failsOnly_readTerm_iff]
  constructor
  · rintro h demand hdemand
    cases hdemand with
    | term hcomes hterm => exact (h _ hcomes).1 _ _ hterm
    | postings hcomes hpostings => exact (h _ hcomes).2.1 _ _ hpostings
    | list hcomes hlist hdemand => exact (h _ hcomes).2.2 _ _ hlist _ hdemand
  · intro h pos hcomes
    exact ⟨fun termLen termAt hterm => h _ (.term hcomes hterm),
      fun pBytesLen pBytesAt hpostings => h _ (.postings hcomes hpostings),
      fun pBytes next hlist granted hdemand => h _ (.list hcomes hlist hdemand)⟩

end InvertedIndex

/-! ### The three decoders -/

/-- **What can go wrong.** The decoders of manifests, deltas and indexes return a value or
`std::nullopt`, with every range inside of the input, just where no range whose length they come to wraps
around the word and no `reserve` is refused. -/
theorem returnsValueOr_iff_demands (reserves : Nat → Bool) (memory : PostingMemory) (now : UInt64)
    (bytes : Bytes) :
    (ReturnsValueOr SnapshotManifest.noManifest (SnapshotManifest.deserialize reserves now bytes)
        ↔ ∀ demand, SnapshotManifest.Demands reserves bytes demand → demand.Met bytes)
      ∧ (ReturnsValueOr SnapshotDelta.noDelta (SnapshotDelta.deserializeReserving reserves bytes)
        ↔ ∀ demand, SnapshotDelta.Demands reserves bytes demand → demand.Met bytes)
      ∧ (ReturnsValueOr noIndex (InvertedIndex.deserialize memory bytes)
        ↔ ∀ demand, InvertedIndex.Demands memory bytes demand → demand.Met bytes) :=
  ⟨SnapshotManifest.returnsValueOr_deserialize_iff now, SnapshotDelta.returnsValueOr_deserialize_iff,
    InvertedIndex.returnsValueOr_deserialize_iff⟩

theorem not_returnsValueOr_of_outOfBounds {result : Except (Fault ErrorCode) α}
    (h : result = .error .outOfBounds) : ¬ ReturnsValueOr ec result := by
  rw [returnsValueOr_iff, h, failsOnly_error_iff]
  intro heq
  cases heq

/-- A label, a path, a term and posting bytes, each with a length just below `2^64`. -/
theorem not_returnsValueOr_wrapped :
    (¬ ReturnsValueOr SnapshotManifest.noManifest (SnapshotManifest.deserialize (fun _ => true) 0
        ([1, 0, 1] ++ VarInt.encode 0xFFFFFFFFFFFFFFFF)))
      ∧ (¬ ReturnsValueOr SnapshotDelta.noDelta (SnapshotDelta.deserializeReserving (fun _ => true)
        ([1, 2, 1] ++ VarInt.encode 0xFFFFFFFFFFFFFFFF)))
      ∧ (¬ ReturnsValueOr noIndex (InvertedIndex.deserialize ⟨fun _ => true, fun _ => true⟩
        ([0, 1] ++ VarInt.encode 0xFFFFFFFFFFFFFFFF)))
      ∧ ¬ ReturnsValueOr noIndex (InvertedIndex.deserialize ⟨fun _ => true, fun _ => true⟩
        ([0, 1, 0] ++ VarInt.encode 0xFFFFFFFFFFFFFFFE)) :=
  ⟨not_returnsValueOr_of_outOfBounds rfl, not_returnsValueOr_of_outOfBounds rfl,
    not_returnsValueOr_of_outOfBounds rfl, not_returnsValueOr_of_outOfBounds rfl⟩

end NebulaFS
