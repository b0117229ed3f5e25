import NebulaFS.Proof.SnapshotDeltas

/-!
# Deltas that travel

What `deserialize` makes of an encoded delta lacks the old nodes and the lists of new blocks
(`stripped`), and its new nodes have the paths of their entries. A patch reads nothing else.
-/

namespace NebulaFS

open Cursor

namespace SnapshotDelta

variable {bytes rest : Bytes} {offset : Nat}

/-! ### Reading back -/

theorem length_blockIds_le (node : SnapshotNode) :
    node.blockIds.length ≤ (serializeNode node).length := by
  have hleast : node.blockIds.length * 1 ≤ (node.blockIds.flatMap VarInt.encode).length :=
    length_mul_le_length_flatMap fun bId _ => VarInt.length_encode_pos bId
  simp only [serializeNode, List.length_append]
  omega

theorem readNode_of_remaining {node : SnapshotNode} (hbytes : bytes.length < 2 ^ 64)
    (h : Remaining bytes offset (serializeNode node ++ rest)) (path : Bytes) :
    readNode path bytes offset
      = .ok ({ node with path := path }, offset + (serializeNode node).length) := by
  have hlength := h.length_eq
  rw [List.length_append] at hlength
  have hblocks := length_blockIds_le node
  have hcount : (UInt64.ofNat node.blockIds.length).toNat = node.blockIds.length :=
    toNat_ofNat_of_lt (by omega)
  simp only [serializeNode, List.append_assoc] at h
  have h1 := h.advance
  have h2 := h1.advance
  have h3 := h2.advance
  have h4 := h3.advance
  have h5 := h4.advance
  have hread : ∀ bId ∈ node.blockIds, ∀ pos rest,
      Remaining bytes pos (VarInt.encode bId ++ rest) →
      readVarInt noDelta bytes pos = .ok (id bId, pos + (VarInt.encode bId).length) :=
    fun bId _ pos rest h => readVarInt_of_remaining noDelta h
  have hloop := readMany_flatMap hread h5
  rw [List.map_id] at hloop
  rw [readNode, readVarInt_of_remaining _ h]
  simp only [bind, Except.bind]
  rw [readVarInt_of_remaining _ h1]
  simp only
  rw [readVarInt_of_remaining _ h2]
  simp only
  rw [readVarInt_of_remaining _ h3]
  simp only
  rw [readVarInt_of_remaining _ h4]
  simp only
  rw [hcount, hloop]
  simp only [pure, Except.pure, serializeNode, List.length_append, UInt32.toUInt32_toUInt64]
  congr 2
  omega

/-- What travels of an entry. -/
def stripEntry (entry : DeltaEntry) : DeltaEntry :=
  { path := entry.path
    action := entry.action
    newNode := entry.newNode.map fun node => { node with path := entry.path } }

def stripped (delta : SnapshotDelta) : SnapshotDelta :=
  { delta with entries := delta.entries.map stripEntry }

/-- The last part of an entry. -/
def serializeNewNode (newNode : Option SnapshotNode) : Bytes :=
  match newNode with
  | some node => 1 :: serializeNode node
  | none => [0]

theorem serializeEntry_eq (entry : DeltaEntry) :
    serializeEntry entry = VarInt.encode (UInt64.ofNat entry.path.length) ++ (entry.path
      ++ (entry.action.toByte :: serializeNewNode entry.newNode)) := rfl

theorem Remaining.lt_length {data : Bytes} {pos : Nat} {rest : Bytes} (h : Remaining data pos rest)
    (hne : rest ≠ []) : decide (pos < data.length) = true := by
  have hlength := h.length_eq
  have hpos := List.length_pos_of_ne_nil hne
  apply decide_eq_true
  omega

theorem readEntry_of_remaining {entry : DeltaEntry} (hbytes : bytes.length < 2 ^ 64)
    (h : Remaining bytes offset (serializeEntry entry ++ rest)) :
    readEntry bytes offset = .ok (stripEntry entry, offset + (serializeEntry entry).length) := by
  have hlength := h.length_eq
  rw [List.length_append] at hlength
  rw [serializeEntry_eq] at h hlength ⊢
  simp only [List.length_append, List.length_cons] at hlength ⊢
  simp only [List.append_assoc, List.cons_append] at h
  have hcount : (UInt64.ofNat entry.path.length).toNat = entry.path.length :=
    toNat_ofNat_of_lt (by omega)
  have h1 := h.advance
  have h2 := h1.advance
  have h3 := h2.advance_one
  have hnew : serializeNewNode entry.newNode ++ rest ≠ [] := by
    unfold serializeNewNode
    split
    · simp
    · simp
  rw [readEntry, require_of_true (Remaining.lt_length h (by simp [VarInt.encode_ne_nil]))]
  simp only [bind, Except.bind]
  rw [readVarInt_of_remaining _ h]
  simp only
  rw [hcount, require_sum_of_remaining _ hbytes h1]
  simp only
  rw [readRange_of_remaining h1]
  simp only
  rw [require_of_true (Remaining.lt_length h2 (by simp))]
  simp only
  rw [readByte_of_remaining h2]
  simp only
  rw [require_of_true (Remaining.lt_length h3 hnew)]
  simp only
  cases hnode : entry.newNode with
  | none =>
      rw [hnode, serializeNewNode, List.singleton_append] at h3
      rw [readByte_of_remaining h3]
      simp only [ne_eq, not_true_eq_false, if_false, pure, Except.pure, serializeNewNode,
        List.length_singleton, stripEntry, hnode, Option.map_none, DeltaAction.ofByte_toByte]
      congr 2
      omega
  | some node =>
      rw [hnode, serializeNewNode, List.cons_append] at h3
      rw [readByte_of_remaining h3]
      simp only
      rw [if_pos (by decide), readNode_of_remaining hbytes h3.advance_one entry.path]
      simp only [pure, Except.pure, serializeNewNode, List.length_cons, stripEntry, hnode,
        Option.map_some, DeltaAction.ofByte_toByte]
      congr 2
      omega

theorem length_entries_le (delta : SnapshotDelta) :
    delta.entries.length ≤ (delta.entries.flatMap serializeEntry).length := by
  have hleast : delta.entries.length * 1 ≤ (delta.entries.flatMap serializeEntry).length := by
    apply length_mul_le_length_flatMap
    intro entry _
    rw [serializeEntry_eq, List.length_append, List.length_append, List.length_cons]
    omega
  omega

theorem deserialize_serialize (delta : SnapshotDelta) (hfits : delta.serialize.length < 2 ^ 64) :
    deserialize delta.serialize = .ok delta.stripped := by
  have h := remaining_start delta.serialize
  nth_rewrite 2 [serialize] at h
  have h1 := h.advance
  have h2 := h1.advance
  have h3 := h2.advance
  rw [← List.append_nil (List.flatMap serializeEntry _)] at h3
  have hentries := length_entries_le delta
  have hlength : (delta.entries.flatMap serializeEntry).length ≤ delta.serialize.length := by
    simp only [serialize, List.length_append]
    omega
  have hcount : (UInt64.ofNat delta.entries.length).toNat = delta.entries.length :=
    toNat_ofNat_of_lt (by omega)
  have hread : ∀ entry ∈ delta.entries, ∀ pos rest,
      Remaining delta.serialize pos (serializeEntry entry ++ rest) →
      readEntry delta.serialize pos = .ok (stripEntry entry, pos + (serializeEntry entry).length) :=
    fun entry _ pos rest h => readEntry_of_remaining hfits h
  have hloop := readMany_flatMap hread h3
  have hne : decide (delta.serialize ≠ []) = true := by
    simp [serialize, VarInt.encode_ne_nil]
  have hdelta : readDelta delta.serialize = .ok delta.stripped := by
    rw [readDelta, require_of_true hne]
    simp only [bind, Except.bind]
    rw [readVarInt_of_remaining _ h]
    simp only
    rw [require_of_true (Remaining.lt_length h1 (by simp [VarInt.encode_ne_nil]))]
    simp only
    rw [readVarInt_of_remaining _ h1]
    simp only
    rw [require_of_true (Remaining.lt_length h2 (by simp [VarInt.encode_ne_nil]))]
    simp only
    rw [readVarInt_of_remaining _ h2]
    simp only
    rw [hcount, hloop]
    rfl
  rw [deserialize, hdelta]

/-! ### Patching with what was read back -/

open PatchApplier DeltaEngine

theorem Keyed.stripped {delta : SnapshotDelta} (h : Keyed delta.entries) :
    Keyed delta.stripped.entries where
  nodup := by
    rw [SnapshotDelta.stripped, List.map_map]
    exact h.nodup
  path_eq := by
    intro entry hmem node hnode
    obtain ⟨before, -, rfl⟩ := List.mem_map.mp hmem
    obtain ⟨old, -, rfl⟩ := Option.map_eq_some_iff.mp hnode
    rfl

theorem outcome_stripEntry {entry : DeltaEntry}
    (h : ∀ node, entry.newNode = some node → node.path = entry.path) (old : Option SnapshotNode) :
    outcome (stripEntry entry) old = outcome entry old := by
  have hnode : (stripEntry entry).newNode = entry.newNode := by
    cases hnew : entry.newNode with
    | none => simp [stripEntry, hnew]
    | some node =>
        rw [stripEntry, hnew, Option.map_some, ← h node hnew]
  rw [outcome, outcome, hnode]
  rfl

/-- **A delta that was encoded and decoded patches like the delta itself.** -/
theorem applyPatch_of_restored (base target : SnapshotManifest)
    (hfits : (computeDelta base target).serialize.length < 2 ^ 64) (label : Bytes)
    (now later : UInt64) :
    ∃ restored patched other, deserialize (computeDelta base target).serialize = .ok restored
      ∧ applyPatch base (computeDelta base target) label now = some patched
      ∧ applyPatch base restored label later = some other
      ∧ other.id = patched.id ∧ other.parentId = patched.parentId ∧ other.label = patched.label
      ∧ ∀ path, other.findNode path = patched.findNode path := by
  have hkeyed := keyed_computeDelta base target
  have hbase : (computeDelta base target).baseSnapshotId = base.id := rfl
  obtain ⟨patched, hpatch, hpatched⟩ := patched_applyPatch hbase hkeyed label now
  obtain ⟨other, hother, hrestored⟩ := patched_applyPatch
    (show (computeDelta base target).stripped.baseSnapshotId = base.id from hbase)
    (Keyed.stripped hkeyed) label later
  obtain ⟨hid, hparent, hlabel⟩ := hpatched.names
  obtain ⟨hid', hparent', hlabel'⟩ := hrestored.names
  refine ⟨_, patched, other, deserialize_serialize _ hfits, hpatch, hother, hid'.trans hid.symm,
    hparent'.trans hparent.symm, hlabel'.trans hlabel.symm, ?_⟩
  intro path
  by_cases hmem : path ∈ (computeDelta base target).entries.map DeltaEntry.path
  · obtain ⟨entry, hentry, rfl⟩ := List.mem_map.mp hmem
    have hstripped : stripEntry entry ∈ (computeDelta base target).stripped.entries :=
      List.mem_map_of_mem hentry
    rw [hpatched.touched entry hentry, ← outcome_stripEntry (hkeyed.path_eq entry hentry)]
    exact hrestored.touched _ hstripped
  · have hpaths : (computeDelta base target).stripped.entries.map DeltaEntry.path
        = (computeDelta base target).entries.map DeltaEntry.path := by
      rw [stripped, List.map_map]
      rfl
    rw [hpatched.untouched path hmem, hrestored.untouched path (hpaths ▸ hmem)]

/-- One file comes and one goes. -/
theorem applyPatch_of_restored_two :
    let base := (SnapshotManifest.new 1 0 [] 1 1).addNode { path := [97], size := 5 }
    let target := (SnapshotManifest.new 2 1 [] 1 1).addNode { path := [98], blockIds := [300] }
    ∃ restored other, deserialize (computeDelta base target).serialize = .ok restored
      ∧ applyPatch base restored [] 9 = some other ∧ other.id = 2 ∧ other.findNode [97] = none
      ∧ other.findNode [98] = some { path := [98], blockIds := [300] } := by
  intro base target
  obtain ⟨restored, patched, other, hrestored, hpatch, hother, hid, -, -, hnodes⟩ :=
    applyPatch_of_restored base target (by decide) [] 8 9
  cases hpatch
  exact ⟨restored, other, hrestored, hother, hid, hnodes [97], hnodes [98]⟩

end SnapshotDelta

end NebulaFS
