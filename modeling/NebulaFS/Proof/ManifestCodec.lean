import NebulaFS.Proof.DeltaCodec

/-!
# Manifests that travel

A decoded manifest has the names of the encoded one and a node at the same paths. Every check of the
decoder asks for one more byte than was read, and behind each field but the last one stands another. A
label at the very end would be enough for an empty manifest, but the number of its nodes follows it.
-/

namespace NebulaFS

open Cursor

namespace SnapshotManifest

open SnapshotDelta PatchApplier

variable {bytes rest : Bytes} {offset : Nat} {manifest restored : SnapshotManifest}
  {reserves : Nat → Bool}

theorem readNode_of_remaining {path : Bytes} {node : SnapshotNode} (hbytes : bytes.length < 2 ^ 64)
    (hreserves : reserves node.blockIds.length = true)
    (h : Remaining bytes offset (serializeNode path node ++ rest)) :
    readNode reserves bytes offset
      = .ok ({ node with path := path }, offset + (serializeNode path node).length) := by
  have hlength := h.length_eq
  have hblocks := length_blockIds_le node
  rw [List.length_append, serializeNode, List.length_append, List.length_append] at hlength
  have hpath : (UInt64.ofNat path.length).toNat = path.length := toNat_ofNat_of_lt (by omega)
  have hcount : (UInt64.ofNat node.blockIds.length).toNat = node.blockIds.length :=
    toNat_ofNat_of_lt (by omega)
  simp only [serializeNode, SnapshotDelta.serializeNode, List.append_assoc] at h
  have h1 := h.advance
  have h2 := h1.advance
  have h3 := h2.advance
  have h4 := h3.advance
  have h5 := h4.advance
  have h6 := h5.advance
  have h7 := h6.advance
  have hread : ∀ bId ∈ node.blockIds, ∀ pos rest,
      Remaining bytes pos (VarInt.encode bId ++ rest) →
      readNext noManifest bytes pos = .ok ((fun bId => bId) bId, pos + (VarInt.encode bId).length) :=
    fun bId _ pos rest h => readNext_of_remaining noManifest h
  have hloop := readMany_flatMap hread h7
  rw [List.map_id'] at hloop
  rw [readNode, readNext_of_remaining _ h]
  simp only [bind, Except.bind]
  rw [hpath, require_sum_of_remaining _ hbytes h1]
  simp only
  rw [readRange_of_remaining h1]
  simp only
  rw [readNext_of_remaining _ h2]
  simp only
  rw [readNext_of_remaining _ h3]
  simp only
  rw [readNext_of_remaining _ h4]
  simp only
  rw [readNext_of_remaining _ h5]
  simp only
  rw [readNext_of_remaining _ h6]
  simp only
  rw [hcount, require_of_true hreserves]
  simp only
  rw [hloop]
  simp only [pure, Except.pure, serializeNode, SnapshotDelta.serializeNode, List.length_append,
    UInt32.toUInt32_toUInt64]
  congr 2
  omega

/-- The nodes of the map, as the decoder reads them, are the nodes of the map. -/
theorem map_entries_path (manifest : SnapshotManifest) :
    (manifest.nodes.entries.map fun entry => { entry.2 with path := entry.1 })
      = manifest.nodes.entries.map fun entry => entry.2 := by
  apply List.map_congr_left
  intro entry hmem
  rw [← path_of_mem hmem]

theorem length_entries_le (manifest : SnapshotManifest) :
    manifest.nodes.entries.length
      ≤ (manifest.nodes.entries.flatMap fun entry => serializeNode entry.1 entry.2).length := by
  have hleast : manifest.nodes.entries.length * 1
      ≤ (manifest.nodes.entries.flatMap fun entry => serializeNode entry.1 entry.2).length := by
    apply length_mul_le_length_flatMap
    intro entry _
    have hpos := VarInt.length_encode_pos (UInt64.ofNat entry.1.length)
    rw [serializeNode, List.length_append]
    omega
  omega

/-- What the decoder makes of an encoded manifest. -/
def rebuilt (manifest : SnapshotManifest) (now : UInt64) : SnapshotManifest :=
  manifest.nodes.entries.foldl (fun target entry => target.addNode entry.2)
    (new manifest.id manifest.parentId manifest.label manifest.timestamp now)

theorem deserialize_serialize (hfits : manifest.serialize.length < 2 ^ 64)
    (hreserves : ∀ path node, manifest.nodes.lookup path = some node →
      reserves node.blockIds.length = true) (now : UInt64) :
    deserialize reserves now manifest.serialize = .ok (manifest.rebuilt now) := by
  have h := remaining_start manifest.serialize
  nth_rewrite 2 [serialize] at h
  have h1 := h.advance
  have h2 := h1.advance
  have h3 := h2.advance
  have h4 := h3.advance
  have h5 := h4.advance
  have h6 := h5.advance
  rw [← List.append_nil (List.flatMap _ _)] at h6
  have hentries := length_entries_le manifest
  have hlength := h4.length_eq
  have hnodes := h6.length_eq
  rw [List.length_append] at hlength hnodes
  have hlabel : (UInt64.ofNat manifest.label.length).toNat = manifest.label.length :=
    toNat_ofNat_of_lt (by omega)
  have hcount : (UInt64.ofNat manifest.nodes.entries.length).toNat = manifest.nodes.entries.length :=
    toNat_ofNat_of_lt (by omega)
  have hread : ∀ entry ∈ manifest.nodes.entries, ∀ pos rest,
      Remaining manifest.serialize pos (serializeNode entry.1 entry.2 ++ rest) →
      readNode reserves manifest.serialize pos
        = .ok ({ entry.2 with path := entry.1 }, pos + (serializeNode entry.1 entry.2).length) :=
    fun entry hmem pos rest h =>
      readNode_of_remaining hfits (hreserves entry.1 entry.2 (mem_nodes_iff.mp hmem)) h
  have hloop := readMany_flatMap hread h6
  rw [map_entries_path] at hloop
  have hne : decide (manifest.serialize ≠ []) = true := by
    simp [serialize, VarInt.encode_ne_nil]
  -- the number of nodes is behind the label, also when it is zero
  have hmore := of_decide_eq_true (Remaining.lt_length h5 (by simp [VarInt.encode_ne_nil]))
  rw [deserialize, require_of_true hne]
  simp only [bind, Except.bind]
  rw [readVarInt_of_remaining _ h]
  simp only
  rw [readNext_of_remaining _ h1]
  simp only
  rw [readNext_of_remaining _ h2]
  simp only
  rw [readNext_of_remaining _ h3]
  simp only
  rw [hlabel, require_sum_of_remaining _ hfits h4]
  simp only
  rw [readRange_of_remaining h4]
  simp only
  rw [if_neg (Nat.not_le.mpr hmore), readVarInt_of_remaining _ h5]
  simp only
  rw [hcount, hloop]
  simp only [pure, Except.pure, List.foldl_map]
  rfl

/-- **A manifest that was encoded and decoded is the same manifest**, for every timestamp but zero, which
the constructor takes for none. -/
theorem restored_of_serialize (manifest : SnapshotManifest) (htimestamp : manifest.timestamp ≠ 0)
    (hfits : manifest.serialize.length < 2 ^ 64) (reserves : Nat → Bool)
    (hreserves : ∀ path node, manifest.findNode path = some node →
      reserves node.blockIds.length = true) (now : UInt64) :
    ∃ restored, deserialize reserves now manifest.serialize = .ok restored
      ∧ restored.id = manifest.id ∧ restored.parentId = manifest.parentId
      ∧ restored.timestamp = manifest.timestamp ∧ restored.label = manifest.label
      ∧ ∀ path, restored.findNode path = manifest.findNode path := by
  have hnew : SameNames manifest.id manifest.parentId manifest.label
        (new manifest.id manifest.parentId manifest.label manifest.timestamp now)
      ∧ (new manifest.id manifest.parentId manifest.label manifest.timestamp now).timestamp
        = manifest.timestamp := ⟨⟨rfl, rfl, rfl⟩, if_neg htimestamp⟩
  have hkept : SameNames manifest.id manifest.parentId manifest.label (manifest.rebuilt now)
      ∧ (manifest.rebuilt now).timestamp = manifest.timestamp := by
    refine Runs.foldl_of_invariant (P := fun target =>
      SameNames manifest.id manifest.parentId manifest.label target
        ∧ target.timestamp = manifest.timestamp) ?_ hnew _
    intro target entry h
    exact ⟨h.1.addNode entry.2, h.2⟩
  obtain ⟨⟨hid, hparent, hlabel⟩, hstamp⟩ := hkept
  exact ⟨manifest.rebuilt now, deserialize_serialize hfits hreserves now, hid, hparent, hstamp, hlabel,
    findNode_addNodes manifest _ rfl⟩

/-- Two nodes under a label: one at an empty path, the other one with two blocks. -/
theorem restored_of_serialize_two :
    let twoBlocks : SnapshotNode := { path := [97], entryId := 8, blockIds := [3, 4] }
    let manifest := ((new 1 0 [118, 49] 5 0).addNode twoBlocks).addNode { entryId := 7 }
    ∃ restored, deserialize (fun n => n ≤ 2) 9 manifest.serialize = .ok restored
      ∧ restored.timestamp = 5 ∧ restored.label = [118, 49]
      ∧ restored.findNode [97] = some twoBlocks ∧ restored.findNode [] = some { entryId := 7 } := by
  intro twoBlocks manifest
  have hall : ∀ entry ∈ manifest.nodes.entries, decide (entry.2.blockIds.length ≤ 2) = true := by
    decide
  have hreserves : ∀ path node, manifest.findNode path = some node →
      decide (node.blockIds.length ≤ 2) = true := by
    intro path node hfind
    exact hall ⟨path, node⟩ (AList.mem_lookup_iff.mp hfind)
  obtain ⟨restored, hrestored, -, -, hstamp, hlabel, hnodes⟩ := restored_of_serialize manifest
    (by decide) (by decide) (fun n => n ≤ 2) hreserves 9
  exact ⟨restored, hrestored, hstamp, hlabel, hnodes [97], hnodes []⟩

end SnapshotManifest

end NebulaFS
