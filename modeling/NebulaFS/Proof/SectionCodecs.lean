import NebulaFS.ArchiveHeader
import NebulaFS.ChunkManager
import NebulaFS.IndexManager
import NebulaFS.Metadata
import NebulaFS.Proof.DirectoryTreeLemmas

/-!
# The sections of an archive are read back

Round trips of the directory tree, the index table and the header. A node of the tree comes back
without its times and permissions, which are not encoded (`stored`); its ids, and so everything
`idAt` says, come back as they were. Each decoder is given a buffer whose length is a `size_t`.
-/

namespace NebulaFS

open Cursor LittleEndian

variable {data rest : Bytes} {offset : Nat}

theorem readMany_readVarInt_of_remaining (ec : ErrorCode) {values : List UInt64}
    (h : Remaining data offset (values.flatMap VarInt.encode ++ rest)) :
    readMany (readVarInt ec data) values.length offset
      = .ok (values, offset + (values.flatMap VarInt.encode).length) := by
  have hvalue : ∀ value ∈ values, ∀ pos rest, Remaining data pos (VarInt.encode value ++ rest) →
      readVarInt ec data pos = .ok (id value, pos + (VarInt.encode value).length) :=
    fun value _ pos rest hrest => readVarInt_of_remaining ec hrest
  have hread := readMany_flatMap hvalue h
  rwa [List.map_id] at hread

/-! ### The directory tree -/

namespace DirectoryTree

mutual

/-- What the encoding keeps of a node. -/
def stored : DirectoryNode → DirectoryNode
  | ⟨name, id, parentId, children, files, _, _⟩ =>
      { name := name, id := id, parentId := parentId, children := storedAll children, files := files }

def storedAll : List DirectoryNode → List DirectoryNode
  | [] => []
  | node :: nodes => stored node :: storedAll nodes

end

theorem storedAll_eq_map (nodes : List DirectoryNode) : storedAll nodes = nodes.map stored := by
  induction nodes with
  | nil => rfl
  | cons node nodes ih => rw [storedAll, ih, List.map_cons]

theorem serializeNodes_eq_flatMap (nodes : List DirectoryNode) :
    serializeNodes nodes = nodes.flatMap serializeNode := by
  induction nodes with
  | nil => rfl
  | cons node nodes ih => rw [serializeNodes, ih, List.flatMap_cons]

@[simp]
theorem stored_id (node : DirectoryNode) : (stored node).id = node.id := by
  cases node
  rfl

@[simp]
theorem stored_name (node : DirectoryNode) : (stored node).name = node.name := by
  cases node
  rfl

theorem stored_children (node : DirectoryNode) :
    (stored node).children = node.children.map stored := by
  cases node
  exact storedAll_eq_map _

theorem findParts_stored (parts : List Bytes) (node : DirectoryNode) :
    findParts parts (stored node) = (findParts parts node).map stored := by
  induction parts generalizing node with
  | nil => rfl
  | cons part parts ih =>
      have hchild : findChild (stored node) part = (findChild node part).map stored := by
        rw [findChild, findChild, stored_children, List.find?_map]
        congr 1
        congr 1
        funext child
        simp
      rw [findParts, findParts, hchild]
      cases findChild node part with
      | none => rfl
      | some child => exact ih child

structure Blank (node : DirectoryNode) : Prop where
  files : node.files = []
  children : node.children = []
  modifiedAt : node.modifiedAt = {}
  permissions : node.permissions = {}

theorem blank_default : Blank {} := ⟨rfl, rfl, rfl, rfl⟩

theorem length_serializeNode_pos (node : DirectoryNode) : 0 < (serializeNode node).length := by
  cases node with
  | mk name id parentId children files modifiedAt permissions =>
      have := VarInt.length_encode_pos (UInt64.ofNat name.length)
      rw [serializeNode, List.length_append]
      omega

/-- One level of the tree: a node is read back if its children are. -/
theorem deserializeNode_succ_of_remaining {fuel : Nat} {node start : DirectoryNode} {offset : Nat}
    {rest : Bytes} (hblank : Blank start) (hdata : data.length < 2 ^ 64)
    (hchild : ∀ child ∈ node.children, ∀ pos rest,
      Remaining data pos (serializeNode child ++ rest) →
      deserializeNode data fuel {} pos = .ok (stored child, pos + (serializeNode child).length))
    (h : Remaining data offset (serializeNode node ++ rest)) :
    deserializeNode data (fuel + 1) start offset
      = .ok (stored node, offset + (serializeNode node).length) := by
  cases node with
  | mk name id parentId children files modifiedAt permissions =>
      have hlength := h.length_eq
      simp only [serializeNode, serializeNodes_eq_flatMap, List.length_append,
        List.append_assoc] at h hlength
      have hfiles : ∀ file ∈ files, 1 ≤ (VarInt.encode file).length :=
        fun file _ => VarInt.length_encode_pos file
      have hnodes : ∀ child ∈ children, 1 ≤ (serializeNode child).length :=
        fun child _ => length_serializeNode_pos child
      have hfileCount := length_mul_le_length_flatMap hfiles
      have hchildCount := length_mul_le_length_flatMap hnodes
      have hname : (UInt64.ofNat name.length).toNat = name.length :=
        toNat_ofNat_of_lt (by omega)
      have hfileSize : (UInt64.ofNat files.length).toNat = files.length :=
        toNat_ofNat_of_lt (by omega)
      have hchildSize : (UInt64.ofNat children.length).toNat = children.length :=
        toNat_ofNat_of_lt (by omega)
      -- what is ahead after each field
      have h1 := h.advance
      have h2 := h1.advance
      have h3 := h2.advance
      have h4 := h3.advance
      have h5 := h4.advance
      have h6 := h5.advance
      have h7 := h6.advance
      have hfilesRead := readMany_readVarInt_of_remaining .corruptDirectory h5
      have hchildrenRead := readMany_flatMap hchild h7
      rw [deserializeNode, readVarInt_of_remaining _ h]
      simp only [leaving, bind, Except.bind]
      rw [hname, require_sum_of_remaining _ hdata h1]
      simp only
      rw [readRange_of_remaining h1]
      simp only
      rw [readVarInt_of_remaining _ h2]
      simp only
      rw [readVarInt_of_remaining _ h3]
      simp only
      rw [readVarInt_of_remaining _ h4]
      simp only
      rw [hfileSize, hfilesRead]
      simp only
      rw [readVarInt_of_remaining _ h6]
      simp only
      rw [hchildSize, hchildrenRead]
      simp only [hblank.files, hblank.children, hblank.modifiedAt, hblank.permissions,
        List.nil_append, serializeNode, serializeNodes_eq_flatMap, List.length_append, stored,
        storedAll_eq_map]
      congr 2
      omega

theorem length_serializeNode_lt_of_child {node child : DirectoryNode}
    (h : child ∈ node.children) : (serializeNode child).length < (serializeNode node).length := by
  cases node with
  | mk name id parentId children files modifiedAt permissions =>
      have hname := VarInt.length_encode_pos (UInt64.ofNat name.length)
      have hchild : (serializeNode child).length ≤ (children.flatMap serializeNode).length :=
        length_encode_le_length_flatMap h
      simp only [serializeNode, serializeNodes_eq_flatMap, List.length_append]
      omega

theorem deserializeNode_of_remaining {fuel : Nat} {node start : DirectoryNode} {offset : Nat}
    {rest : Bytes} (hblank : Blank start) (hdata : data.length < 2 ^ 64)
    (hfuel : (serializeNode node).length ≤ fuel)
    (h : Remaining data offset (serializeNode node ++ rest)) :
    deserializeNode data fuel start offset
      = .ok (stored node, offset + (serializeNode node).length) := by
  induction fuel generalizing node start offset rest with
  | zero =>
      have hpos := length_serializeNode_pos node
      omega
  | succ fuel ih =>
      refine deserializeNode_succ_of_remaining hblank hdata ?_ h
      intro child hmem pos rest hrest
      have hshorter := length_serializeNode_lt_of_child hmem
      exact ih blank_default (by omega) hrest

theorem deserialize_serialize (tree : DirectoryTree) (hfits : tree.serialize.length < 2 ^ 64) :
    deserialize tree.serialize
      = ({ root := stored tree.root, nodeCount := tree.nodeCount }, none) := by
  have hstart := remaining_start tree.serialize
  nth_rewrite 2 [serialize] at hstart
  have hroot := hstart.advance
  rw [← List.append_nil (serializeNode tree.root)] at hroot
  have hfuel : (serializeNode tree.root).length ≤ tree.serialize.length + 1 := by
    rw [serialize, List.length_append]
    omega
  have hblank : Blank clear.root := ⟨rfl, rfl, rfl, rfl⟩
  rw [deserialize, readVarInt_of_remaining _ hstart]
  simp only
  rw [deserializeNode_of_remaining hblank hfits hfuel hroot]

end DirectoryTree

/-! ### The index table -/

namespace IndexManager

theorem readEntry_of_remaining {entry : IndexEntry}
    (h : Remaining data offset (serializeEntry entry ++ rest)) :
    readEntry data offset = .ok (entry, offset + (serializeEntry entry).length) := by
  have hlength := h.length_eq
  simp only [serializeEntry, List.length_append, List.append_assoc,
    List.Vector.toList_length] at h hlength
  have h1 := h.advance
  have h2 := h1.advance
  have h3 := h2.advance
  rw [readEntry, readVarInt_of_remaining _ h]
  simp only [bind, Except.bind]
  rw [readVarInt_of_remaining _ h1]
  simp only
  rw [readVarInt_of_remaining _ h2]
  simp only
  rw [require, if_pos (by simp; omega), readArr_of_remaining h3]
  simp only [pure, Except.pure, serializeEntry, List.length_append, List.Vector.toList_length]
  congr 2
  omega

theorem minBytesPerEntry_le (entry : IndexEntry) :
    minBytesPerEntry ≤ (serializeEntry entry).length := by
  have hid := VarInt.length_encode_pos entry.entryId
  have hoffset := VarInt.length_encode_pos entry.offset
  have hsize := VarInt.length_encode_pos entry.size
  simp only [serializeEntry, minBytesPerEntry, List.length_append, List.Vector.toList_length]
  omega

theorem entryBytes_le (manager : IndexManager) :
    manager.entries.length * minBytesPerEntry ≤ (manager.entries.flatMap serializeEntry).length :=
  length_mul_le_length_flatMap fun entry _ => minBytesPerEntry_le entry

theorem deserialize_serialize (manager : IndexManager)
    (hfits : manager.serialize.length < 2 ^ 64) :
    deserialize manager.serialize
      = ({ entries := manager.entries, idIndex := indexById manager.entries }, none) := by
  have hstart := remaining_start manager.serialize
  nth_rewrite 2 [serialize] at hstart
  have hentries := hstart.advance
  rw [← List.append_nil (List.flatMap serializeEntry _)] at hentries
  have hleast := entryBytes_le manager
  have hlength : manager.serialize.length
      = (VarInt.encode (UInt64.ofNat manager.entries.length)).length
        + (manager.entries.flatMap serializeEntry).length := by
    rw [serialize, List.length_append]
  rw [minBytesPerEntry] at hleast
  have hcount : (UInt64.ofNat manager.entries.length).toNat = manager.entries.length :=
    toNat_ofNat_of_lt (by omega)
  have hread : ∀ entry ∈ manager.entries, ∀ pos rest,
      Remaining manager.serialize pos (serializeEntry entry ++ rest) →
      readEntry manager.serialize pos = .ok (id entry, pos + (serializeEntry entry).length) :=
    fun entry _ pos rest h => readEntry_of_remaining h
  have hloop := readMany_flatMap hread hentries
  rw [List.map_id] at hloop
  rw [deserialize, readVarInt_of_remaining _ hstart]
  simp only
  rw [hcount, if_neg, hloop]
  · simp only [collected]
  · rw [Nat.not_lt, minBytesPerEntry, Nat.le_div_iff_mul_le (by decide), hlength]
    omega

end IndexManager

/-! ### The header -/

namespace ArchiveHeader

theorem length_serialize (header : ArchiveHeader) : header.serialize.length = headerSize := by
  simp [serialize, headerSize]

theorem ofBytes_serialize (header : ArchiveHeader) (body : Bytes)
    (h : headerSize ≤ (header.serialize ++ body).length) :
    ofBytes (header.serialize ++ body) h = header := by
  simp (disch := simp) only [ofBytes, field, serialize, List.append_assoc, slice_append_right,
    slice_append_left, slice_all, length_leBytes, List.Vector.toList_length, Nat.reduceSub, Nat.sub_self,
    ofNat_leValue_leBytes_eight, ofNat_leValue_leBytes_four, ofNat_leValue_leBytes_two]
  rfl

theorem verifyChecksum_updateChecksum (platform : Platform) (header : ArchiveHeader) :
    (header.updateChecksum platform).verifyChecksum platform = true := by
  have hsame : (header.updateChecksum platform).computedChecksum platform
      = (header.updateChecksum platform).headerChecksum := rfl
  rw [verifyChecksum, hsame]
  simp

/-- A header that was written is accepted, whatever follows it. -/
theorem parse_serialize (platform : Platform) {header : ArchiveHeader} (hvalid : header.isValid)
    (body : Bytes) :
    parse platform {} ((header.updateChecksum platform).serialize ++ body)
      = (header.updateChecksum platform, none) := by
  have hlong : ¬ ((header.updateChecksum platform).serialize ++ body).length < headerSize := by
    rw [List.length_append, length_serialize]
    omega
  have hvalid' : (header.updateChecksum platform).isValid = true := hvalid
  have hversion : (header.updateChecksum platform).isVersionSupported = true := by
    rw [isValid, Bool.and_eq_true] at hvalid'
    exact hvalid'.2
  rw [parse, dif_neg hlong]
  simp only
  rw [ofBytes_serialize, hvalid', hversion, verifyChecksum_updateChecksum]
  rfl

end ArchiveHeader

/-! ### The metadata section is refused, never overrun -/

namespace MetadataParser

theorem parseEntry_cases (data : Bytes) {offset : Nat} (hoffset : offset ≤ data.length) :
    (∃ entry next, parseEntry data offset = .ok (entry, next) ∧ offset < next ∧ next ≤ data.length)
      ∨ ∃ e, parseEntry data offset = .error (.returned e) := by
  have hcorrupt : ∀ (at_ : Nat) (message : String),
      ∃ e, (corrupt at_ message : Result ((Bytes × Bytes) × Nat)) = .error (.returned e) :=
    fun at_ message => ⟨_, rfl⟩
  rw [parseEntry, if_neg (by omega)]
  simp only
  split
  · exact .inr (hcorrupt _ _)
  · rename_i hkey
    split
    · exact .inr (hcorrupt _ _)
    · split
      · exact .inr (hcorrupt _ _)
      · split
        · exact .inr (hcorrupt _ _)
        · split
          · exact .inr (hcorrupt _ _)
          · split
            · exact .inr (hcorrupt _ _)
            · split
              · exact .inr (hcorrupt _ _)
              · refine .inl ⟨_, _, rfl, ?_, ?_⟩
                · omega
                · omega

theorem parseLoop_cases {data : Bytes} {metadataSize fuel offset : Nat}
    (hoffset : offset ≤ data.length) (hfuel : metadataSize ≤ offset + fuel)
    (store : MetadataStore) :
    (∃ result, parseLoop data metadataSize fuel offset store = .ok result)
      ∨ ∃ e, parseLoop data metadataSize fuel offset store = .error (.returned e) := by
  induction fuel generalizing offset store with
  | zero =>
      rw [parseLoop, if_pos (by omega)]
      exact .inl ⟨store, rfl⟩
  | succ fuel ih =>
      rw [parseLoop]
      split
      · exact .inl ⟨store, rfl⟩
      · rcases parseEntry_cases data hoffset with ⟨entry, next, heq, hnext, hinside⟩ | ⟨e, heq⟩
        · rw [heq]
          exact ih hinside (by omega) _
        · rw [heq]
          simp only
          split
          · exact .inr ⟨e, rfl⟩
          · exact .inl ⟨store, rfl⟩

theorem parse_cases (data : Bytes) (metadataSize : Nat) :
    (∃ result, parse data metadataSize = .ok result)
      ∨ ∃ e, parse data metadataSize = .error (.returned e) := by
  rw [parse]
  split
  · exact .inr ⟨_, rfl⟩
  · exact parseLoop_cases (Nat.zero_le _) (by omega) {}

end MetadataParser

end NebulaFS
