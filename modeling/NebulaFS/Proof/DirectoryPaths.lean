import NebulaFS.Proof.SectionCodecs

/-!
# What a path of the directory tree leads to

A path is read as its list of components and in no other way (`find_eq_findParts`), and
`normalizePath` writes that list back as a path. Along the components an insertion keeps every node
that was there: it may get files and children, and nothing else of it changes
(`findParts_insertParts_of_present`). The last part says what the encoding restores, node by node.
-/

namespace NebulaFS

namespace DirectoryTree

/-! ### Normal form -/

theorem flatMap_slash_eq_intercalate {parts : List Bytes} (hne : parts ≠ []) :
    parts.flatMap (slash :: ·) = [slash].intercalate ([] :: parts) := by
  obtain ⟨part, parts, rfl⟩ := List.exists_cons_of_ne_nil hne
  induction parts generalizing part with
  | nil => simp [List.intercalate]
  | cons next parts ih =>
      have hrest := ih next (List.cons_ne_nil next parts)
      rw [List.flatMap_cons, hrest]
      simp [List.intercalate]

theorem splitPath_normalizePath (path : Bytes) : splitPath (normalizePath path) = splitPath path := by
  rw [normalizePath]
  split
  · rename_i hnil
    rw [hnil]
    decide
  · rename_i hne
    have hslash : ∀ part ∈ [] :: splitPath path, slash ∉ part := by
      intro part hpart
      rcases List.mem_cons.mp hpart with rfl | hpart
      · exact List.not_mem_nil
      · exact (component_of_mem_splitPath hpart).2
    have hself : (splitPath path).filter isComponent = splitPath path :=
      List.filter_eq_self.mpr fun part hpart => (component_of_mem_splitPath hpart).1
    rw [flatMap_slash_eq_intercalate hne, splitPath,
      List.splitOn_intercalate slash hslash (List.cons_ne_nil _ _), List.filter_cons_of_neg (by decide),
      hself]

theorem normalizePath_congr {path other : Bytes} (h : splitPath path = splitPath other) :
    normalizePath path = normalizePath other := by
  rw [normalizePath, normalizePath, h]

theorem find_eq_findParts (tree : DirectoryTree) (path : Bytes) :
    tree.find path = findParts (splitPath path) tree.root := by
  rw [find]
  split
  · rename_i hroot
    rw [splitPath_of_root hroot.symm, findParts]
  · rfl

/-- The same answers to every lookup. -/
structure SameLookups (tree : DirectoryTree) (path other : Bytes) : Prop where
  find : tree.find path = tree.find other
  pathExists : tree.pathExists path = tree.pathExists other
  listDirectory : tree.listDirectory path = tree.listDirectory other

theorem SameLookups.of_splitPath {tree : DirectoryTree} {path other : Bytes}
    (h : splitPath path = splitPath other) : SameLookups tree path other := by
  have hfind : tree.find path = tree.find other := by
    rw [find_eq_findParts, find_eq_findParts, h]
  exact {
    find := hfind
    pathExists := by rw [DirectoryTree.pathExists, DirectoryTree.pathExists, hfind]
    listDirectory := by rw [DirectoryTree.listDirectory, DirectoryTree.listDirectory, hfind] }

/-- **Normalisation.** Writing a path in normal form keeps its components and is done once, and no
lookup tells two paths with the same components apart. -/
theorem paths_up_to_normalization :
    (∀ path, splitPath (normalizePath path) = splitPath path
      ∧ normalizePath (normalizePath path) = normalizePath path)
    ∧ (∀ (tree : DirectoryTree) (path : Bytes), SameLookups tree path (normalizePath path))
    ∧ ∀ (tree : DirectoryTree) (path other : Bytes), splitPath path = splitPath other →
        SameLookups tree path other := by
  refine ⟨?_, ?_, ?_⟩
  · intro path
    have hsplit := splitPath_normalizePath path
    exact ⟨hsplit, normalizePath_congr hsplit⟩
  · intro tree path
    exact .of_splitPath (splitPath_normalizePath path).symm
  · intro tree path other h
    exact .of_splitPath h

/-! ### What an insertion keeps -/

@[simp]
theorem insertParts_nil (entry : ArchiveEntry) (node : DirectoryNode) :
    insertParts entry [] node = node := rfl

@[simp]
theorem insertParts_parentId (entry : ArchiveEntry) (parts : List Bytes) (node : DirectoryNode) :
    (insertParts entry parts node).parentId = node.parentId := by
  unfold insertParts
  split <;> rfl

/-- A node that was there is found again, with what was inserted below it. -/
theorem findParts_insertParts_of_present (entry : ArchiveEntry) (components : List Bytes)
    {parts : List Bytes} {node found : DirectoryNode} (h : findParts parts node = some found) :
    ∃ below, findParts parts (insertParts entry components node)
      = some (insertParts entry below found) := by
  induction parts generalizing components node with
  | nil =>
      obtain rfl : node = found := Option.some.inj h
      exact ⟨components, rfl⟩
  | cons part parts ih =>
      cases hchild : findChild node part with
      | none => simp [findParts, hchild] at h
      | some child =>
          rw [findParts, hchild] at h
          simp only at h
          have hfound : node.children.find? (·.name = part) = some child := hchild
          cases components with
          | nil =>
              refine ⟨[], ?_⟩
              rw [insertParts_nil, insertParts_nil, findParts, hchild]
              exact h
          | cons name names =>
              cases names with
              | nil =>
                  -- the new leaf comes after the child that is there
                  refine ⟨[], ?_⟩
                  rw [insertParts_nil, findParts, findChild, insertParts, List.find?_append, hfound]
                  exact h
              | cons next names =>
                  have hfresh : (implicitDirectory entry name node).name = name := rfl
                  have hfind := find_updateChild hfresh (insertParts_name entry (next :: names))
                    node.children part
                  rw [findParts, findChild, insertParts]
                  simp only
                  rw [hfind]
                  by_cases hpart : part = name
                  · subst hpart
                    rw [if_pos rfl, hfound]
                    exact ih (next :: names) h
                  · rw [if_neg hpart, hfound]
                    exact ⟨[], h⟩

theorem isSome_idAt (parts : List Bytes) (node : DirectoryNode) :
    (idAt parts node).isSome = (findParts parts node).isSome := by
  rw [idAt, Option.isSome_map]

theorem isSome_grants_iff {parts components : List Bytes} {id : EntryID} :
    (grants parts components id).isSome = true ↔ parts <+: components := by
  unfold grants
  by_cases hpre : parts <+: components
  · simp [hpre]
  · simp [hpre]

theorem insert_root_of_components {tree : DirectoryTree} {entry : ArchiveEntry}
    (h : splitPath entry.path ≠ []) :
    (tree.insert entry).1.root = insertParts entry (splitPath entry.path) tree.root := by
  have hroot : ¬ (entry.path = [] ∨ entry.path = [slash]) := fun hroot => h (splitPath_of_root hroot)
  rw [insert, if_neg hroot]
  simp only
  rw [if_neg h]

/-- **The frame of an insertion.** It adds its own path and the paths on the way, and a node that was
there keeps its identity. -/
theorem insert_adds_path_and_parents (tree : DirectoryTree) (entry : ArchiveEntry) (path : Bytes)
    (hentry : splitPath entry.path ≠ []) (hpath : splitPath path ≠ []) :
    (((tree.insert entry).1.find path).isSome = true
        ↔ (tree.find path).isSome = true ∨ splitPath path <+: splitPath entry.path)
      ∧ ∀ node, tree.find path = some node →
          ∃ after, (tree.insert entry).1.find path = some after
            ∧ after.id = node.id ∧ after.name = node.name ∧ after.parentId = node.parentId := by
  constructor
  · rw [find_eq_findParts, find_eq_findParts, ← isSome_idAt, ← isSome_idAt, idAt_insert tree entry hpath,
      Option.isSome_or, Bool.or_eq_true, isSome_grants_iff]
  · intro node hnode
    rw [find_eq_findParts] at hnode
    obtain ⟨below, hfound⟩ := findParts_insertParts_of_present entry (splitPath entry.path) hnode
    refine ⟨insertParts entry below node, ?_, ?_, ?_, ?_⟩
    · rw [find_eq_findParts, insert_root_of_components hentry, hfound]
    · exact insertParts_id entry below node
    · exact insertParts_name entry below node
    · exact insertParts_parentId entry below node

/-- The entry `/a/b` in a tree that holds `/a/c`, and the directory on both paths. -/
theorem insert_adds_path_and_parents_of_sibling :
    let tree := (insert {} { id := 1, path := [0x2F, 0x61, 0x2F, 0x63] }).1
    let entry : ArchiveEntry := { id := 7, path := [0x2F, 0x61, 0x2F, 0x62] }
    let path : Bytes := [0x2F, 0x61]
    (((tree.insert entry).1.find path).isSome = true
        ↔ (tree.find path).isSome = true ∨ splitPath path <+: splitPath entry.path)
      ∧ ∀ node, tree.find path = some node →
          ∃ after, (tree.insert entry).1.find path = some after
            ∧ after.id = node.id ∧ after.name = node.name ∧ after.parentId = node.parentId :=
  insert_adds_path_and_parents _ _ _ (by decide) (by decide)

/-! ### What a round trip restores -/

/-- Two trees of one shape with the same names, ids and files. -/
inductive SameNodes : DirectoryNode → DirectoryNode → Prop
  | intro {node other : DirectoryNode} (name : node.name = other.name) (id : node.id = other.id)
      (parentId : node.parentId = other.parentId) (files : node.files = other.files)
      (children : List.Forall₂ SameNodes node.children other.children) : SameNodes node other

mutual

theorem sameNodes_stored : (node : DirectoryNode) → SameNodes (stored node) node
  | ⟨_, _, _, children, _, _, _⟩ => .intro rfl rfl rfl rfl (sameNodes_storedAll children)

theorem sameNodes_storedAll : (nodes : List DirectoryNode) →
    List.Forall₂ SameNodes (storedAll nodes) nodes
  | [] => .nil
  | node :: nodes => .cons (sameNodes_stored node) (sameNodes_storedAll nodes)

end

/-- **The round trip of a directory tree.** -/
theorem directory_tree_restored (tree : DirectoryTree) (hfits : tree.serialize.length < 2 ^ 64) :
    ∃ restored, deserialize tree.serialize = (restored, none)
      ∧ restored.nodeCount = tree.nodeCount ∧ SameNodes restored.root tree.root :=
  ⟨_, deserialize_serialize tree hfits, rfl, sameNodes_stored tree.root⟩

theorem directory_tree_restored_of_nested :
    let root : DirectoryNode :=
      { name := [0x2F], id := 9, files := [4, 300],
        children := [{ name := [0x61], id := 4, parentId := 9 }] }
    ∃ restored, deserialize (serialize { root := root, nodeCount := 1 }) = (restored, none)
      ∧ restored.nodeCount = 1 ∧ SameNodes restored.root root :=
  directory_tree_restored { root := _, nodeCount := 1 } (by decide)

end DirectoryTree

end NebulaFS
