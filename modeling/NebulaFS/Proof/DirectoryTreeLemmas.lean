import Mathlib.Data.List.Induction
import NebulaFS.DirectoryTree
import NebulaFS.Proof.VarIntLemmas

/-!
# Paths in the directory tree

Only ids are ever read off the tree, so `idAt` is what a path leads to. Inserting an entry changes
nothing about the paths that were there, and adds the non-empty prefixes of the entry's own component
list: the list itself with the entry's id, the others with the id after it (`idAt_insertParts`). After
any number of insertions a path therefore belongs to the first entry whose components it begins
(`idAt_insertAll`).

The second half is the round trip of the encoding, which drops times and permissions.
-/

namespace NebulaFS

open Cursor

namespace DirectoryTree

/-! ### Component lists -/

theorem slash_notMem_of_mem_splitOn {path part : Bytes} (h : part ∈ path.splitOn slash) :
    slash ∉ part := by
  induction path generalizing part with
  | nil =>
      rw [List.splitOn_nil, List.mem_singleton] at h
      rw [h]
      exact List.not_mem_nil
  | cons byte path ih =>
      rw [List.splitOn_cons_eq_if_modifyHead] at h
      split at h
      · rcases List.mem_cons.mp h with rfl | hrest
        · exact List.not_mem_nil
        · exact ih hrest
      · rename_i hbyte
        obtain ⟨first, rest, heq⟩ := List.exists_cons_of_ne_nil (List.splitOn_ne_nil slash path)
        rw [heq, List.modifyHead_cons] at h
        rcases List.mem_cons.mp h with rfl | hrest
        · have hfirst := ih (heq ▸ List.mem_cons_self)
          have hne : byte ≠ slash := by simpa using hbyte
          rw [List.mem_cons, not_or]
          exact ⟨hne.symm, hfirst⟩
        · exact ih (heq ▸ List.mem_cons_of_mem _ hrest)

theorem splitPath_intercalate {parts : List Bytes} (hne : parts ≠ [])
    (hparts : ∀ part ∈ parts, isComponent part = true ∧ slash ∉ part) :
    splitPath ([slash].intercalate parts) = parts := by
  rw [splitPath, List.splitOn_intercalate slash (fun part hpart => (hparts part hpart).2) hne]
  exact List.filter_eq_self.mpr fun part hpart => (hparts part hpart).1

theorem component_of_mem_splitPath {path part : Bytes} (h : part ∈ splitPath path) :
    isComponent part = true ∧ slash ∉ part := by
  obtain ⟨hsplit, hcomponent⟩ := List.mem_filter.mp h
  exact ⟨hcomponent, slash_notMem_of_mem_splitOn hsplit⟩

theorem exists_path_of_head {path : Bytes} {parts : List Bytes} (hne : parts ≠ [])
    (h : parts <+: splitPath path) : ∃ shorter, splitPath shorter = parts :=
  ⟨_, splitPath_intercalate hne fun _ hpart => component_of_mem_splitPath (h.subset hpart)⟩

/-! ### What an insertion adds -/

def idAt (parts : List Bytes) (node : DirectoryNode) : Option EntryID :=
  (findParts parts node).map (·.id)

@[simp]
theorem idAt_nil (node : DirectoryNode) : idAt [] node = some node.id := rfl

theorem idAt_cons (part : Bytes) (parts : List Bytes) (node : DirectoryNode) :
    idAt (part :: parts) node = (findChild node part).bind (idAt parts) := by
  unfold idAt
  rw [findParts]
  cases findChild node part with
  | none => rfl
  | some child => rfl

theorem idAt_cons_of_children {node other : DirectoryNode} (h : node.children = other.children)
    (part : Bytes) (parts : List Bytes) :
    idAt (part :: parts) node = idAt (part :: parts) other := by
  rw [idAt_cons, idAt_cons, findChild, findChild, h]

@[simp]
theorem insertParts_id (entry : ArchiveEntry) (parts : List Bytes) (node : DirectoryNode) :
    (insertParts entry parts node).id = node.id := by
  unfold insertParts
  split <;> rfl

@[simp]
theorem insertParts_name (entry : ArchiveEntry) (parts : List Bytes) (node : DirectoryNode) :
    (insertParts entry parts node).name = node.name := by
  unfold insertParts
  split <;> rfl

theorem find_updateChild {name : Bytes} {fresh : DirectoryNode}
    {update : DirectoryNode → DirectoryNode} (hfresh : fresh.name = name)
    (hupdate : ∀ node, (update node).name = node.name) (children : List DirectoryNode)
    (part : Bytes) :
    (updateChild name fresh update children).find? (·.name = part)
      = if part = name then some (update ((children.find? (·.name = name)).getD fresh))
        else children.find? (·.name = part) := by
  induction children with
  | nil =>
      by_cases hpart : part = name
      · simp [updateChild, hupdate, hfresh, hpart]
      · simp [updateChild, hupdate, hfresh, hpart, Ne.symm hpart]
  | cons child children ih =>
      by_cases hchild : child.name = name
      · by_cases hpart : part = name
        · simp [updateChild, hupdate, hchild, hpart]
        · simp [updateChild, hupdate, hchild, hpart, Ne.symm hpart]
      · rw [updateChild, if_neg hchild, List.find?_cons, ih]
        by_cases hpart : part = name
        · simp [hchild, hpart]
        · simp [hpart, List.find?_cons]

/-- The id an entry gives to a path: its own for its component list, the next one for the directories
on the way. -/
def grants (parts : List Bytes) (components : List Bytes) (id : EntryID) : Option EntryID :=
  if parts <+: components then some (if parts = components then id else id + 1) else none

theorem grants_eq_some_iff {parts components : List Bytes} {id granted : EntryID} :
    grants parts components id = some granted
      ↔ parts <+: components ∧ granted = if parts = components then id else id + 1 := by
  unfold grants
  by_cases hpre : parts <+: components
  · simp [hpre, eq_comm]
  · simp [hpre]

theorem grants_eq_none_iff {parts components : List Bytes} {id : EntryID} :
    grants parts components id = none ↔ ¬ parts <+: components := by
  unfold grants
  by_cases hpre : parts <+: components
  · simp [hpre]
  · simp [hpre]

theorem grants_cons (part : Bytes) (parts : List Bytes) (name : Bytes) (names : List Bytes)
    (id : EntryID) :
    grants (part :: parts) (name :: names) id = if part = name then grants parts names id else none := by
  unfold grants
  by_cases hpart : part = name
  · simp [hpart, List.cons_prefix_cons]
  · simp [hpart, List.cons_prefix_cons]

theorem grants_cons_nil (part : Bytes) (parts : List Bytes) (id : EntryID) :
    grants (part :: parts) [] id = none := by
  simp [grants]

theorem idAt_cons_of_no_children {node : DirectoryNode} (h : node.children = []) (part : Bytes)
    (parts : List Bytes) : idAt (part :: parts) node = none := by
  rw [idAt_cons, findChild, h]
  rfl

theorem idAt_insertParts (entry : ArchiveEntry) {components : List Bytes} (hne : components ≠ [])
    (parts : List Bytes) (node : DirectoryNode) :
    idAt parts (insertParts entry components node)
      = (idAt parts node).or (grants parts components entry.id) := by
  induction components generalizing parts node with
  | nil => exact absurd rfl hne
  | cons name names ih =>
      cases parts with
      | nil => simp
      | cons part parts =>
          rw [idAt_cons, idAt_cons, grants_cons]
          cases names with
          | nil =>
              -- the last component: a leaf behind the children that are there
              rw [findChild, findChild, insertParts, List.find?_append]
              cases node.children.find? (·.name = part) with
              | some child => cases parts <;> simp [grants_cons_nil]
              | none =>
                  by_cases hpart : part = name
                  · cases parts with
                    | nil => simp [leaf, hpart, grants]
                    | cons first parts =>
                        simp [hpart, grants_cons_nil, leaf, idAt_cons_of_no_children]
                  · simp [leaf, hpart, Ne.symm hpart]
          | cons next names =>
              have hfresh : (implicitDirectory entry name node).name = name := rfl
              have hfind := find_updateChild hfresh (insertParts_name entry (next :: names))
                node.children part
              rw [findChild, findChild, insertParts]
              simp only
              rw [hfind]
              by_cases hpart : part = name
              · subst hpart
                rw [if_pos rfl, if_pos rfl, Option.bind_some, ih (List.cons_ne_nil _ _)]
                cases node.children.find? (·.name = part) with
                | some child => rfl
                | none =>
                    -- the directory is made: it knows itself and nothing below it
                    cases parts with
                    | nil => simp [implicitDirectory, grants]
                    | cons first parts =>
                        rw [Option.getD_none, idAt_cons_of_no_children rfl]
                        rfl
              · rw [if_neg hpart, if_neg hpart, Option.or_none]

/-! ### Any number of insertions -/

theorem insert_root_id_of_not_root {tree : DirectoryTree} {entry : ArchiveEntry}
    (hroot : ¬ (entry.path = [] ∨ entry.path = [slash])) :
    (tree.insert entry).1.root.id = tree.root.id := by
  rw [insert, if_neg hroot]
  simp only
  split
  · rfl
  · simp

theorem splitPath_of_root {path : Bytes} (hroot : path = [] ∨ path = [slash]) :
    splitPath path = [] := by
  rcases hroot with rfl | rfl <;> decide

/-- The paths an entry can have: the root, or a path with a component. -/
def ValidPath (path : Bytes) : Prop := path = [] ∨ path = [slash] ∨ splitPath path ≠ []

instance (path : Bytes) : Decidable (ValidPath path) := inferInstanceAs (Decidable (_ ∨ _ ∨ _))

theorem insert_ok_iff (tree : DirectoryTree) (entry : ArchiveEntry) :
    (tree.insert entry).2 = none ↔ ValidPath entry.path := by
  unfold insert ValidPath
  by_cases hroot : entry.path = [] ∨ entry.path = [slash]
  · rw [if_pos hroot, ← or_assoc]
    exact iff_of_true rfl (.inl hroot)
  · rw [if_neg hroot, ← or_assoc, or_iff_right hroot]
    simp only
    by_cases hparts : splitPath entry.path = []
    · rw [if_pos hparts]
      exact iff_of_false (Option.some_ne_none _) (not_not.mpr hparts)
    · rw [if_neg hparts]
      exact iff_of_true rfl hparts

theorem idAt_insert (tree : DirectoryTree) (entry : ArchiveEntry) {parts : List Bytes}
    (hparts : parts ≠ []) :
    idAt parts (tree.insert entry).1.root
      = (idAt parts tree.root).or (grants parts (splitPath entry.path) entry.id) := by
  obtain ⟨part, parts, rfl⟩ := List.exists_cons_of_ne_nil hparts
  rw [insert]
  split
  · rename_i hroot
    rw [splitPath_of_root hroot, grants_cons_nil, Option.or_none]
    exact idAt_cons_of_children rfl part parts
  · simp only
    split
    · rename_i hnil
      rw [hnil, grants_cons_nil, Option.or_none]
    · rename_i hne
      exact idAt_insertParts entry hne _ _

def insertAll (tree : DirectoryTree) (entries : List ArchiveEntry) : DirectoryTree :=
  entries.foldl (fun tree entry => (tree.insert entry).1) tree

theorem insertAll_append_singleton (tree : DirectoryTree) (entries : List ArchiveEntry)
    (entry : ArchiveEntry) :
    tree.insertAll (entries ++ [entry]) = ((tree.insertAll entries).insert entry).1 := by
  simp [insertAll]

theorem root_id_insertAll (entries : List ArchiveEntry) :
    (insertAll {} entries).root.id = 0
      ∨ ∃ entry ∈ entries, splitPath entry.path = []
        ∧ (insertAll {} entries).root.id = entry.id := by
  induction entries using List.reverseRecOn with
  | nil => exact .inl rfl
  | append_singleton entries entry ih =>
      rw [insertAll_append_singleton]
      by_cases hroot : entry.path = [] ∨ entry.path = [slash]
      · refine .inr ⟨entry, by simp, splitPath_of_root hroot, ?_⟩
        rw [insert, if_pos hroot]
        rfl
      · rw [insert_root_id_of_not_root hroot]
        rcases ih with hzero | ⟨other, hother, hparts, hid⟩
        · exact .inl hzero
        · exact .inr ⟨other, by simp [hother], hparts, hid⟩

/-- **Who owns a path.** A non-empty path leads to the first entry whose component list it begins. -/
theorem idAt_insertAll (entries : List ArchiveEntry) {parts : List Bytes} (hparts : parts ≠ []) :
    idAt parts (insertAll {} entries).root
      = entries.findSome? fun entry => grants parts (splitPath entry.path) entry.id := by
  have hgeneral : ∀ tree : DirectoryTree, idAt parts (tree.insertAll entries).root
      = (idAt parts tree.root).or
        (entries.findSome? fun entry => grants parts (splitPath entry.path) entry.id) := by
    induction entries with
    | nil => simp [insertAll]
    | cons entry entries ih =>
        intro tree
        have hstep := ih (tree.insert entry).1
        rw [idAt_insert tree entry hparts, Option.or_assoc] at hstep
        rw [insertAll, List.foldl_cons, ← insertAll, hstep, List.findSome?_cons]
        cases grants parts (splitPath entry.path) entry.id with
        | none => rfl
        | some id => rfl
  obtain ⟨part, parts, rfl⟩ := List.exists_cons_of_ne_nil hparts
  rw [hgeneral, idAt_cons_of_no_children rfl, Option.none_or]

end DirectoryTree

end NebulaFS
