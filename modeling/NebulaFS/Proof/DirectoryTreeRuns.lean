import NebulaFS.Lib.Runs
import NebulaFS.Proof.DirectoryPaths

/-!
# Runs of the directory tree

Insertions and removals from an empty tree. The children of every node have different names as long as
no path is inserted that the tree already leads along, be it one that was inserted or one of the
directories made on the way (`oneNode_run`): `insert` never looks for the last component. The count of
the nodes is right as long as nothing is removed that has nodes below it (`counts_run`): `remove` takes
the whole subtree away and one off the count.

Both walks go through the first child of each name, so each level is read through `findChild_split`.
-/

namespace NebulaFS

namespace DirectoryTree

/-! ### One level of a walk -/

theorem findChild_split {node child : DirectoryNode} {name : Bytes}
    (h : findChild node name = some child) :
    ∃ front back, node.children = front ++ child :: back ∧ child.name = name
      ∧ ∀ other ∈ front, other.name ≠ name := by
  obtain ⟨hname, front, back, hchildren, hfront⟩ := List.find?_eq_some_iff_append.mp h
  refine ⟨front, back, hchildren, by simpa using hname, ?_⟩
  intro other hother
  simpa using hfront other hother

theorem findChild_eq_none_iff {node : DirectoryNode} {name : Bytes} :
    findChild node name = none ↔ ∀ other ∈ node.children, other.name ≠ name := by
  simp [findChild, List.find?_eq_none]

theorem updateChild_of_split {name : Bytes} {fresh child : DirectoryNode}
    {update : DirectoryNode → DirectoryNode} {front back : List DirectoryNode}
    (hname : child.name = name) (hfront : ∀ other ∈ front, other.name ≠ name) :
    updateChild name fresh update (front ++ child :: back) = front ++ update child :: back := by
  induction front with
  | nil => rw [List.nil_append, List.nil_append, updateChild, if_pos hname]
  | cons other front ih =>
      rw [List.cons_append, updateChild, if_neg (hfront other List.mem_cons_self),
        ih fun next hnext => hfront next (List.mem_cons_of_mem _ hnext)]
      rfl

theorem updateChild_of_absent {name : Bytes} {fresh : DirectoryNode}
    {update : DirectoryNode → DirectoryNode} {children : List DirectoryNode}
    (habsent : ∀ other ∈ children, other.name ≠ name) :
    updateChild name fresh update children = children ++ [update fresh] := by
  induction children with
  | nil => rfl
  | cons other children ih =>
      rw [updateChild, if_neg (habsent other List.mem_cons_self),
        ih fun next hnext => habsent next (List.mem_cons_of_mem _ hnext)]
      rfl

theorem eraseP_of_split {name : Bytes} {child : DirectoryNode} {front back : List DirectoryNode}
    (hname : child.name = name) (hfront : ∀ other ∈ front, other.name ≠ name) :
    (front ++ child :: back).eraseP (·.name = name) = front ++ back := by
  rw [List.eraseP_append_right _ (by simpa using hfront), List.eraseP_cons_of_pos (by simpa using hname)]

theorem findParts_cons_eq_none_of_absent {node : DirectoryNode} {name : Bytes}
    (h : findChild node name = none) (parts : List Bytes) : findParts (name :: parts) node = none := by
  rw [findParts, h]

theorem findParts_cons_of_child {node child : DirectoryNode} {name : Bytes}
    (h : findChild node name = some child) (parts : List Bytes) :
    findParts (name :: parts) node = findParts parts child := by
  rw [findParts, h]

/-- The walk of `insert` through a component that is not the last one. -/
theorem insertParts_cons_of_child (entry : ArchiveEntry) {node child : DirectoryNode}
    {front back : List DirectoryNode} {name next : Bytes} {names : List Bytes}
    (hchildren : node.children = front ++ child :: back) (hname : child.name = name)
    (hfront : ∀ other ∈ front, other.name ≠ name) :
    (insertParts entry (name :: next :: names) node).children
      = front ++ insertParts entry (next :: names) child :: back := by
  rw [insertParts]
  simp only
  rw [hchildren, updateChild_of_split hname hfront]

theorem insertParts_cons_of_absent (entry : ArchiveEntry) {node : DirectoryNode} {name next : Bytes}
    {names : List Bytes} (habsent : findChild node name = none) :
    (insertParts entry (name :: next :: names) node).children
      = node.children
        ++ [insertParts entry (next :: names) (implicitDirectory entry name node)] := by
  rw [insertParts]
  simp only
  rw [updateChild_of_absent (findChild_eq_none_iff.mp habsent)]

/-- What a successful `removeParts` was called with, level by level. -/
theorem removeParts_cases {name : Bytes} {names : List Bytes} {node left : DirectoryNode}
    (h : removeParts (name :: names) node = some left) :
    ∃ child front back, node.children = front ++ child :: back ∧ child.name = name
      ∧ (∀ other ∈ front, other.name ≠ name) ∧ findChild node name = some child
      ∧ left.name = node.name
      ∧ ((names = [] ∧ left.children = front ++ back)
        ∨ ∃ rest, names ≠ [] ∧ removeParts names child = some rest
            ∧ left.children = front ++ rest :: back) := by
  cases hchild : findChild node name with
  | none => cases names <;> simp [removeParts, hchild] at h
  | some child =>
      obtain ⟨front, back, hchildren, hname, hfront⟩ := findChild_split hchild
      refine ⟨child, front, back, hchildren, hname, hfront, rfl, ?_⟩
      cases names with
      | nil =>
          rw [removeParts, hchild] at h
          obtain rfl := Option.some.inj h
          exact ⟨rfl, .inl ⟨rfl, by rw [hchildren, eraseP_of_split hname hfront]⟩⟩
      | cons next names =>
          rw [removeParts, hchild] at h
          simp only at h
          cases hrest : removeParts (next :: names) child with
          | none => simp [hrest] at h
          | some rest =>
              rw [hrest] at h
              obtain rfl := Option.some.inj h
              refine ⟨rfl, .inr ⟨rest, List.cons_ne_nil _ _, rfl, ?_⟩⟩
              rw [hchildren, updateChild_of_split hname hfront]

/-! ### One node per path -/

inductive OneNodePerName : DirectoryNode → Prop
  | intro {node : DirectoryNode} (names : (node.children.map (·.name)).Nodup)
      (below : ∀ child ∈ node.children, OneNodePerName child) : OneNodePerName node

theorem OneNodePerName.names {node : DirectoryNode} (h : OneNodePerName node) :
    (node.children.map (·.name)).Nodup := by
  cases h with
  | intro names below => exact names

theorem OneNodePerName.ofChild {node child : DirectoryNode} (h : OneNodePerName node)
    (hchild : child ∈ node.children) : OneNodePerName child := by
  cases h with
  | intro names below => exact below child hchild

theorem OneNodePerName.of_no_children {node : DirectoryNode} (h : node.children = []) :
    OneNodePerName node := by
  refine .intro ?_ ?_
  · rw [h]
    exact List.nodup_nil
  · intro child hchild
    rw [h] at hchild
    exact absurd hchild List.not_mem_nil

section Levels

variable {node other child rest : DirectoryNode} {front back : List DirectoryNode}

theorem OneNodePerName.replace (h : OneNodePerName node)
    (hnode : node.children = front ++ child :: back) (hother : other.children = front ++ rest :: back)
    (hname : rest.name = child.name) (hrest : OneNodePerName rest) : OneNodePerName other := by
  refine .intro ?_ ?_
  · have hnames := h.names
    rw [hnode] at hnames
    rw [hother]
    simpa [hname] using hnames
  · intro next hnext
    rw [hother] at hnext
    rcases List.mem_append.mp hnext with hfront | hback
    · exact h.ofChild (hnode ▸ List.mem_append_left _ hfront)
    · rcases List.mem_cons.mp hback with rfl | hback
      · exact hrest
      · exact h.ofChild (hnode ▸ List.mem_append_right _ (List.mem_cons_of_mem _ hback))

theorem OneNodePerName.append (h : OneNodePerName node)
    (hother : other.children = node.children ++ [rest]) (habsent : findChild node rest.name = none)
    (hrest : OneNodePerName rest) : OneNodePerName other := by
  refine .intro ?_ ?_
  · rw [hother, List.map_append, List.map_singleton, List.nodup_append]
    refine ⟨h.names, List.nodup_singleton _, ?_⟩
    intro name hname last hlast
    obtain ⟨next, hnext, rfl⟩ := List.mem_map.mp hname
    rw [List.mem_singleton.mp hlast]
    exact findChild_eq_none_iff.mp habsent next hnext
  · intro next hnext
    rw [hother] at hnext
    rcases List.mem_append.mp hnext with hold | hlast
    · exact h.ofChild hold
    · rw [List.mem_singleton.mp hlast]
      exact hrest

theorem OneNodePerName.erase (h : OneNodePerName node)
    (hnode : node.children = front ++ child :: back) (hother : other.children = front ++ back) :
    OneNodePerName other := by
  have hsublist : List.Sublist other.children node.children := by
    rw [hother, hnode]
    exact (List.Sublist.refl front).append (List.sublist_cons_self child back)
  refine .intro ?_ ?_
  · exact List.Nodup.sublist (hsublist.map _) h.names
  · intro next hnext
    exact h.ofChild (hsublist.subset hnext)

/-- What is behind a child has other names. -/
theorem OneNodePerName.name_ne_of_back (h : OneNodePerName node)
    (hnode : node.children = front ++ child :: back) : ∀ next ∈ back, next.name ≠ child.name := by
  have hnames := h.names
  rw [hnode, List.map_append, List.map_cons, List.nodup_append] at hnames
  intro next hnext heq
  obtain ⟨hchild, -⟩ := List.nodup_cons.mp hnames.2.1
  exact hchild (heq ▸ List.mem_map_of_mem hnext)

end Levels

/-- A path that the tree does not lead along gets its nodes beside the others. -/
theorem OneNodePerName.insertParts (entry : ArchiveEntry) {components : List Bytes}
    {node : DirectoryNode} (h : OneNodePerName node) (hnew : findParts components node = none) :
    OneNodePerName (insertParts entry components node) := by
  induction components generalizing node with
  | nil => simp [findParts] at hnew
  | cons name names ih =>
      cases hchild : findChild node name with
      | none =>
          cases names with
          | nil => exact h.append rfl hchild (.of_no_children rfl)
          | cons next names =>
              refine h.append (insertParts_cons_of_absent entry hchild) ?_ ?_
              · rw [insertParts_name]
                exact hchild
              · exact ih (.of_no_children rfl) (findParts_cons_eq_none_of_absent rfl names)
      | some child =>
          rw [findParts_cons_of_child hchild] at hnew
          obtain ⟨front, back, hchildren, hname, hfront⟩ := findChild_split hchild
          cases names with
          | nil => simp [findParts] at hnew
          | cons next names =>
              have hbelow : OneNodePerName child := h.ofChild (hchildren ▸ by simp)
              exact h.replace hchildren (insertParts_cons_of_child entry hchildren hname hfront)
                (insertParts_name entry _ child) (ih hbelow hnew)

/-- A path that the tree leads along gets a second node for its last component. -/
theorem not_oneNodePerName_insertParts (entry : ArchiveEntry) {components : List Bytes}
    (hne : components ≠ []) {node found : DirectoryNode}
    (hfound : findParts components node = some found) :
    ¬ OneNodePerName (insertParts entry components node) := by
  intro h
  induction components generalizing node with
  | nil => exact hne rfl
  | cons name names ih =>
      cases hchild : findChild node name with
      | none =>
          rw [findParts_cons_eq_none_of_absent hchild] at hfound
          exact (Option.some_ne_none found hfound.symm).elim
      | some child =>
          rw [findParts_cons_of_child hchild] at hfound
          obtain ⟨front, back, hchildren, hname, hfront⟩ := findChild_split hchild
          cases names with
          | nil =>
              have hafter : (DirectoryTree.insertParts entry [name] node).children
                  = front ++ child :: (back ++ [leaf entry name node]) := by
                simp [DirectoryTree.insertParts, hchildren]
              have hlast := h.name_ne_of_back hafter (leaf entry name node) (by simp)
              exact hlast hname.symm
          | cons next names =>
              have hafter : (DirectoryTree.insertParts entry (name :: next :: names) node).children
                  = front ++ DirectoryTree.insertParts entry (next :: names) child :: back :=
                insertParts_cons_of_child entry hchildren hname hfront
              exact ih (List.cons_ne_nil _ _) hfound (h.ofChild (hafter ▸ by simp))

theorem OneNodePerName.removeParts {parts : List Bytes} {node left : DirectoryNode}
    (h : OneNodePerName node) (hleft : removeParts parts node = some left) :
    OneNodePerName left ∧ left.name = node.name ∧ findParts parts left = none := by
  induction parts generalizing node left with
  | nil => simp [DirectoryTree.removeParts] at hleft
  | cons name names ih =>
      obtain ⟨child, front, back, hchildren, hname, hfront, hchild, hsame, hcases⟩ :=
        removeParts_cases hleft
      have hback := h.name_ne_of_back hchildren
      rw [hname] at hback
      rcases hcases with ⟨hnil, herased⟩ | ⟨rest, hne, hrest, hreplaced⟩
      · refine ⟨h.erase hchildren herased, hsame, ?_⟩
        apply findParts_cons_eq_none_of_absent
        rw [findChild_eq_none_iff, herased]
        intro next hnext
        rcases List.mem_append.mp hnext with hmem | hmem
        · exact hfront next hmem
        · exact hback next hmem
      · have hbelow : OneNodePerName child := h.ofChild (hchildren ▸ by simp)
        obtain ⟨honce, hrestName, hgone⟩ := ih hbelow hrest
        refine ⟨h.replace hchildren hreplaced hrestName honce, hsame, ?_⟩
        have hfind : findChild left name = some rest := by
          rw [findChild, hreplaced, List.find?_append,
            List.find?_eq_none.mpr (by simpa using hfront), Option.none_or,
            List.find?_cons_of_pos (by simpa [hrestName] using hname)]
        rw [findParts_cons_of_child hfind, hgone]

/-! ### Operations -/

inductive Op
  | insert (entry : ArchiveEntry)
  | remove (path : Bytes)

def Op.path : Op → Bytes
  | .insert entry => entry.path
  | .remove path => path

def next (tree : DirectoryTree) : Op → DirectoryTree
  | .insert entry => (tree.insert entry).1
  | .remove path => (tree.remove path).1

def IsRoot (path : Bytes) : Prop := path = [] ∨ path = [slash]

instance decidableIsRoot (path : Bytes) : Decidable (IsRoot path) :=
  inferInstanceAs (Decidable (_ ∨ _))

theorem insert_of_root {tree : DirectoryTree} {entry : ArchiveEntry} (hroot : IsRoot entry.path) :
    tree.insert entry = (tree.insertRoot entry, none) :=
  if_pos hroot

theorem insert_of_no_components {tree : DirectoryTree} {entry : ArchiveEntry}
    (hroot : ¬ IsRoot entry.path) (h : splitPath entry.path = []) :
    tree.insert entry = (tree, some (.returned .invalidPath)) :=
  (if_neg hroot).trans (if_pos h)

theorem remove_of_root {tree : DirectoryTree} {path : Bytes} (hroot : IsRoot path) :
    tree.remove path = (clear, true) :=
  if_pos hroot.symm

section NotRoot

variable {tree : DirectoryTree} {path : Bytes} (hroot : ¬ IsRoot path)

include hroot

theorem remove_of_absent (habsent : removeParts (splitPath path) tree.root = none) :
    tree.remove path = (tree, false) := by
  rw [remove, if_neg fun h => hroot h.symm, habsent]

theorem remove_of_left {left : DirectoryNode}
    (hleft : removeParts (splitPath path) tree.root = some left) :
    tree.remove path = ({ root := left, nodeCount := tree.nodeCount - 1 }, true) := by
  rw [remove, if_neg fun h => hroot h.symm, hleft]

end NotRoot

theorem insert_children_of_no_components (tree : DirectoryTree) {entry : ArchiveEntry}
    (h : splitPath entry.path = []) : (tree.insert entry).1.root.children = tree.root.children := by
  by_cases hroot : IsRoot entry.path
  · rw [insert_of_root hroot]
    rfl
  · rw [insert_of_no_components hroot h]

/-- What is asked of one step: different names in every directory, the inserted id at the inserted
path, and nothing at the removed one. -/
structure KeepsOneNode (tree : DirectoryTree) (op : Op) : Prop where
  names : OneNodePerName (tree.next op).root
  inserted : ∀ entry, op = .insert entry → ¬ IsRoot entry.path → (tree.insert entry).2 = none →
    ((tree.next op).find entry.path).map (·.id) = some entry.id
  removed : ∀ path, op = .remove path → ¬ IsRoot path → (tree.remove path).2 = true →
    (tree.next op).pathExists path = false

def InsertsNewPath (tree : DirectoryTree) : Op → Prop
  | .insert entry => splitPath entry.path ≠ [] → tree.find entry.path = none
  | .remove _ => True

theorem OneNodePerName.of_children {node other : DirectoryNode} (h : OneNodePerName node)
    (hchildren : other.children = node.children) : OneNodePerName other :=
  .intro (hchildren ▸ h.names) fun _ hchild => h.ofChild (hchildren ▸ hchild)

theorem keepsOneNode_insert_iff {tree : DirectoryTree} (h : OneNodePerName tree.root)
    (entry : ArchiveEntry) :
    KeepsOneNode tree (.insert entry) ↔ InsertsNewPath tree (.insert entry) := by
  by_cases hparts : splitPath entry.path = []
  · refine iff_of_true ?_ (fun hne => absurd hparts hne)
    refine ⟨h.of_children (insert_children_of_no_components tree hparts), ?_, fun _ heq => nomatch heq⟩
    rintro other heq hroot hok
    obtain rfl := Op.insert.inj heq
    rw [insert_of_no_components hroot hparts] at hok
    exact (Option.some_ne_none _ hok).elim
  · have hafter : (tree.next (.insert entry)).root
        = DirectoryTree.insertParts entry (splitPath entry.path) tree.root :=
      insert_root_of_components hparts
    constructor
    · intro hkeeps _
      have hnames := hkeeps.names
      rw [hafter] at hnames
      rw [find_eq_findParts]
      cases hfound : findParts (splitPath entry.path) tree.root with
      | none => rfl
      | some found => exact absurd hnames (not_oneNodePerName_insertParts entry hparts hfound)
    · intro hnew
      have hnone := hnew hparts
      rw [find_eq_findParts] at hnone
      refine ⟨?_, ?_, fun _ heq => nomatch heq⟩
      · rw [hafter]
        exact h.insertParts entry hnone
      · rintro other heq _ _
        obtain rfl := Op.insert.inj heq
        have hid := idAt_insert tree entry hparts
        rw [idAt, idAt, hnone, Option.map_none, Option.none_or, grants, if_pos (List.prefix_refl _),
          if_pos rfl] at hid
        rw [find_eq_findParts]
        exact hid

theorem keepsOneNode_remove {tree : DirectoryTree} (h : OneNodePerName tree.root) (path : Bytes) :
    KeepsOneNode tree (.remove path) := by
  have hinserted : ∀ entry, Op.remove path = .insert entry → ¬ IsRoot entry.path →
      (tree.insert entry).2 = none →
      ((tree.next (.remove path)).find entry.path).map (·.id) = some entry.id :=
    fun _ heq => nomatch heq
  by_cases hroot : IsRoot path
  · have hclear : tree.next (.remove path) = clear := by
      rw [next, remove_of_root hroot]
    refine ⟨?_, hinserted, ?_⟩
    · rw [hclear]
      exact .of_no_children rfl
    · rintro other heq hother _
      obtain rfl := Op.remove.inj heq
      exact absurd hroot hother
  · cases hleft : removeParts (splitPath path) tree.root with
    | none =>
        have hremove := remove_of_absent hroot hleft
        refine ⟨?_, hinserted, ?_⟩
        · rw [next, hremove]
          exact h
        · rintro other heq _ hok
          obtain rfl := Op.remove.inj heq
          rw [hremove] at hok
          exact absurd hok Bool.false_ne_true
    | some left =>
        have hremove := remove_of_left hroot hleft
        obtain ⟨honce, -, hgone⟩ := h.removeParts hleft
        refine ⟨?_, hinserted, ?_⟩
        · rw [next, hremove]
          exact honce
        · rintro other heq _ _
          obtain rfl := Op.remove.inj heq
          rw [next, hremove, pathExists, find_eq_findParts, hgone]
          rfl

theorem keepsOneNode_iff {tree : DirectoryTree} (h : OneNodePerName tree.root) (op : Op) :
    KeepsOneNode tree op ↔ InsertsNewPath tree op := by
  cases op with
  | insert entry => exact keepsOneNode_insert_iff h entry
  | remove path => exact iff_of_true (keepsOneNode_remove h path) trivial

/-- **One node per path.** A run keeps to it exactly if every path it inserts is new at that point. -/
theorem oneNode_run (ops : List Op) :
    Runs.Along (fun tree op after => next tree op = after) KeepsOneNode {} ops
      ↔ Runs.Along (fun tree op after => next tree op = after) InsertsNewPath {} ops := by
  refine Runs.along_iff_of_invariant (fun tree => OneNodePerName tree.root) ?_ ?_ ?_ ops
  · intro tree op h
    exact keepsOneNode_iff h op
  · rintro tree op after h hnew rfl
    exact ((keepsOneNode_iff h op).mpr hnew).names
  · exact .of_no_children rfl

/-- The directory `/a` comes into being with `/a/b`; inserted afterwards, it is not the one that is
found. -/
theorem not_oneNode_of_implicit_directory :
    ¬ Runs.Along (fun tree op after => next tree op = after) KeepsOneNode {}
        [.insert { id := 1, path := [0x2F, 0x61, 0x2F, 0x62] },
          .insert { id := 5, type := .directory, path := [0x2F, 0x61] }] := by
  intro h
  have hstep := (h.2 _ rfl).1
  have hid := hstep.inserted _ rfl (by decide) (by decide)
  exact absurd hid (by decide)

/-! ### The count of the nodes -/

mutual

def nodesBelow : DirectoryNode → Nat
  | ⟨_, _, _, children, _, _, _⟩ => nodesOf children

def nodesOf : List DirectoryNode → Nat
  | [] => 0
  | node :: nodes => nodesBelow node + 1 + nodesOf nodes

end

theorem nodesBelow_eq (node : DirectoryNode) : nodesBelow node = nodesOf node.children := by
  cases node
  rfl

theorem nodesOf_append (nodes others : List DirectoryNode) :
    nodesOf (nodes ++ others) = nodesOf nodes + nodesOf others := by
  induction nodes with
  | nil => simp [nodesOf]
  | cons node nodes ih =>
      rw [List.cons_append, nodesOf, nodesOf, ih]
      omega

theorem nodesOf_split (front back : List DirectoryNode) (child : DirectoryNode) :
    nodesOf (front ++ child :: back) = nodesOf front + nodesBelow child + 1 + nodesOf back := by
  rw [nodesOf_append, nodesOf]
  omega

theorem nodesOf_append_singleton (nodes : List DirectoryNode) (node : DirectoryNode) :
    nodesOf (nodes ++ [node]) = nodesOf nodes + nodesBelow node + 1 := by
  rw [nodesOf_split, nodesOf]

theorem nodesBelow_insertParts (entry : ArchiveEntry) {components : List Bytes} (node : DirectoryNode) :
    nodesBelow (insertParts entry components node)
      = nodesBelow node + createdNodes entry components node := by
  induction components generalizing node with
  | nil => rfl
  | cons name names ih =>
      rw [nodesBelow_eq, nodesBelow_eq]
      cases names with
      | nil =>
          rw [insertParts, nodesOf_append_singleton, nodesBelow_eq (leaf _ _ _)]
          rfl
      | cons next names =>
          cases hchild : findChild node name with
          | none =>
              have hfresh : nodesBelow (implicitDirectory entry name node) = 0 := rfl
              rw [insertParts_cons_of_absent entry hchild, nodesOf_append_singleton, ih, hfresh,
                createdNodes, hchild]
              simp only
              omega
          | some child =>
              obtain ⟨front, back, hchildren, hname, hfront⟩ := findChild_split hchild
              rw [insertParts_cons_of_child entry hchildren hname hfront, hchildren, nodesOf_split,
                nodesOf_split, ih, createdNodes, hchild]
              simp only
              omega

/-- The node that is found goes, with all that is below it. -/
theorem nodesBelow_removeParts {parts : List Bytes} {node left : DirectoryNode}
    (hleft : removeParts parts node = some left) :
    ∃ gone, findParts parts node = some gone
      ∧ nodesBelow node = nodesBelow left + nodesBelow gone + 1 := by
  induction parts generalizing node left with
  | nil => simp [removeParts] at hleft
  | cons name names ih =>
      obtain ⟨child, front, back, hchildren, hname, hfront, hchild, -, hcases⟩ :=
        removeParts_cases hleft
      rw [findParts_cons_of_child hchild, nodesBelow_eq node, nodesBelow_eq left, hchildren,
        nodesOf_split]
      rcases hcases with ⟨rfl, herased⟩ | ⟨rest, -, hrest, hreplaced⟩
      · refine ⟨child, rfl, ?_⟩
        rw [herased, nodesOf_append]
        omega
      · obtain ⟨gone, hgone, hcount⟩ := ih hrest
        refine ⟨gone, hgone, ?_⟩
        rw [hreplaced, nodesOf_split, hcount]
        omega

/-- A path with a component is removed if it leads anywhere. -/
theorem removeParts_isSome {parts : List Bytes} (hne : parts ≠ []) {node gone : DirectoryNode}
    (h : findParts parts node = some gone) : ∃ left, removeParts parts node = some left := by
  induction parts generalizing node with
  | nil => exact absurd rfl hne
  | cons name names ih =>
      cases hchild : findChild node name with
      | none =>
          rw [findParts_cons_eq_none_of_absent hchild] at h
          exact (Option.some_ne_none gone h.symm).elim
      | some child =>
          rw [findParts_cons_of_child hchild] at h
          cases names with
          | nil => exact ⟨_, by rw [removeParts, hchild]⟩
          | cons next names =>
              obtain ⟨rest, hrest⟩ := ih (List.cons_ne_nil _ _) h
              exact ⟨_, by rw [removeParts, hchild]; simp only; rw [hrest]⟩

mutual

theorem nodesBelow_stored : (node : DirectoryNode) → nodesBelow (stored node) = nodesBelow node
  | ⟨_, _, _, children, _, _, _⟩ => nodesOf_storedAll children

theorem nodesOf_storedAll : (nodes : List DirectoryNode) → nodesOf (storedAll nodes) = nodesOf nodes
  | [] => rfl
  | node :: nodes => by
      rw [storedAll, nodesOf, nodesOf, nodesBelow_stored node, nodesOf_storedAll nodes]

end

/-- The count is the number of nodes below the root, as a `size_t`. -/
def CountRight (tree : DirectoryTree) : Prop :=
  tree.nodeCount = UInt64.ofNat (nodesBelow tree.root)

instance decidableCountRight (tree : DirectoryTree) : Decidable tree.CountRight :=
  inferInstanceAs (Decidable (_ = _))

/-- It is, and is again in the tree that is read back. -/
structure CountsNodes (tree : DirectoryTree) : Prop where
  now : tree.CountRight
  restored : tree.serialize.length < 2 ^ 64 →
    (deserialize tree.serialize).2 = none ∧ (deserialize tree.serialize).1.CountRight

theorem countsNodes_iff {tree : DirectoryTree} : tree.CountsNodes ↔ tree.CountRight := by
  constructor
  · intro h
    exact h.now
  · intro h
    refine ⟨h, ?_⟩
    intro hfits
    rw [deserialize_serialize tree hfits, CountRight]
    simp only
    rw [nodesBelow_stored]
    exact ⟨trivial, h⟩

/-- What is removed has no nodes below it, counted as a `size_t`. -/
def RemovesNoSubtree (tree : DirectoryTree) : Op → Prop
  | .insert _ => True
  | .remove path =>
      splitPath path ≠ [] → ∀ gone, tree.find path = some gone → UInt64.ofNat (nodesBelow gone) = 0

theorem countRight_insert {tree : DirectoryTree} (h : tree.CountRight) {entry : ArchiveEntry}
    (hroot : ¬ IsRoot entry.path) : (tree.next (.insert entry)).CountRight := by
  by_cases hparts : splitPath entry.path = []
  · rw [next, insert_of_no_components hroot hparts]
    exact h
  · have hinsert : (tree.insert entry).1
        = { root := insertParts entry (splitPath entry.path) tree.root
            nodeCount := tree.nodeCount
              + UInt64.ofNat (createdNodes entry (splitPath entry.path) tree.root) } := by
      rw [insert, if_neg (show ¬ (_ ∨ _) from hroot)]
      simp only
      rw [if_neg hparts]
    rw [next, hinsert, CountRight, nodesBelow_insertParts, UInt64.ofNat_add, h]

theorem countRight_remove_iff {tree : DirectoryTree} (h : tree.CountRight) {path : Bytes}
    (hroot : ¬ IsRoot path) :
    (tree.next (.remove path)).CountRight ↔ RemovesNoSubtree tree (.remove path) := by
  unfold RemovesNoSubtree
  simp only
  rw [find_eq_findParts]
  cases hleft : removeParts (splitPath path) tree.root with
  | none =>
      rw [next, remove_of_absent hroot hleft]
      refine iff_of_true h ?_
      intro hparts gone hgone
      obtain ⟨left, hsome⟩ := removeParts_isSome hparts hgone
      rw [hleft] at hsome
      exact (Option.some_ne_none left hsome.symm).elim
  | some left =>
      obtain ⟨gone, hgone, hcount⟩ := nodesBelow_removeParts hleft
      have hparts : splitPath path ≠ [] := by
        intro hnil
        rw [hnil, removeParts] at hleft
        exact Option.some_ne_none left hleft.symm
      have hbefore : tree.nodeCount - 1
          = UInt64.ofNat (nodesBelow left) + UInt64.ofNat (nodesBelow gone) := by
        rw [h, hcount, UInt64.ofNat_add, UInt64.ofNat_add]
        exact UInt64.add_sub_cancel _ _
      rw [next, remove_of_left hroot hleft, CountRight, hgone]
      simp only
      rw [hbefore, UInt64.add_eq_left]
      constructor
      · rintro hzero _ other hother
        rw [← Option.some.inj hother]
        exact hzero
      · intro hall
        exact hall hparts gone rfl

theorem countsNodes_next_iff {tree : DirectoryTree} (h : tree.CountRight) {op : Op}
    (hroot : ¬ IsRoot op.path) : (tree.next op).CountsNodes ↔ RemovesNoSubtree tree op := by
  rw [countsNodes_iff]
  cases op with
  | insert entry => exact iff_of_true (countRight_insert h hroot) trivial
  | remove path => exact countRight_remove_iff h hroot

/-- **The count of the nodes.** Over the insertions and removals of paths other than the root it stays
right exactly as long as nothing is removed that has nodes below it. -/
theorem counts_run {ops : List Op} (hpaths : ∀ op ∈ ops, ¬ IsRoot op.path) :
    Runs.Along (fun tree op after => next tree op = after) (fun tree op => (tree.next op).CountsNodes)
        {} ops
      ↔ Runs.Along (fun tree op after => next tree op = after) RemovesNoSubtree {} ops := by
  have hempty : CountRight {} := rfl
  refine Runs.along_iff_of_side CountRight ?_ ?_ hempty (Runs.along_of_forall hpaths _)
  · intro tree op h hroot
    exact countsNodes_next_iff h hroot
  · rintro tree op after h hroot hcondition rfl
    exact countsNodes_iff.mp ((countsNodes_next_iff h hroot).mpr hcondition)

theorem counts_run_of_siblings :
    let ops : List Op := [.insert { id := 1, path := [0x61, 0x2F, 0x62] },
      .insert { id := 7, path := [0x61, 0x2F, 0x63] }, .remove [0x61, 0x2F, 0x62]]
    Runs.Along (fun tree op after => next tree op = after) (fun tree op => (tree.next op).CountsNodes)
        {} ops
      ↔ Runs.Along (fun tree op after => next tree op = after) RemovesNoSubtree {} ops :=
  counts_run (by decide)

/-- Removing the directory `a` of `a/b` leaves a count of one and no nodes. -/
theorem not_counts_of_subtree :
    ¬ Runs.Along (fun tree op after => next tree op = after)
        (fun tree op => (tree.next op).CountsNodes) {}
        [.insert { id := 1, path := [0x61, 0x2F, 0x62] }, .remove [0x61]] := by
  intro h
  have hcount := (h.2 _ rfl).1.now
  exact absurd hcount (by decide)

end DirectoryTree

end NebulaFS
