import NebulaFS.Lib.SortedWalk
import NebulaFS.Types

/-!
# The two B-trees

`index/BTree.cpp` and `filesystem/BTree.cpp`. The two classes look up, split and insert word for word
alike, and they merge and borrow alike; they differ in `fillChild`, `removeInternal` and `remove`. A
node is a value here, so a routine that changes a node in place returns the changed one. What the source
reads with `[]`, `front` or `back` is an access that can lie outside. The constructor of a node reserves
`order - 1` keys, so that an order of zero does not get past it.
-/

namespace NebulaFS

open SortedWalk

/-- What `std::optional::value` throws on an empty optional. -/
structure BadOptionalAccess where
deriving DecidableEq

namespace BTree

abbrev Access := Except (Fault BadOptionalAccess)

structure Node (κ ν : Type) where
  keys : List κ := []
  values : List ν := []
  children : List (Node κ ν) := []
  isLeaf : Bool := true

end BTree

structure BTree (κ ν : Type) where
  order : Nat
  root : BTree.Node κ ν := {}
  size : Nat := 0

namespace BTree

variable {κ ν α : Type}

/-! ### Vectors -/

def get (items : List α) (i : Nat) : Access α :=
  match items[i]? with
  | some item => .ok item
  | none => .error .outOfBounds

def back (items : List α) : Access α :=
  match items.getLast? with
  | some item => .ok item
  | none => .error .outOfBounds

/-! ### Walking -/

mutual

def Node.depth : Node κ ν → Nat
  | ⟨_, _, children, _⟩ => depths children + 1

def depths : List (Node κ ν) → Nat
  | [] => 0
  | node :: nodes => max node.depth (depths nodes)

end

mutual

/-- The pairs in the order of the walk. -/
def Node.inOrder : Node κ ν → List (κ × ν)
  | ⟨keys, values, children, isLeaf⟩ =>
      if isLeaf then keys.zip values else interleave (inOrders children) (keys.zip values)

def inOrders : List (Node κ ν) → List (List (κ × ν))
  | [] => []
  | node :: nodes => node.inOrder :: inOrders nodes

end

def inOrder (tree : BTree κ ν) : List (κ × ν) := tree.root.inOrder

/-! ### Splitting, merging and borrowing -/

/-- `child` is the child of `parent` at `index`. -/
def splitChild (order : Nat) (parent : Node κ ν) (index : Nat) : Access (Node κ ν) := do
  let mid := (order - 1) / 2
  let child ← get parent.children index
  let midKey ← get child.keys mid
  let midValue ← get child.values mid
  let newChild : Node κ ν :=
    { keys := child.keys.drop (mid + 1)
      values := child.values.drop (mid + 1)
      children := if child.isLeaf then [] else child.children.drop (mid + 1)
      isLeaf := child.isLeaf }
  let child :=
    { child with
      keys := child.keys.take mid
      values := child.values.take mid
      children := if child.isLeaf then child.children else child.children.take (mid + 1) }
  return { parent with
    keys := parent.keys.insertIdx index midKey
    values := parent.values.insertIdx index midValue
    children := (parent.children.set index child).insertIdx (index + 1) newChild }

def lastKey : (fuel : Nat) → Node κ ν → Access κ
  | 0, _ => .error .outOfFuel
  | fuel + 1, current =>
      if current.isLeaf then back current.keys
      else do
        let child ← back current.children
        lastKey fuel child

def getPredecessor (node : Node κ ν) (index : Nat) : Access κ := do
  let current ← get node.children index
  lastKey current.depth current

def mergeChildren (node : Node κ ν) (index : Nat) : Access (Node κ ν) := do
  let child ← get node.children index
  let sibling ← get node.children (index + 1)
  let key ← get node.keys index
  let value ← get node.values index
  let child :=
    { child with
      keys := child.keys ++ key :: sibling.keys
      values := child.values ++ value :: sibling.values
      children := if child.isLeaf then child.children else child.children ++ sibling.children }
  return { node with
    keys := node.keys.eraseIdx index
    values := node.values.eraseIdx index
    children := (node.children.set index child).eraseIdx (index + 1) }

/-- The child of the sibling that goes over to a child that is no leaf. -/
def movedChild (isLeaf : Bool) (moved : Access (Node κ ν)) : Access (List (Node κ ν)) :=
  if isLeaf then pure [] else (fun moved => [moved]) <$> moved

def borrowFromPrev (node : Node κ ν) (index : Nat) : Access (Node κ ν) := do
  let child ← get node.children index
  let sibling ← get node.children (index - 1)
  let key ← get node.keys (index - 1)
  let value ← get node.values (index - 1)
  let moved ← movedChild child.isLeaf (back sibling.children)
  let lastKey ← back sibling.keys
  let lastValue ← back sibling.values
  let sibling :=
    { sibling with
      keys := sibling.keys.dropLast
      values := sibling.values.dropLast
      children := if child.isLeaf then sibling.children else sibling.children.dropLast }
  let child :=
    { child with
      keys := key :: child.keys
      values := value :: child.values
      children := moved ++ child.children }
  return { node with
    keys := node.keys.set (index - 1) lastKey
    values := node.values.set (index - 1) lastValue
    children := (node.children.set (index - 1) sibling).set index child }

def borrowFromNext (node : Node κ ν) (index : Nat) : Access (Node κ ν) := do
  let child ← get node.children index
  let sibling ← get node.children (index + 1)
  let key ← get node.keys index
  let value ← get node.values index
  let moved ← movedChild child.isLeaf (get sibling.children 0)
  let firstKey ← get sibling.keys 0
  let firstValue ← get sibling.values 0
  let sibling :=
    { sibling with
      keys := sibling.keys.tail
      values := sibling.values.tail
      children := if child.isLeaf then sibling.children else sibling.children.tail }
  let child :=
    { child with
      keys := child.keys ++ [key]
      values := child.values ++ [value]
      children := child.children ++ moved }
  return { node with
    keys := node.keys.set index firstKey
    values := node.values.set index firstValue
    children := (node.children.set (index + 1) sibling).set index child }

/-- Whether `node->children[index]->keys.size()` is enough for a child that exists. -/
def lends (enough : Nat → Bool) (node : Node κ ν) (index : Nat) (present : Bool) : Access Bool :=
  if present then (fun child => enough child.keys.length) <$> get node.children index else pure false

/-- `mergeChildren(node, index - 1)`. For the first child the index wraps around. -/
def mergeWithPrev (node : Node κ ν) (index : Nat) : Access (Node κ ν) :=
  if index = 0 then .error .outOfBounds else mergeChildren node (index - 1)

/-- The end of `remove`: a root without keys gives way to its first child. -/
def collapseRoot (root : Node κ ν) : Access (Node κ ν) :=
  if root.keys.isEmpty && !root.isLeaf then get root.children 0 else pure root

def Index.fillChild (order : Nat) (node : Node κ ν) (index : Nat) : Access (Node κ ν) := do
  let minKeys := (order - 1) / 2
  let prev ← lends (minKeys < ·) node (index - 1) (0 < index)
  let next ← lends (minKeys < ·) node (index + 1) (index + 1 < node.children.length)
  if prev then borrowFromPrev node index
  else if next then borrowFromNext node index
  else if index + 1 = node.children.length then mergeWithPrev node index
  else mergeChildren node index

def Filesystem.fillChild (order : Nat) (node : Node κ ν) (index : Nat) : Access (Node κ ν) := do
  let prev ← lends ((order - 1) / 2 ≤ ·) node (index - 1) (0 < index)
  let next ← lends ((order - 1) / 2 ≤ ·) node (index + 1) (index + 1 < node.children.length)
  if prev then borrowFromPrev node index
  else if next then borrowFromNext node index
  else if index + 1 < node.children.length then mergeChildren node index
  else mergeWithPrev node index

/-! ### Looking up -/

variable [LinearOrder κ]

/-- The loop `while (i < keys.size() && key > keys[i]) ++i`. -/
def scan (keys : List κ) (key : κ) : Nat := (keys.takeWhile (· < key)).length

def findInternal (key : κ) : (fuel : Nat) → Node κ ν → Access (Option ν)
  | 0, _ => .error .outOfFuel
  | fuel + 1, node =>
      let i := scan node.keys key
      if node.keys[i]? = some key then some <$> get node.values i
      else if node.isLeaf then .ok none
      else do
        let child ← get node.children i
        findInternal key fuel child

def find (tree : BTree κ ν) (key : κ) : Access (Option ν) :=
  findInternal key tree.root.depth tree.root

def contains (tree : BTree κ ν) (key : κ) : Access Bool := Option.isSome <$> tree.find key

/-! ### Inserting -/

/-- A full child is split before the key goes on to one of its halves. -/
def splitIfFull (order : Nat) (key : κ) (node : Node κ ν) (i : Nat) : Access (Node κ ν × Nat) := do
  let child ← get node.children i
  if child.keys.length = order - 1 then
    let node ← splitChild order node i
    let midKey ← get node.keys i
    return (node, if midKey < key then i + 1 else i)
  else return (node, i)

def insertInternal (order : Nat) (key : κ) (value : ν) : (fuel : Nat) → Node κ ν → Access (Node κ ν)
  | 0, _ => .error .outOfFuel
  | fuel + 1, node =>
      let i := scan node.keys key
      if node.isLeaf then
        .ok { node with keys := node.keys.insertIdx i key, values := node.values.insertIdx i value }
      else do
        let (node, i) ← splitIfFull order key node i
        let child ← get node.children i
        let child ← insertInternal order key value fuel child
        return { node with children := node.children.set i child }

/-- A full root is put under a new one and split. -/
def splitRootIfFull (order : Nat) (root : Node κ ν) : Access (Node κ ν) :=
  if root.keys.length = order - 1 then splitChild order { isLeaf := false, children := [root] } 0
  else pure root

def insert (tree : BTree κ ν) (key : κ) (value : ν) : Access (BTree κ ν) := do
  let root ← splitRootIfFull tree.order tree.root
  let root ← insertInternal tree.order key value root.depth root
  return { tree with root := root, size := tree.size + 1 }

/-- `insert` for one pair after the other. -/
def insertAll (tree : BTree κ ν) : List (κ × ν) → Access (BTree κ ν)
  | [] => .ok tree
  | (key, value) :: pairs => do
      let tree ← tree.insert key value
      tree.insertAll pairs

/-! ### `index::BTree` -/

namespace Index

def removeInternal (order : Nat) : (fuel : Nat) → (key : κ) → Node κ ν → Access (Node κ ν × Bool)
  | 0, _, _ => .error .outOfFuel
  | fuel + 1, key, node =>
      let i := scan node.keys key
      if node.keys[i]? = some key then
        if node.isLeaf then
          .ok ({ node with keys := node.keys.eraseIdx i, values := node.values.eraseIdx i }, true)
        else do
          let pred ← getPredecessor node i
          let child ← get node.children i
          let (child, _) ← removeInternal order fuel pred child
          return ({ node with keys := node.keys.set i pred, children := node.children.set i child }, true)
      else if node.isLeaf then .ok (node, false)
      else do
        let node ← fillChild order node i
        let _ ← get node.children i
        let i := if (node.keys[i]?.any (· < key)) then i + 1 else i
        let child ← get node.children i
        let (child, removed) ← removeInternal order fuel key child
        return ({ node with children := node.children.set i child }, removed)

def remove (tree : BTree κ ν) (key : κ) : Access (BTree κ ν × Bool) := do
  if !(← tree.contains key) then return (tree, false)
  let (root, _) ← removeInternal tree.order tree.root.depth key tree.root
  let root ← collapseRoot root
  return ({ tree with root := root, size := tree.size - 1 }, true)

end Index

/-! ### `filesystem::BTree` -/

namespace Filesystem

def removeInternal (order : Nat) : (fuel : Nat) → (key : κ) → Node κ ν → Access (Node κ ν × Bool)
  | 0, _, _ => .error .outOfFuel
  | fuel + 1, key, node =>
      let i := scan node.keys key
      if node.keys[i]? = some key then
        if node.isLeaf then
          .ok ({ node with keys := node.keys.eraseIdx i, values := node.values.eraseIdx i }, true)
        else do
          let pred ← getPredecessor node i
          let child ← get node.children i
          match ← findInternal pred child.depth child with
          | none => .error (.returned ⟨⟩)
          | some value =>
              let (child, removed) ← removeInternal order fuel pred child
              return ({ node with
                keys := node.keys.set i pred
                values := node.values.set i value
                children := node.children.set i child }, removed)
      else if node.isLeaf then .ok (node, false)
      else do
        let node ← fillChild order node i
        let child ← get node.children i
        let (child, removed) ← removeInternal order fuel key child
        return ({ node with children := node.children.set i child }, removed)

def remove (tree : BTree κ ν) (key : κ) : Access (BTree κ ν × Bool) := do
  if tree.size = 0 then return (tree, false)
  let (root, removed) ← removeInternal tree.order tree.root.depth key tree.root
  if removed then
    let root ← collapseRoot root
    return ({ tree with root := root, size := tree.size - 1 }, true)
  else return ({ tree with root := root }, false)

end Filesystem

end BTree

end NebulaFS
