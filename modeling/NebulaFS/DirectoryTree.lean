import NebulaFS.VarInt

/-!
# The directory tree

`filesystem/DirectoryTree.cpp`. A path is split into its components, and the tree is walked from the
root by the first child of each name. `insert` walks over all components but the last, making the
directories that are missing, and appends a node for the last one whether or not there is one of that
name already. A directory it makes gets the id after the inserted entry's own.

The walks of `insert` and `remove` over mutable references are `insertParts` and `removeParts`, which
rebuild the nodes on the way.
-/

namespace NebulaFS

open Cursor

def slash : UInt8 := 0x2F

/-- `FileResolver::fileName`: what follows the last slash. -/
def fileName (path : Bytes) : Bytes :=
  if path = [slash] ∨ path = [] then []
  else (path.reverse.takeWhile (· ≠ slash)).reverse

structure DirectoryTree where
  root : DirectoryNode := {}
  nodeCount : UInt64 := 0
deriving Inhabited

namespace DirectoryTree

def isComponent (part : Bytes) : Bool :=
  part ≠ [] && part ≠ [0x2E] && part ≠ [0x2E, 0x2E]

def splitPath (path : Bytes) : List Bytes :=
  (path.splitOn slash).filter isComponent

def normalizePath (path : Bytes) : Bytes :=
  let parts := splitPath path
  if parts = [] then [slash] else parts.flatMap (slash :: ·)

def findChild (parent : DirectoryNode) (name : Bytes) : Option DirectoryNode :=
  parent.children.find? (·.name = name)

def findParts : List Bytes → DirectoryNode → Option DirectoryNode
  | [], node => some node
  | part :: parts, node =>
      match findChild node part with
      | none => none
      | some child => findParts parts child

def find (tree : DirectoryTree) (path : Bytes) : Option DirectoryNode :=
  if path = [slash] ∨ path = [] then some tree.root else findParts (splitPath path) tree.root

/-- `DirectoryTree::exists`. -/
def pathExists (tree : DirectoryTree) (path : Bytes) : Bool :=
  (tree.find path).isSome

def listDirectory (tree : DirectoryTree) (path : Bytes) : List EntryID :=
  match tree.find path with
  | none => []
  | some node => node.children.map (·.id)

/-! ### Insertion -/

def leaf (entry : ArchiveEntry) (name : Bytes) (parent : DirectoryNode) : DirectoryNode :=
  { name := name
    id := entry.id
    parentId := parent.id
    modifiedAt := entry.modifiedAt
    permissions := entry.permissions }

def implicitDirectory (entry : ArchiveEntry) (name : Bytes) (parent : DirectoryNode) :
    DirectoryNode :=
  { name := name, id := entry.id + 1, parentId := parent.id }

def updateChild (name : Bytes) (fresh : DirectoryNode) (update : DirectoryNode → DirectoryNode) :
    List DirectoryNode → List DirectoryNode
  | [] => [update fresh]
  | child :: children =>
      if child.name = name then update child :: children
      else child :: updateChild name fresh update children

def insertParts (entry : ArchiveEntry) : List Bytes → DirectoryNode → DirectoryNode
  | [], current => current
  | [part], current =>
      { current with
        files := if entry.type ≠ .directory then current.files ++ [entry.id] else current.files
        children := current.children ++ [leaf entry part current] }
  | part :: next :: parts, current =>
      { current with
        children := updateChild part (implicitDirectory entry part current)
          (insertParts entry (next :: parts)) current.children }

def createdNodes (entry : ArchiveEntry) : List Bytes → DirectoryNode → Nat
  | [], _ => 0
  | [_], _ => 1
  | part :: next :: parts, current =>
      match findChild current part with
      | none =>
          createdNodes entry (next :: parts) (implicitDirectory entry part current) + 1
      | some child => createdNodes entry (next :: parts) child

/-- The root path replaces the root's own data and counts the tree as one node. -/
def insertRoot (tree : DirectoryTree) (entry : ArchiveEntry) : DirectoryTree :=
  { root :=
      { tree.root with
        name := [slash]
        id := entry.id
        parentId := 0
        modifiedAt := entry.modifiedAt
        permissions := entry.permissions
        files :=
          if entry.type = .file ∨ entry.type = .block then tree.root.files ++ [entry.id]
          else tree.root.files }
    nodeCount := 1 }

def insert (tree : DirectoryTree) (entry : ArchiveEntry) : DirectoryTree × Status :=
  if entry.path = [] ∨ entry.path = [slash] then (tree.insertRoot entry, none)
  else
    let parts := splitPath entry.path
    if parts = [] then (tree, some (.returned .invalidPath))
    else
      ({ root := insertParts entry parts tree.root
         nodeCount := tree.nodeCount + UInt64.ofNat (createdNodes entry parts tree.root) }, none)

def clear : DirectoryTree :=
  { root := { name := [slash] }, nodeCount := 0 }

/-! ### Removal -/

/-- The walk of `remove`. The first child of the last name is erased with everything below it, and the
first mention of its id with it. -/
def removeParts : List Bytes → DirectoryNode → Option DirectoryNode
  | [], _ => none
  | [part], current =>
      match findChild current part with
      | none => none
      | some child =>
          some { current with
            children := current.children.eraseP (·.name = part)
            files := current.files.erase child.id }
  | part :: next :: parts, current =>
      match findChild current part with
      | none => none
      | some child =>
          match removeParts (next :: parts) child with
          | none => none
          | some left =>
              some { current with
                children := updateChild part child (fun _ => left) current.children }

def remove (tree : DirectoryTree) (path : Bytes) : DirectoryTree × Bool :=
  if path = [slash] ∨ path = [] then (clear, true)
  else
    match removeParts (splitPath path) tree.root with
    | none => (tree, false)
    | some root => ({ root := root, nodeCount := tree.nodeCount - 1 }, true)

/-! ### The encoding -/

mutual

def serializeNode : DirectoryNode → Bytes
  | ⟨name, id, parentId, children, files, _, _⟩ =>
      VarInt.encode (UInt64.ofNat name.length) ++ (name ++ (VarInt.encode id
        ++ (VarInt.encode parentId ++ (VarInt.encode (UInt64.ofNat files.length)
          ++ (files.flatMap VarInt.encode ++ (VarInt.encode (UInt64.ofNat children.length)
            ++ serializeNodes children))))))

def serializeNodes : List DirectoryNode → Bytes
  | [] => []
  | node :: nodes => serializeNode node ++ serializeNodes nodes

end

def serialize (tree : DirectoryTree) : Bytes :=
  VarInt.encode tree.nodeCount ++ serializeNode tree.root

/-- An early return out of a node leaves what was filled in of it. -/
def leaving {α : Type} (node : DirectoryNode) :
    Except (Fault ErrorCode) α → Except (DirectoryNode × Fault ErrorCode) α
  | .ok value => .ok value
  | .error e => .error (node, e)

/-- `deserializeNode` into `node`. The recursion is over the depth of the encoded tree, which is less
than the number of bytes left. A child that fails is dropped, the ones before it are kept. -/
def deserializeNode (data : Bytes) : (fuel : Nat) → DirectoryNode → Nat →
    Except (DirectoryNode × Fault ErrorCode) (DirectoryNode × Nat)
  | 0, node, _ => .error (node, .outOfFuel)
  | fuel + 1, node, offset => do
      let (nameLen, offset) ← leaving node (readVarInt .corruptDirectory data offset)
      leaving node (require ((offset + nameLen.toNat) % wordSize ≤ data.length) .corruptDirectory)
      let (name, offset) ← leaving node (readRange data offset nameLen.toNat)
      let node := { node with name := name }
      let (id, offset) ← leaving node (readVarInt .corruptDirectory data offset)
      let node := { node with id := id }
      let (parentId, offset) ← leaving node (readVarInt .corruptDirectory data offset)
      let node := { node with parentId := parentId }
      let (fileCount, offset) ← leaving node (readVarInt .corruptDirectory data offset)
      match readMany (readVarInt .corruptDirectory data) fileCount.toNat offset with
      | .error (files, e) => .error ({ node with files := node.files ++ files }, e)
      | .ok (files, offset) =>
          let node := { node with files := node.files ++ files }
          let (childCount, offset) ← leaving node (readVarInt .corruptDirectory data offset)
          match readMany (deserializeNode data fuel {}) childCount.toNat offset with
          | .error (children, _, e) =>
              .error ({ node with children := node.children ++ children }, e)
          | .ok (children, offset) =>
              .ok ({ node with children := node.children ++ children }, offset)

def deserialize (data : Bytes) : DirectoryTree × Status :=
  match readVarInt .corruptDirectory data 0 with
  | .error e => (clear, some e)
  | .ok (count, offset) =>
      match deserializeNode data (data.length + 1) clear.root offset with
      | .error (root, e) => ({ root := root, nodeCount := count }, some e)
      | .ok (root, _) => ({ root := root, nodeCount := count }, none)

end DirectoryTree

end NebulaFS
