import NebulaFS.BTree
import NebulaFS.VarInt

/-!
# The iterator and the codec of `index::BTree`

The iterator of `index/BTree.hpp` stands on a stack of nodes. The position in an inner node counts
children and keys in turn, from the first child on. Below it is the codec of `index/BTree.cpp` for the one
instance there is, from `uint64_t` to `IndexEntry`. A node that cannot be decoded is a null pointer, and
`deserialize` hands that over as the root.
-/

namespace NebulaFS

open Cursor

instance linearOrderUInt64 : LinearOrder UInt64 where
  le_refl := UInt64.le_refl
  le_trans _ _ _ := UInt64.le_trans
  lt_iff_le_not_ge a b := by
    rw [UInt64.lt_iff_toNat_lt, UInt64.le_iff_toNat_le, UInt64.le_iff_toNat_le]
    omega
  le_antisymm _ _ := UInt64.le_antisymm
  le_total := UInt64.le_total
  toDecidableLE := inferInstance

namespace BTree

variable {κ ν : Type}

/-! ### The iterator -/

/-- The back of `stack_` comes first. -/
structure Iterator (κ ν : Type) where
  stack : List (Node κ ν × Nat) := []

namespace Iterator

/-- The loop of the constructor, from the frame at the back of the stack down to a leaf. -/
def descend : (fuel : Nat) → List (Node κ ν × Nat) → Access (List (Node κ ν × Nat))
  | 0, _ => .error .outOfFuel
  | _ + 1, [] => .error .outOfBounds
  | fuel + 1, (node, pos) :: below =>
      if node.isLeaf then .ok ((node, pos) :: below)
      else if pos % 2 = 0 ∧ pos / 2 < node.children.length then do
        let child ← get node.children (pos / 2)
        descend fuel ((child, 0) :: (node, pos) :: below)
      else .ok ((node, pos) :: below)

/-- The loop of `advance`. With a frame that stays it does what the constructor does. -/
def advanceStack : List (Node κ ν × Nat) → Access (List (Node κ ν × Nat))
  | [] => .ok []
  | (node, pos) :: below =>
      let pos := pos + 1
      let maxPos :=
        if node.isLeaf then node.keys.length else node.children.length + node.keys.length
      if maxPos ≤ pos then advanceStack below else descend node.depth ((node, pos) :: below)

def advance (it : Iterator κ ν) : Access (Iterator κ ν) := do
  let stack ← advanceStack it.stack
  return { stack := stack }

/-- `operator*`. -/
def current (it : Iterator κ ν) : Access (κ × ν) :=
  match it.stack with
  | [] => .error .outOfBounds
  | (node, pos) :: _ => do
      let keyIdx := if node.isLeaf then pos else pos / 2
      let key ← get node.keys keyIdx
      let value ← get node.values keyIdx
      return (key, value)

/-- `it == end()`: the stack of `end()` is empty, and stacks of different sizes differ. -/
def atEnd (it : Iterator κ ν) : Bool := it.stack.isEmpty

end Iterator

def begin (tree : BTree κ ν) : Access (Iterator κ ν) := do
  let stack ← Iterator.descend tree.root.depth [(tree.root, 0)]
  return { stack := stack }

/-! ### Encoding -/

def serializePairs : List UInt64 → List IndexEntry → Access Bytes
  | [], _ => .ok []
  | _ :: _, [] => .error .outOfBounds
  | key :: keys, value :: values => do
      let rest ← serializePairs keys values
      return VarInt.encode key ++ (VarInt.encode value.entryId ++ (VarInt.encode value.offset
        ++ (VarInt.encode value.size ++ (value.checksum.toList ++ rest))))

mutual

def serializeNode : Node UInt64 IndexEntry → Access Bytes
  | ⟨keys, values, children, isLeaf⟩ => do
      let pairs ← serializePairs keys values
      let below ← if isLeaf then pure [] else serializeNodes children
      return VarInt.encode (UInt64.ofNat keys.length) ++ (VarInt.encode (if isLeaf then 1 else 0)
        ++ (pairs ++ below))

def serializeNodes : List (Node UInt64 IndexEntry) → Access Bytes
  | [] => .ok []
  | node :: nodes => do
      let first ← serializeNode node
      let rest ← serializeNodes nodes
      return first ++ rest

end

def serialize (tree : BTree UInt64 IndexEntry) : Access Bytes := do
  let root ← serializeNode tree.root
  return VarInt.encode (UInt64.ofNat tree.order) ++ (VarInt.encode (UInt64.ofNat tree.size) ++ root)

/-! ### Decoding -/

/-- The checksum of a pair. Where fewer than 32 bytes are left it stays zero, and none are consumed. -/
def readChecksum (data : Bytes) (offset : Nat) : Read ChecksumValue :=
  if offset + 32 ≤ data.length then readArr 32 data offset else .ok (zeroArr 32, offset)

def readPair (data : Bytes) (offset : Nat) :
    Except (Fault ErrorCode) ((UInt64 × IndexEntry) × Nat) := do
  let (key, offset) ← readVarInt .corruptIndex data offset
  let (entryId, offset) ← readVarInt .corruptIndex data offset
  let (entryOffset, offset) ← readVarInt .corruptIndex data offset
  let (size, offset) ← readVarInt .corruptIndex data offset
  let (checksum, offset) ← readChecksum data offset
  return ((key, { entryId := entryId, offset := entryOffset, size := size, checksum := checksum }),
    offset)

/-- `deserializeNode`. A null pointer is the error `corruptIndex`; `reserves` says for which orders the
constructor of a node gets its memory, and what it throws for the others is `outOfMemory`. The recursion
is over the depth of the encoded tree, which is less than the number of bytes left. -/
def deserializeNode (reserves : Nat → Bool) (order : Nat) (data : Bytes) :
    (fuel : Nat) → Nat → Except (Fault ErrorCode) (Node UInt64 IndexEntry × Nat)
  | 0, _ => .error .outOfFuel
  | fuel + 1, offset => do
      let (numKeys, offset) ← readVarInt .corruptIndex data offset
      let (isLeaf, offset) ← readVarInt .corruptIndex data offset
      require (reserves order) .outOfMemory
      let (pairs, offset) ← (readMany (readPair data) numKeys.toNat offset).mapError Prod.snd
      let node : Node UInt64 IndexEntry :=
        { keys := pairs.map Prod.fst, values := pairs.map Prod.snd, isLeaf := isLeaf ≠ 0 }
      if node.isLeaf then return (node, offset)
      else do
        let (children, offset) ←
          (readMany (deserializeNode reserves order data fuel) (numKeys.toNat + 1) offset).mapError
            Prod.snd
        return ({ node with children := children }, offset)

end BTree

/-- An `index::BTree` whose `root_` can be null. -/
structure LoadedBTree where
  order : Nat
  size : Nat := 0
  root : Option (BTree.Node UInt64 IndexEntry) := some {}

namespace LoadedBTree

def find (tree : LoadedBTree) (key : UInt64) : BTree.Access (Option IndexEntry) :=
  match tree.root with
  | none => .error .outOfBounds
  | some root => BTree.findInternal key root.depth root

/-- The root becomes what `deserializeNode` returned, a null pointer too. -/
def setRoot (tree : LoadedBTree) :
    Except (Fault ErrorCode) (BTree.Node UInt64 IndexEntry × Nat) → Option (LoadedBTree × Status)
  | .ok (root, _) => some ({ tree with root := some root }, none)
  | .error (.returned .outOfMemory) => none
  | .error (.returned _) => some ({ tree with root := none }, none)
  | .error e => some (tree, some e)

/-- `deserialize` into `tree`, and nothing where an exception leaves it. -/
def deserialize (reserves : Nat → Bool) (tree : LoadedBTree) (data : Bytes) :
    Option (LoadedBTree × Status) :=
  match readVarInt .corruptIndex data 0 with
  | .error e => some (tree, some e)
  | .ok (order, offset) =>
      let tree := { tree with order := order.toNat }
      match readVarInt .corruptIndex data offset with
      | .error e => some (tree, some e)
      | .ok (size, offset) =>
          let tree := { tree with size := size.toNat }
          tree.setRoot (BTree.deserializeNode reserves tree.order data (data.length + 1) offset)

end LoadedBTree

end NebulaFS
