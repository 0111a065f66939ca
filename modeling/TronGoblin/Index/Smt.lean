import Mathlib.Data.List.Sort
import TronGoblin.Chainbase.Backend
import TronGoblin.Lib.Assoc

/-!
# The commitment tree

Model of `tron-index/src/commitment/smt.rs`: a sparse Merkle tree of 256 levels over hashed keys.  The
backend stores the leaves, and of the inner nodes only those with leaves on both sides; every other
node is derived from the leaves when it is read.

* `maskPrefix`, `siblingPrefix`: the path of a node, by its bytes.
* `readSubtreeHash`: a stored node, or one derived from the leaves below it.
* `Smt.apply`: a batch of changes: the new root and the rows to write, computed level by level.
-/

namespace TronGoblin.Commitment

open Assoc (Table)

/-- A digest, for every node and the root. -/
abbrev NodeHash := Vector UInt8 32

/-- The path of a leaf: the hash of its store and key. -/
abbrev LeafPath := Vector UInt8 32

/-- Level 0 is the root, level 256 a leaf slot. -/
def DEPTH : Nat := 256

def LEAF_PREFIX : UInt8 := 0x00

def INTERNAL_PREFIX : UInt8 := 0x01

def zeroes : Vector UInt8 32 := Vector.replicate 32 0

/-! ## Paths -/

/-- A bit of a byte, the most significant one first. -/
def byteBit (b : UInt8) (k : Nat) : Bool := (b >>> UInt8.ofNat (7 - k)) &&& 1 == 1

def bitMask (k : Nat) : UInt8 := 1 <<< UInt8.ofNat (7 - k)

/-- Bit `i` of a path, the most significant one first. -/
def pathBit (path : LeafPath) (i : Nat) : Bool := byteBit (path[i / 8]?.getD 0) (i % 8)

/-- The path of the node at `level`: the bits below the top `level` ones are zero. -/
def maskPrefix (path : LeafPath) (level : Nat) : LeafPath :=
  if DEPTH ≤ level then path
  else
    let fullBytes := level / 8
    let remBits := level % 8
    if remBits = 0 then path.mapIdx fun j b => if fullBytes ≤ j then 0 else b
    else
      let keepMask : UInt8 := 0xff <<< UInt8.ofNat (8 - remBits)
      path.mapIdx fun j b =>
        if j = fullBytes then b &&& keepMask else if fullBytes + 1 ≤ j then 0 else b

def flipBit (path : LeafPath) (level : Nat) : LeafPath :=
  path.mapIdx fun j b => if j = level / 8 then b ^^^ bitMask (level % 8) else b

def setBit (path : LeafPath) (level : Nat) : LeafPath :=
  path.mapIdx fun j b => if j = level / 8 then b ||| bitMask (level % 8) else b

/-- The sibling of the path's node at `level + 1`. -/
def siblingPrefix (path : LeafPath) (level : Nat) : LeafPath :=
  flipBit (maskPrefix path (level + 1)) level

/-! ## Hashes -/

variable (keccak256 : Bytes → NodeHash)

def hashLeaf (path : LeafPath) (valueHash : NodeHash) : NodeHash :=
  keccak256 (LEAF_PREFIX :: path.toList ++ valueHash.toList)

def hashInternalRaw (left right : NodeHash) : NodeHash :=
  keccak256 (INTERNAL_PREFIX :: left.toList ++ right.toList)

/-- The hash of an empty subtree of a given height. -/
def emptyHash : Nat → NodeHash
  | 0 => zeroes
  | h + 1 => hashInternalRaw keccak256 (emptyHash h) (emptyHash h)

/-- `default_hashes()[level]`. -/
def defaultHash (level : Nat) : NodeHash := emptyHash keccak256 (DEPTH - level)

/-- `EMPTY_ROOT`, which the source also has as a constant. -/
def emptyRoot : NodeHash := defaultHash keccak256 0

/-- The hash of a node; one with two empty children is empty itself. -/
def hashInternal (level : Nat) (left right : NodeHash) : NodeHash :=
  if left = defaultHash keccak256 (level + 1) ∧ right = defaultHash keccak256 (level + 1) then
    defaultHash keccak256 level
  else hashInternalRaw keccak256 left right

/-! ## The backend -/

inductive NodeOp
  | putLeaf (path : LeafPath) (hash : NodeHash)
  | deleteLeaf (path : LeafPath)
  | putNode (level : Nat) (path : LeafPath) (hash : NodeHash)
  | deleteNode (level : Nat) (path : LeafPath)
  deriving DecidableEq

/-- What `NodeBackend` stores. -/
structure Backend where
  leaves : Table LeafPath NodeHash
  nodes : Table (Nat × LeafPath) NodeHash

def pathLe (p q : LeafPath) : Bool := decide (p.toList ≤ q.toList)

def inOrder {β : Type} (m : Table LeafPath β) : List (LeafPath × β) :=
  (m.entries.map fun e => (e.1, e.2)).insertionSort fun a b => pathLe a.1 b.1 = true

namespace Backend

variable (b : Backend)

def empty : Backend := ⟨∅, ∅⟩

variable (level : Nat)

def getNode (path : LeafPath) : Option NodeHash :=
  b.nodes.lookup (level, maskPrefix path level)

def getLeaf (path : LeafPath) : Option NodeHash := b.leaves.lookup path

/-- The first leaves below a node, in the order of their paths. -/
def leavesUnder (path : LeafPath) (limit : Nat) : List (LeafPath × NodeHash) :=
  ((inOrder b.leaves).filter fun e => maskPrefix e.1 level = maskPrefix path level).take limit

def writeNode (b : Backend) (op : NodeOp) : Backend :=
  match op with
  | .putLeaf path hash => { b with leaves := b.leaves.insert path hash }
  | .deleteLeaf path => { b with leaves := b.leaves.erase path }
  | .putNode level path hash => { b with nodes := b.nodes.insert (level, maskPrefix path level) hash }
  | .deleteNode level path => { b with nodes := b.nodes.erase (level, maskPrefix path level) }

def writeNodes (ops : List NodeOp) : Backend := ops.foldl writeNode b

/-- A leaf hashed up to the level `DEPTH - h` against empty siblings. -/
def spineHash (path : LeafPath) (valueHash : NodeHash) : Nat → NodeHash
  | 0 => hashLeaf keccak256 path valueHash
  | h + 1 =>
    let j := DEPTH - (h + 1)
    let hash := spineHash path valueHash h
    if pathBit path j then hashInternal keccak256 j (defaultHash keccak256 (j + 1)) hash
    else hashInternal keccak256 j hash (defaultHash keccak256 (j + 1))

/-- `read_subtree_hash` at the level `DEPTH - h`. -/
def readAtHeight : Nat → LeafPath → Option NodeHash
  | 0, path => (b.getLeaf path).map (hashLeaf keccak256 path)
  | h + 1, path =>
    let level := DEPTH - (h + 1)
    let canon := maskPrefix path level
    match b.getNode level canon with
    | some hash => some hash
    | none =>
      match b.leavesUnder level canon 2 with
      | [] => none
      | [leaf] => some (spineHash keccak256 leaf.1 leaf.2 (h + 1))
      | _ =>
        let child0 := maskPrefix canon (level + 1)
        let child1 := setBit child0 level
        let left := (readAtHeight h child0).getD (defaultHash keccak256 (level + 1))
        let right := (readAtHeight h child1).getD (defaultHash keccak256 (level + 1))
        some (hashInternal keccak256 level left right)

def readSubtreeHash (path : LeafPath) : Option NodeHash :=
  b.readAtHeight keccak256 (DEPTH - level) path

end Backend

/-! ## Batches -/

/-- A new value for a leaf; without one the leaf is removed. -/
abbrev Change := LeafPath × Option NodeHash

def lastChanges (changes : List Change) : Table LeafPath (Option NodeHash) :=
  changes.foldl (fun m c => m.insert c.1 c.2) ∅

/-- What the loop over the changed leaves collects. -/
structure LeafPhase where
  ops : List NodeOp
  current : Table LeafPath NodeHash
  hasDeletes : Bool

def changeLeaf (b : Backend) (st : LeafPhase) (c : Change) : LeafPhase :=
  match c.2 with
  | some newHash =>
    { st with
      ops := if b.getLeaf c.1 ≠ some newHash then st.ops ++ [.putLeaf c.1 newHash] else st.ops
      current := st.current.insert c.1 (hashLeaf keccak256 c.1 newHash) }
  | none =>
    { ops := if (b.getLeaf c.1).isSome then st.ops ++ [.deleteLeaf c.1] else st.ops
      current := st.current.insert c.1 (defaultHash keccak256 DEPTH)
      hasDeletes := st.hasDeletes || (b.getLeaf c.1).isSome }

/-- What the loop over the nodes of one level collects. -/
structure LevelPhase where
  parents : Table LeafPath NodeHash
  ops : List NodeOp

/-- The hash of the sibling of a path's node at `level + 1`: one of this batch, or one to be read. -/
def siblingHash (b : Backend) (level : Nat) (current : Table LeafPath NodeHash) (path : LeafPath) : NodeHash :=
  let sib := siblingPrefix path level
  match current.lookup sib with
  | some hash => hash
  | none =>
    (b.readSubtreeHash keccak256 (level + 1) sib).getD (defaultHash keccak256 (level + 1))

/-- The parent of a changed path's node; there is none to compute if it was computed for another path.
The node itself has to be among the ones of the level below. -/
def buildParent (b : Backend) (hasDeletes : Bool) (level : Nat) (current : Table LeafPath NodeHash)
    (st : LevelPhase) (path : LeafPath) : Option LevelPhase :=
  let parent := maskPrefix path level
  if (st.parents.lookup parent).isSome then some st
  else do
    let ownHash ← current.lookup (maskPrefix path (level + 1))
    let empty := defaultHash keccak256 (level + 1)
    let sibHash := siblingHash keccak256 b level current path
    let left := if pathBit path level then sibHash else ownHash
    let right := if pathBit path level then ownHash else sibHash
    let parentHash := hashInternal keccak256 level left right
    let ops :=
      if left ≠ empty ∧ right ≠ empty then st.ops ++ [.putNode level parent parentHash]
      else if hasDeletes then st.ops ++ [.deleteNode level parent]
      else st.ops
    return ⟨st.parents.insert parent parentHash, ops⟩

/-- The levels below `n`, from the deepest one up. -/
def foldUp (b : Backend) (hasDeletes : Bool) (paths : List LeafPath) :
    Nat → LevelPhase → Option LevelPhase
  | 0, st => some st
  | level + 1, st => do
    let st ← paths.foldlM (buildParent keccak256 b hasDeletes level st.parents) ⟨∅, st.ops⟩
    foldUp b hasDeletes paths level st

structure Smt where
  backend : Backend
  root : NodeHash

/-- `Smt::open` over an empty backend. -/
def Smt.fresh : Smt := ⟨.empty, emptyRoot keccak256⟩

/-- `apply`: the new root and the rows to write, if no node was missing on the way. -/
def Smt.apply (s : Smt) (changes : List Change) : Option (NodeHash × List NodeOp) := do
  let final := inOrder (lastChanges changes)
  let leafPhase := final.foldl (changeLeaf keccak256 s.backend) ⟨[], ∅, false⟩
  let st ← foldUp keccak256 s.backend leafPhase.hasDeletes (final.map (·.1)) DEPTH
    ⟨leafPhase.current, leafPhase.ops⟩
  return (((inOrder st.parents).head?.map (·.2)).getD s.root, st.ops)

/-- A batch, followed by writing its rows. -/
def Smt.step (s : Smt) (changes : List Change) : Option Smt := do
  let (root, ops) ← s.apply keccak256 changes
  return ⟨s.backend.writeNodes ops, root⟩

def run (batches : List (List Change)) : Option Smt :=
  batches.foldlM (Smt.step keccak256) (Smt.fresh keccak256)

def Smt.rootFromBackend (s : Smt) : NodeHash :=
  (s.backend.readSubtreeHash keccak256 0 zeroes).getD (emptyRoot keccak256)

end TronGoblin.Commitment
