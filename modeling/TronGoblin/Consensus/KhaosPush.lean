import TronGoblin.Consensus.Khaos
import TronGoblin.Lib.BigEndian

/-!
# Growing the fork tree

Model of what changes a `KhaosDb` (`tron-consensus/src/khaos.rs`): `start`, `push_with_raw`,
`take_orphans_waiting_on`, `pop`, `set_head` and `remove`, with the stash of blocks whose parent is
unknown, its index by parent, the wire bytes kept for it, and the pruning window.

* `BlockFormat`: how a block is read: its raw header, if it has one, and the hash of its encoding.
* `pushWithRaw`: links a block, stashes it, or refuses it.
* `Call`, `step`: one call on the tree, for runs.

Parent pointers are weak.  What other code holds is an argument (`held`, by allocation) of the calls
that follow them.  Block numbers are 64-bit; the sum `parent.num + 1` is taken without overflow.
-/

namespace TronGoblin

open Assoc (Table)

variable {B : Type}

/-! ## Blocks -/

/-- What is read of `block_header.raw_data`. -/
structure BlockHeaderRaw where
  number : Int
  parentHash : Bytes
  /-- `encode_to_vec` of the whole message. -/
  encoded : Bytes

structure BlockFormat (B : Type) where
  /-- `none` when the header or its raw data is missing. -/
  headerRaw : B → Option BlockHeaderRaw
  sha256 : Bytes → Bytes

/-- `BlockId::num`: the first 8 bytes. -/
def BlockId.num (id : BlockId) : Nat := BigEndian.decode (id.take 8)

/-- The number as an `i64`. -/
def BlockId.height (id : BlockId) : Int := BigEndian.wrapI64 (BlockId.num id)

def blockIdFromHeaderRaw (fmt : BlockFormat B) (raw : BlockHeaderRaw) : BlockId :=
  BigEndian.encodeI64 raw.number ++ (fmt.sha256 raw.encoded).drop 8

def blockIdFromBlock (fmt : BlockFormat B) (block : B) : Option BlockId :=
  (fmt.headerRaw block).map (blockIdFromHeaderRaw fmt)

/-- A block and the bytes it arrived in. -/
structure WireBlock (B : Type) where
  block : B
  raw : Option Bytes

abbrev WireNode (B : Type) := KhaosNode (WireBlock B)

/-- `KhaosBlock::new_with_raw`, before a parent is set. -/
def KhaosNode.newWithRaw (fmt : BlockFormat B) (serial : Nat) (block : B) (raw : Option Bytes) : Option (WireNode B) :=
  (blockIdFromBlock fmt block).map fun id => ⟨⟨block, raw⟩, id, BlockId.height id, serial⟩

def KhaosNode.parentId (fmt : BlockFormat B) (n : WireNode B) : Option BlockId := do
  let raw ← fmt.headerRaw n.block.block
  if raw.parentHash.length = 32 then some raw.parentHash else none

theorem KhaosNode.newWithRaw_num {fmt : BlockFormat B} {serial : Nat} {block : B}
    {raw : Option Bytes} {n : WireNode B} (h : newWithRaw fmt serial block raw = some n) :
    n.num = BlockId.height n.id := by
  obtain ⟨id, -, heq⟩ := Option.map_eq_some_iff.1 h
  rw [← heq]

theorem KhaosNode.newWithRaw_serial {fmt : BlockFormat B} {serial : Nat} {block : B}
    {raw : Option Bytes} {n : WireNode B} (h : newWithRaw fmt serial block raw = some n) :
    n.serial = serial := by
  obtain ⟨id, -, heq⟩ := Option.map_eq_some_iff.1 h
  rw [← heq]

/-- A block that has no parent pointer. -/
def KhaosBlock.root (n : KhaosNode B) : KhaosBlock B := ⟨n, [], List.isChain_singleton _⟩

/-- A block whose pointer leads to `p`. -/
def KhaosBlock.child (n : KhaosNode B) (p : KhaosBlock B) (h : n.num = p.node.num + 1) : KhaosBlock B :=
  ⟨n, p.node :: p.ancestors, List.isChain_cons_cons.2 ⟨h, p.chain⟩⟩

/-! ## Stores -/

namespace KhaosStore

variable (s : KhaosStore B)

def listed (n : Int) : List (KhaosBlock B) := (s.byNum.lookup n).getD []

/-- Drop a number and the blocks listed there. -/
def dropNum (n : Int) : KhaosStore B where
  byHash := (s.listed n).foldl (fun t b => t.erase b.node.id) s.byHash
  byNum := s.byNum.erase n

def pruneBelow (threshold : Int) : KhaosStore B :=
  if threshold ≤ 0 then s
  else (s.byNum.keys.filter (· < threshold)).foldl dropNum s

def contains (id : BlockId) : Bool := (s.byHash.lookup id).isSome

end KhaosStore

/-! ## The tree -/

inductive PushError where
  | unlinked
  | badNumber (parentNum blockNum : Int)
  | malformed
  deriving DecidableEq

inductive PushOutcome (B : Type) where
  | extended (head : KhaosBlock (WireBlock B))
  | reorg (old new : KhaosBlock (WireBlock B))
  | sibling (head : KhaosBlock (WireBlock B))

def PushOutcome.head : PushOutcome B → KhaosBlock (WireBlock B)
  | .extended head | .sibling head => head
  | .reorg _ new => new

namespace KhaosDb

/-- The whole state of the tree. -/
structure Inner (B : Type) extends KhaosDb (WireBlock B) where
  /-- The blocks that wait for a parent. -/
  byParent : Table BlockId (List BlockId)
  /-- The wire bytes of stashed blocks. -/
  orphanRaw : Table BlockId Bytes
  /-- `max_capacity as i64`. -/
  maxCapacity : Int
  /-- The blocks allocated so far. -/
  allocated : Nat

namespace Inner

def new : Inner B where
  head := none
  miniStore := .empty
  miniUnlinkedStore := .empty
  byParent := ∅
  orphanRaw := ∅
  maxCapacity := 1024
  allocated := 0

variable (fmt : BlockFormat B) (held : Nat → Bool) (g : Inner B)

def setMaxSize (maxSize : Nat) : Inner B := { g with maxCapacity := BigEndian.wrapI64 maxSize }

/-- Seed the head with a block. -/
def start (block : B) : Except PushError Unit × Inner B :=
  match KhaosNode.newWithRaw fmt g.allocated block none with
  | none => (.error .malformed, g)
  | some n =>
    (.ok (), { g with
      miniStore := g.miniStore.insert (.root n)
      head := some (.root n)
      allocated := g.allocated + 1 })

variable (b : KhaosBlock (WireBlock B))

def promoteHeadIfHigher : Inner B :=
  match g.head with
  | none => { g with head := some b }
  | some h => if h.node.num < b.node.num then { g with head := some b } else g

def pruneOrphanRaw : Inner B :=
  { g with orphanRaw := Assoc.retain (fun id _ => g.miniUnlinkedStore.contains id) g.orphanRaw }

variable (n : WireNode B)

/-- The pointer to this block can be followed. -/
def upgrades : Bool := held n.serial || g.alive n

/-- `is_ancestor`: walk down the parent pointers, looking for an id. -/
def isAncestor (id : BlockId) : WireNode B → List (WireNode B) → Bool
  | cur, [] => cur.id == id
  | cur, p :: ps => cur.id == id || (g.upgrades held p && isAncestor id p ps)

/-- `classify_outcome`; the previous head is held while the walk goes on. -/
def classifyOutcome (prevHead : Option (KhaosBlock (WireBlock B))) (head : KhaosBlock (WireBlock B)) : PushOutcome B :=
  match prevHead with
  | none => .extended head
  | some prev =>
    if prev.node.id = head.node.id then .sibling head
    else if g.isAncestor (fun s => held s || s == prev.node.serial) prev.node.id head.node
      head.ancestors then .extended head
    else .reorg prev head

/-- The number below which blocks are dropped: the head's less the capacity, saturating. -/
def threshold : Int :=
  max (-0x8000000000000000) (min ((g.head.map (·.node.num)).getD 0 - g.maxCapacity) 0x7fffffffffffffff)

/-- Drop the parents all of whose waiting blocks are gone. -/
def dropDead : Inner B :=
  { g with
    byParent := Assoc.retain (fun _ kids => !kids.all fun c => !g.miniUnlinkedStore.contains c)
      g.byParent }

/-- Prune both stores, and drop what the other indexes keep for blocks that are gone. -/
def prune : Inner B :=
  (dropDead { g with
    miniStore := g.miniStore.pruneBelow g.threshold
    miniUnlinkedStore := g.miniUnlinkedStore.pruneBelow g.threshold }).pruneOrphanRaw

/-- The tree with the block linked, and its head promoted. -/
def linked : Inner B :=
  promoteHeadIfHigher { g with miniStore := g.miniStore.insert b } b

def link : Except PushError (PushOutcome B) × Inner B :=
  let g' := g.linked b
  (.ok (g'.classifyOutcome held g.head (g'.head.getD b)), g'.prune)

variable (parent : BlockId)

/-- Index the block under its parent, once. -/
def await : Inner B :=
  if g.miniUnlinkedStore.contains n.id then g
  else { g with
    miniUnlinkedStore := g.miniUnlinkedStore.insert (.root n)
    byParent := g.byParent.insert parent ((g.byParent.lookup parent).getD [] ++ [n.id]) }

def keepRaw (id : BlockId) (raw : Option Bytes) : Inner B :=
  match raw with
  | none => g
  | some raw => { g with orphanRaw := g.orphanRaw.insert id raw }

def pruneStash : Inner B :=
  pruneOrphanRaw { g with miniUnlinkedStore := g.miniUnlinkedStore.pruneBelow g.threshold }

def stash (raw : Option Bytes) : Inner B :=
  ((g.await n parent).keepRaw n.id raw).pruneStash

/-- The parent a block is linked to: none in a tree without a head, and none for a parent hash that
is zero or not 32 bytes. -/
def parentToLink : Option BlockId :=
  if g.head.isSome then (n.parentId fmt).filter (· ≠ List.replicate 32 0) else none

def pushWithRaw (block : B) (raw : Option Bytes) : Except PushError (PushOutcome B) × Inner B :=
  match KhaosNode.newWithRaw fmt g.allocated block raw with
  | none => (.error .malformed, g)
  | some n =>
    let g := { g with allocated := g.allocated + 1 }
    if g.containsInLinked n.id then (.ok (.sibling (g.head.getD (.root n))), g)
    else
      match g.parentToLink fmt n with
      | none => g.link held (.root n)
      | some parentId =>
        match g.miniStore.byHash.lookup parentId with
        | none => (.error .unlinked, g.stash n parentId raw)
        | some p =>
          if h : n.num = p.node.num + 1 then g.link held (.child n p h)
          else (.error (.badNumber p.node.num n.num), g)

/-- One waiting block: out of the stash, and handed back unless its number is wrong. -/
def takeOrphan (parentNum : Int) (s : Inner B × List (B × Option Bytes)) (id : BlockId) :
    Inner B × List (B × Option Bytes) :=
  match s.1.miniUnlinkedStore.byHash.lookup id with
  | none => s
  | some child =>
    let g := { s.1 with
      miniUnlinkedStore := (s.1.miniUnlinkedStore.remove id).getD s.1.miniUnlinkedStore
      orphanRaw := s.1.orphanRaw.erase id }
    if child.node.num = parentNum + 1 then
      (g, s.2 ++ [(child.node.block.block, s.1.orphanRaw.lookup id)])
    else (g, s.2)

def takeOrphansWaitingOn : Inner B × List (B × Option Bytes) :=
  match g.miniStore.byHash.lookup parent with
  | none => (g, [])
  | some p =>
    ((g.byParent.lookup parent).getD []).foldl (takeOrphan p.node.num)
      ({ g with byParent := g.byParent.erase parent }, [])

/-- `KhaosDb::pop`: the head becomes its parent, if the pointer can be followed. -/
def pop : Bool × Inner B :=
  match g.head with
  | some ⟨_, p :: ps, h⟩ =>
    if g.upgrades held p then (true, { g with head := some ⟨p, ps, h.tail⟩ }) else (false, g)
  | _ => (false, g)

def setHead : Inner B := { g with head := some b }

def remove (id : BlockId) : Inner B := { g with toKhaosDb := g.toKhaosDb.remove id }

end Inner

inductive Call (B : Type) where
  | start (block : B)
  | pushWithRaw (block : B) (raw : Option Bytes) (held : Nat → Bool)
  | takeOrphansWaitingOn (parent : BlockId)
  | remove (id : BlockId)
  | pop (held : Nat → Bool)
  | setHead (b : KhaosBlock (WireBlock B))
  | setMaxSize (maxSize : Nat)

def step (fmt : BlockFormat B) (g : Inner B) : Call B → Inner B
  | .start block => (g.start fmt block).2
  | .pushWithRaw block raw held => (g.pushWithRaw fmt held block raw).2
  | .takeOrphansWaitingOn parent => (g.takeOrphansWaitingOn parent).1
  | .remove id => g.remove id
  | .pop held => (g.pop held).2
  | .setHead b => g.setHead b
  | .setMaxSize maxSize => g.setMaxSize maxSize

end KhaosDb

end TronGoblin
