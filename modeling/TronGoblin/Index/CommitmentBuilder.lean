import TronGoblin.Index.SmtHistory

/-!
# The commitment builder

Model of `CommitmentBuilder` (`tron-index/src/commitment/builder.rs`): the write-sets of applied blocks
are buffered by height, and a height is folded into the tree once it is confirmed by `K` further blocks.
The scan of the live stores is given as its chunks.  Counters and the bootstrap cursor are left out; a
failed tree operation ends the run.

* `ingestWithResume`: one message.
* `Chain`, `Event`, `Index.run`: the chain that is applied, and the messages that reach the builder.
-/

namespace TronGoblin.Commitment

open Assoc (Table)

/-- One write of a block; `after` is `none` for a deletion. -/
structure CommitmentDeltaRef where
  store : UInt8
  key : Bytes
  after : Option Bytes
  deriving DecidableEq

abbrev WriteSet := List CommitmentDeltaRef

/-- The rows of the live stores, in the chunks that the scan returns. -/
abbrev LiveRows := List (List (UInt8 × Bytes × Bytes))

structure CommitmentBuilder where
  smt : Smt
  confirmationLagBlocks : Nat
  committedHeight : Option Int
  maxSeenHeight : Int
  pending : Table Int WriteSet
  /-- The heights and roots that were written to the store so far, the current ones first. -/
  commits : List (Int × NodeHash)

section

variable (keccak256 : Bytes → NodeHash)

def leafPathFor (store : UInt8) (key : Bytes) : LeafPath := keccak256 (store :: key)

def changesOf (deltas : WriteSet) : List Change :=
  deltas.map fun d => (leafPathFor keccak256 d.store d.key, d.after.map keccak256)

def chunkChanges (chunk : List (UInt8 × Bytes × Bytes)) : List Change :=
  chunk.map fun (store, key, value) => (leafPathFor keccak256 store key, some (keccak256 value))

namespace CommitmentBuilder

def runBootstrap (live : LiveRows) (anchor : Int) (b : CommitmentBuilder) : Option CommitmentBuilder := do
  let smt ← live.foldlM (fun smt chunk => smt.step keccak256 (chunkChanges keccak256 chunk)) b.smt
  return { b with
    smt := smt
    committedHeight := some anchor
    maxSeenHeight := max b.maxSeenHeight anchor
    commits := (anchor, smt.root) :: b.commits }

def foldHeight (height : Int) (deltas : WriteSet) (b : CommitmentBuilder) :
    Option CommitmentBuilder := do
  let smt ← b.smt.step keccak256 (changesOf keccak256 deltas)
  return { b with
    smt := smt
    committedHeight := some height
    commits := (height, smt.root) :: b.commits }

/-- `rebootstrap_core`: the tree of the live rows. -/
def rebootstrapCore (live : LiveRows) (anchor : Int) (b : CommitmentBuilder) : Option CommitmentBuilder :=
  runBootstrap keccak256 live anchor
    { b with smt := Smt.fresh keccak256, committedHeight := none }

variable (b : CommitmentBuilder)

def next : Option Int :=
  match b.committedHeight with
  | some c => some (c + 1)
  | none => b.pending.keys.min?

def releaseTo : Int := b.maxSeenHeight - b.confirmationLagBlocks

/-- The loop of `release_contiguous`.  A height that is missing comes from the resume source. -/
def releaseFrom (live : LiveRows) (resume : Int → Option WriteSet) :
    Nat → CommitmentBuilder → Option CommitmentBuilder
  | 0, b => some b
  | fuel + 1, b =>
    match b.next with
    | none => some b
    | some next =>
      if b.releaseTo < next then some b
      else match b.pending.lookup next with
        | some deltas => do
          let b ← foldHeight keccak256 next deltas { b with pending := b.pending.erase next }
          releaseFrom live resume fuel b
        | none =>
          match resume next with
          | some deltas => do
            let b ← foldHeight keccak256 next deltas b
            releaseFrom live resume fuel b
          | none => do
            let b ← rebootstrapCore keccak256 live b.maxSeenHeight b
            releaseFrom live resume fuel b

/-- Every round but a last one goes up by one height. -/
def releaseFuel : Nat := (b.releaseTo - b.next.getD 0).toNat + 2

def releaseContiguous (live : LiveRows) (resume : Int → Option WriteSet) (b : CommitmentBuilder) :
    Option CommitmentBuilder :=
  releaseFrom keccak256 live resume b.releaseFuel b

/-- `rebootstrap_at_head`, when the message is for a height that is folded already. -/
def rebootstrapAtHead (live : LiveRows) (arrivingHeight : Int) (arrivingDeltas : WriteSet)
    (b : CommitmentBuilder) : Option CommitmentBuilder := do
  let b ← rebootstrapCore keccak256 live arrivingHeight
    { b with
      pending := (∅ : Table Int WriteSet).insert arrivingHeight arrivingDeltas
      maxSeenHeight := arrivingHeight }
  releaseContiguous keccak256 live (fun _ => none) b

/-- The buffer with a height's write-set, and nothing above it if the height was seen before. -/
def buffer (height : Int) (deltas : WriteSet) : Table Int WriteSet :=
  if height ≤ b.maxSeenHeight then
    Assoc.retain (fun h _ => decide (h ≤ height)) (b.pending.insert height deltas)
  else b.pending.insert height deltas

def ingestWithResume (live : LiveRows) (resume : Int → Option WriteSet) (height : Int)
    (deltas : WriteSet) (b : CommitmentBuilder) : Option CommitmentBuilder :=
  if b.committedHeight.any (fun c => height ≤ c) then
    rebootstrapAtHead keccak256 live height deltas b
  else
    releaseContiguous keccak256 live resume
      { b with
        pending := b.buffer height deltas
        maxSeenHeight := max b.maxSeenHeight height }

def fresh (confirmationLagBlocks : Nat) : CommitmentBuilder where
  smt := Smt.fresh keccak256
  confirmationLagBlocks := confirmationLagBlocks
  committedHeight := none
  maxSeenHeight := -1
  pending := ∅
  commits := []

end CommitmentBuilder

/-! ## The chain and its messages -/

/-- The blocks above the height of the bootstrap, lowest first. -/
structure Chain where
  anchor : Int
  blocks : List WriteSet
  /-- The highest height that was ever applied. -/
  highest : Int

namespace Chain

variable (chain : Chain)

def head : Int := chain.anchor + chain.blocks.length

def position (height : Int) : Nat := (height - chain.anchor - 1).toNat

/-- A block at the next height, or in place of an applied one and all above it. -/
def apply (height : Int) (deltas : WriteSet) : Chain where
  anchor := chain.anchor
  blocks := chain.blocks.take (chain.position height) ++ [deltas]
  highest := max chain.highest height

def writeSetAt (height : Int) : Option WriteSet :=
  if chain.anchor < height then chain.blocks[chain.position height]? else none

def upTo (height : Int) : List WriteSet :=
  chain.blocks.take (height - chain.anchor).toNat

end Chain

structure Event where
  height : Int
  deltas : WriteSet
  /-- The channel had room for its message. -/
  delivered : Bool
  /-- The live stores and the resume source when the message is handled. -/
  live : LiveRows
  resume : Int → Option WriteSet

structure Index where
  chain : Chain
  builder : CommitmentBuilder

/-- `on_block_applied`, and the builder if it gets the message. -/
def Index.step (s : Index) (e : Event) : Option Index :=
  let chain := s.chain.apply e.height e.deltas
  if e.delivered then do
    let builder ← s.builder.ingestWithResume keccak256 e.live e.resume e.height e.deltas
    return { chain := chain, builder := builder }
  else some { chain := chain, builder := s.builder }

/-- After a bootstrap of the stores at `anchor`. -/
def Index.bootstrapped (rows : LiveRows) (anchor lag : Nat) : Option Index := do
  let builder ← (CommitmentBuilder.fresh keccak256 lag).runBootstrap keccak256 rows anchor
  return { chain := ⟨anchor, [], anchor⟩, builder := builder }

def Index.run (s : Index) (events : List Event) : Option Index := events.foldlM (Index.step keccak256) s

end

end TronGoblin.Commitment
