import Mathlib.Data.Finset.Basic
import Mathlib.Data.List.Sort
import TronGoblin.Consensus.Khaos
import TronGoblin.Lib.History

/-!
# The fetch pool

Model of `SyncFetchPool` (`tron-node/src/sync.rs`), the queue through which several connections fetch
the blocks that the leader wants.  Wanted ids are kept by block number, claimed ids and fetched bodies
by id; `num_of` knows the number of every id in the pool.

* `Call`, `step`: one call on the pool.
* `Clear`: the calls that put no id where `want` has a different one.
-/

namespace TronGoblin

open Assoc (Table IterOrder)

/-- A claim: the block's number, when it was claimed, and by which connection. -/
structure InFlight where
  num : Int
  since : Nat
  conn : Nat
  deriving DecidableEq

structure FetchPoolInner where
  want : Table Int BlockId
  inflight : Table BlockId InFlight
  ready : Table BlockId Bytes
  seen : Finset BlockId
  numOf : Table BlockId Int

namespace FetchPoolInner

def new : FetchPoolInner := ⟨∅, ∅, ∅, ∅, ∅⟩

variable (p : FetchPoolInner)

/-- One want, with the ids inserted so far. -/
def pushWant (s : FetchPoolInner × List BlockId) (item : Int × BlockId) : FetchPoolInner × List BlockId :=
  if item.2 ∈ s.1.seen then s
  else
    ({ s.1 with
      seen := insert item.2 s.1.seen
      want := s.1.want.insert item.1 item.2
      numOf := s.1.numOf.insert item.2 item.1 }, s.2 ++ [item.2])

def pushWants (items : List (Int × BlockId)) : FetchPoolInner × List BlockId :=
  items.foldl pushWant (p, [])

def requeue (p : FetchPoolInner) (e : BlockId × Int) : FetchPoolInner :=
  { p with inflight := p.inflight.erase e.1, want := p.want.insert e.2 e.1 }

/-- The claims that satisfy a test, with their numbers. -/
def claims (test : BlockId → InFlight → Bool) : List (BlockId × Int) :=
  (p.inflight.entries.filter fun e => test e.1 e.2).map fun e => (e.1, e.2.num)

def take (conn now : Nat) (p : FetchPoolInner) (e : Int × BlockId) : FetchPoolInner :=
  { p with want := p.want.erase e.1, inflight := p.inflight.insert e.2 ⟨e.1, now, conn⟩ }

def inOrder : List (Int × BlockId) :=
  (p.want.entries.map fun e => (e.1, e.2)).insertionSort fun a b => a.1 ≤ b.1

/-- What is given to `claim`: the caller, its limits and its history, and the clock as it is read. -/
structure ClaimRequest where
  conn : Nat
  maxNum : Int
  max : Nat
  readyCap : Nat
  reclaimAfter : Nat
  alreadyFetched : BlockId → Bool
  /-- The time measured since the claim of an id. -/
  elapsed : BlockId → Nat → Nat
  now : Nat

/-- The claims that have waited too long. -/
def ClaimRequest.stalled (r : ClaimRequest) (id : BlockId) (f : InFlight) : Bool :=
  r.reclaimAfter ≤ r.elapsed id f.since

/-- The wanted ids that the caller may have, lowest numbers first. -/
def picked (r : ClaimRequest) : List (Int × BlockId) :=
  (p.inOrder.filter fun e => e.1 ≤ r.maxNum && !r.alreadyFetched e.2).take
    (if r.readyCap ≤ Assoc.size p.ready then 1 else r.max)

def claim (order : IterOrder (BlockId × Int)) (r : ClaimRequest) : FetchPoolInner × List BlockId :=
  let q := (order.iter (p.claims r.stalled)).foldl requeue p
  ((q.picked r).foldl (take r.conn r.now) q, (q.picked r).map (·.2))

def claimableWithin (maxNum : Int) (readyCap : Nat) (alreadyFetched : BlockId → Bool) : Bool :=
  Assoc.size p.ready < readyCap && p.inOrder.any fun e => e.1 ≤ maxNum && !alreadyFetched e.2

def reclaimConn (order : IterOrder (BlockId × Int)) (conn : Nat) : FetchPoolInner :=
  (order.iter (p.claims fun _ f => f.conn == conn)).foldl requeue p

def reclaimId (p : FetchPoolInner) (id : BlockId) : FetchPoolInner :=
  match p.inflight.lookup id with
  | none => p
  | some f => p.requeue (id, f.num)

def reclaimIds (ids : List BlockId) : FetchPoolInner := ids.foldl reclaimId p

variable (id : BlockId)

/-- `deliver`: an id that is not in flight is looked for in `want`, by its number. -/
def deliver (bytes : Bytes) : FetchPoolInner :=
  match p.inflight.lookup id with
  | some _ => { p with inflight := p.inflight.erase id, ready := p.ready.insert id bytes }
  | none =>
    match p.numOf.lookup id with
    | none => p
    | some n =>
      match p.want.lookup n with
      | none => p
      | some _ =>
        { p with
          want := p.want.erase n
          ready := if (p.ready.lookup id).isSome then p.ready else p.ready.insert id bytes }

def takeReady : FetchPoolInner × Option Bytes :=
  match p.ready.lookup id with
  | none => (p, none)
  | some bytes =>
    ({ p with
      ready := p.ready.erase id
      seen := p.seen.erase id
      numOf := p.numOf.erase id }, some bytes)

/-- `forget`; the id stays in `seen`. -/
def forget : FetchPoolInner :=
  { p with
    inflight := p.inflight.erase id
    want := Assoc.retain (fun _ v => v ≠ id) p.want
    ready := p.ready.erase id
    numOf := p.numOf.erase id }

/-! ## Runs -/

inductive Call where
  | pushWants (items : List (Int × BlockId))
  | claim (order : IterOrder (BlockId × Int)) (r : ClaimRequest)
  | reclaimConn (order : IterOrder (BlockId × Int)) (conn : Nat)
  | reclaimIds (ids : List BlockId)
  | deliver (id : BlockId) (bytes : Bytes)
  | takeReady (id : BlockId)
  | forget (id : BlockId)

def step (p : FetchPoolInner) : Call → FetchPoolInner
  | .pushWants items => (p.pushWants items).1
  | .claim order r => (p.claim order r).1
  | .reclaimConn order conn => p.reclaimConn order conn
  | .reclaimIds ids => p.reclaimIds ids
  | .deliver id bytes => p.deliver id bytes
  | .takeReady id => (p.takeReady id).1
  | .forget id => p.forget id

/-- The id that the call is about, when it is about one. -/
def Call.subject : Call → Option BlockId
  | .deliver id _ | .takeReady id | .forget id => some id
  | _ => none

/-! ## Clear calls -/

/-- The wants that a push inserts: those whose id has not been seen. -/
def newWants (seen : Finset BlockId) : List (Int × BlockId) → List (Int × BlockId)
  | [] => []
  | e :: es => if e.2 ∈ seen then newWants seen es else e :: newWants (insert e.2 seen) es

/-- The claims of these ids can go back: their places in `want` are free, and differ. -/
def Returnable (p : FetchPoolInner) (returned : BlockId → InFlight → Prop) : Prop :=
  ∀ id f, p.inflight.lookup id = some f → returned id f → p.want.lookup f.num = none ∧
    ∀ id' f', p.inflight.lookup id' = some f' → returned id' f' → f'.num = f.num → id' = id

/-- The call puts no id where `want` has, or is about to get, another; and it delivers no block whose
number is wanted under another id. -/
def Clear (p : FetchPoolInner) : Call → Prop
  | .pushWants items =>
    ((newWants p.seen items).map (·.1)).Nodup ∧ ∀ e ∈ newWants p.seen items, p.want.lookup e.1 = none
  | .claim _ r => p.Returnable fun id f => r.stalled id f = true
  | .reclaimConn _ conn => p.Returnable fun _ f => f.conn = conn
  | .reclaimIds ids => p.Returnable fun id _ => id ∈ ids
  | .deliver id _ =>
    p.inflight.lookup id = none → ∀ n, p.numOf.lookup id = some n → ∀ id', p.want.lookup n = some id' → id' = id
  | .takeReady _ | .forget _ => True

end FetchPoolInner

end TronGoblin
