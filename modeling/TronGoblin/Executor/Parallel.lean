import TronGoblin.Chainbase.BlockStm

/-!
# The Block-STM scheduler

Model of the round loop of `tron-executor/src/parallel.rs::execute_block_parallel` as a state
machine.  One action is either one move of one transaction's worker thread (a store call, the
removal of one stale key, the publication of one written key) or one move of the driver (a round
barrier, a loop test).  A run is a list of actions, so quantifying over lists of actions
quantifies over every interleaving inside every round.

* `Sched`: multi-version memory, captures, results, dependency sets and worker threads.
* `threadStep`, `controlStep`, `step`, `run`: the transitions.
* `serial`: the reference: the transactions one after another on the base.
* `commitWriteSets`: the commit of the effective write-sets in index order.
-/

namespace TronGoblin.BlockStm

open Function

variable {R : Type}

/-- A transaction: a deterministic program over store calls that returns a result. -/
abbrev TxProg (R : Type) := Prog TxOp TxOp.Res R

/-- A block whose transactions touch ordinary keys only. -/
structure OrdinaryBlock (R : Type) where
  backend : VersionedBackend
  txs : List (TxProg R)
  ordinary : ∀ p ∈ txs, p.OnlyOps backend.OrdinaryOp

abbrev OrdinaryBlock.n (B : OrdinaryBlock R) : Nat := B.txs.length

theorem OrdinaryBlock.exists_tx (B : OrdinaryBlock R) {i : Nat} (h : i < B.n) : ∃ p, B.txs[i]? = some p :=
  ⟨_, List.getElem?_eq_getElem h⟩

/-! ## Serial execution -/

/-- A store call of a transaction that runs alone over `σ`, its writes buffered in a session. -/
def sessionHandler (σ : Kv.Map ConflictKey Bytes) : Prog.Handler TxOp TxOp.Res Writes
  | .get key, w => ((w.lookup key).getD (σ key), w)
  | .put key value, w => ((), w.insert key (some value))
  | .delete key, w => ((), w.insert key none)
  | .revert, _ => ((), ∅)

/-- The state seen through a session's writes. -/
def overlay (w : Writes) (σ : Kv.Map ConflictKey Bytes) : Kv.Map ConflictKey Bytes :=
  fun key => (w.lookup key).getD (σ key)

/-- Result and writes of one transaction on `σ`. -/
def runTx (p : TxProg R) (σ : Kv.Map ConflictKey Bytes) : R × Writes :=
  p.exec (sessionHandler σ) ∅

def serial : List (TxProg R) → Kv.Map ConflictKey Bytes → List R × Kv.Map ConflictKey Bytes
  | [], σ => ([], σ)
  | p :: ps, σ =>
    let rest := serial ps (overlay (runTx p σ).2 σ)
    ((runTx p σ).1 :: rest.1, rest.2)

/-! ## Scheduler state -/

/-- What the worker of one transaction is doing. -/
inductive Thread (R : Type)
  /-- Not scheduled in the current round, or finished with it. -/
  | idle
  /-- Handed to the pool, not started. -/
  | queued
  /-- Executing; `oldKeys` are the keys the previous incarnation wrote. -/
  | running (oldKeys : List ConflictKey) (incarnation : Nat) (rest : TxProg R)
  /-- Executed: `stale` keys to remove, then `writeSet` to publish, in any order of the keys. -/
  | flushing (stale : List ConflictKey) (incarnation : Nat)
      (writeSet : List (Kv.Write ConflictKey Bytes)) (result : R)

/-- Where the driver stands. -/
inductive Phase
  /-- Round 0: everything is speculated. -/
  | speculating
  /-- At the head of `for _ in 0..=n`, with `left` iterations to go. -/
  | loopHead (left : Nat)
  /-- Inside an iteration, waiting for the re-executions to join. -/
  | reexecuting (left roundReexecs : Nat)
  | converged
  /-- The exit that returns `None`. -/
  | notConverged
  deriving DecidableEq

structure Sched (R : Type) where
  mv : MvMemory
  captures : Nat → TxCapture
  incarnation : Nat → Nat
  results : Nat → Option R
  deps : Nat → List Nat
  finalized : Nat → Bool
  threads : Nat → Thread R
  committed : Nat
  phase : Phase

/-- Round 0 has been handed to the pool. -/
def Sched.init (B : OrdinaryBlock R) : Sched R where
  mv := fun _ _ => none
  captures := fun _ => .cleared
  incarnation := fun _ => 0
  results := fun _ => none
  deps := fun _ => []
  finalized := fun _ => false
  threads := fun i => if i < B.n then .queued else .idle
  committed := 0
  phase := .speculating

def Thread.isIdle : Thread R → Bool
  | .idle => true
  | _ => false

/-- The round barrier: every worker has joined. -/
def Sched.joined (B : OrdinaryBlock R) (s : Sched R) : Bool :=
  (List.range B.n).all fun i => (s.threads i).isIdle

/-- The indices `committed..n`. -/
def Sched.uncommitted (B : OrdinaryBlock R) (s : Sched R) : List Nat :=
  List.range' s.committed (B.n - s.committed)

def Sched.valid (s : Sched R) (i : Nat) : Bool := s.mv.validate i (s.captures i).reads

/-- The stale and dep-ready transactions of a round. -/
def Sched.toRun (B : OrdinaryBlock R) (s : Sched R) : List Nat :=
  (s.uncommitted B).filter fun i => (s.deps i).all (· < s.committed) && !s.valid i

/-- Length of the longest valid run of uncommitted transactions. -/
def Sched.advanced (B : OrdinaryBlock R) (s : Sched R) : Nat :=
  ((s.uncommitted B).takeWhile s.valid).length

/-! ## Transitions -/

/-- One action: a worker moves (`pick` selects the next key to remove or publish), or the driver
moves. -/
inductive Action
  | thread (i : Nat) (pick : Nat)
  | control
  deriving DecidableEq

/-- Whether a started worker bumps its incarnation: only in a re-execution round. -/
def Phase.bump : Phase → Nat
  | .reexecuting _ _ => 1
  | _ => 0

/-- One move of the worker of transaction `i`: the closure `run(i)`, cut at its store calls and
per-key publications. -/
def threadStep (B : OrdinaryBlock R) (s : Sched R) (i : Nat) (pick : Nat) : Option (Sched R) :=
  match s.threads i with
  | .idle => none
  | .queued => match B.txs[i]? with
    | none => none
    | some p =>
      let inc := s.incarnation i + s.phase.bump
      some { s with
        incarnation := update s.incarnation i inc
        captures := update s.captures i .cleared
        threads := update s.threads i (.running (s.captures i).writtenKeys inc p) }
  | .running oldKeys inc (.op o next) =>
    let out := B.backend.perform s.mv i o (s.captures i)
    some { s with
      captures := update s.captures i out.2
      threads := update s.threads i (.running oldKeys inc (next out.1)) }
  | .running oldKeys inc (.ret r) =>
    let writeSet := (s.captures i).effectiveWriteSet
    let newKeys := writeSet.map (·.key)
    some { s with
      threads := update s.threads i
        (.flushing (oldKeys.filter (· ∉ newKeys)) inc writeSet r) }
  | .flushing (k :: stale) inc writeSet r => match (k :: stale)[pick]? with
    | none => none
    | some key => some { s with
      mv := s.mv.removeWrite i key
      threads := update s.threads i
        (.flushing ((k :: stale).eraseIdx pick) inc writeSet r) }
  | .flushing [] inc (w :: ws) r => match (w :: ws)[pick]? with
    | none => none
    | some u => some { s with
      mv := s.mv.recordWrite ⟨i, inc⟩ u
      threads := update s.threads i (.flushing [] inc ((w :: ws).eraseIdx pick) r) }
  | .flushing [] _ [] r => some { s with
      results := update s.results i (some r)
      deps := update s.deps i (s.captures i).depSet
      threads := update s.threads i .idle }

/-- Hand the stale, dep-ready transactions to the pool. -/
def startRound (B : OrdinaryBlock R) (s : Sched R) (left : Nat) : Sched R :=
  { s with
    threads := fun i => if i ∈ s.toRun B then .queued else s.threads i
    phase := .reexecuting left (s.toRun B).length }

/-- Advance the commit frontier after the barrier. -/
def finishRound (B : OrdinaryBlock R) (s : Sched R) (left roundReexecs : Nat) : Sched R :=
  { s with
    finalized := fun i =>
      s.finalized i || decide (s.committed ≤ i ∧ i < s.committed + s.advanced B)
    committed := s.committed + s.advanced B
    phase := if s.advanced B = 0 ∧ roundReexecs = 0 then .notConverged else .loopHead left }

def controlStep (B : OrdinaryBlock R) (s : Sched R) : Option (Sched R) :=
  match s.phase with
  | .speculating => if s.joined B then some { s with phase := .loopHead (B.n + 1) } else none
  | .loopHead 0 => some { s with phase := .notConverged }
  | .loopHead (left + 1) =>
    if s.committed = B.n then some { s with phase := .converged } else some (startRound B s left)
  | .reexecuting left roundReexecs =>
    if s.joined B then some (finishRound B s left roundReexecs) else none
  | .converged => none
  | .notConverged => none

def step (B : OrdinaryBlock R) (s : Sched R) : Action → Option (Sched R)
  | .thread i pick => threadStep B s i pick
  | .control => controlStep B s

def run (B : OrdinaryBlock R) : Sched R → List Action → Option (Sched R)
  | s, [] => some s
  | s, a :: as => (step B s a).bind fun s' => run B s' as

def Reachable (B : OrdinaryBlock R) (s : Sched R) : Prop :=
  ∃ as, run B (Sched.init B) as = some s

def commitWriteSets (B : OrdinaryBlock R) (s : Sched R) : Kv.Map ConflictKey Bytes :=
  (List.range B.n).foldl (fun σ i => Kv.applyAll (s.captures i).effectiveWriteSet σ) B.backend.base

end TronGoblin.BlockStm
