import TronGoblin.Chainbase.PendingOverlay
import TronGoblin.Executor.Rollback

/-!
# Pipelined apply

Model of `ApplyPipeline` (`tron-executor/src/pipeline.rs`): the applier executes block `N + 1` over
the stores with block `N`'s write-set laid over them, while the committer is still writing block `N`.

* `PipelineBlock`: a block; its execution is any program that reads the state and returns an error,
  or a report and a write-set.
* `ApplyPipeline`, `committerStep`, `applierStep`: the two threads, one elementary operation at a time:
  a store operation of the committer, or a read of the applier.  A run is any sequence of these steps.
* `classic`: the same calls one at a time, each block committed in full before the next.
-/

namespace TronGoblin

/-! ## Reading the state -/

inductive ReadOp
  | get (id : StoreId) (key : Bytes)
  | scanAll (id : StoreId)

open ReadOp

/-- What a read answers; a scan answers with everything in the store. -/
def ReadOp.Res : ReadOp → Type
  | .get _ _ => Option Bytes
  | .scanAll _ => Contents

def readFrom (contents : StoreId → Contents) : (o : ReadOp) → o.Res
  | .get id key => contents id key
  | .scanAll id => contents id

/-- Run a program of reads on fixed contents. -/
def evalReads {α : Type} (contents : StoreId → Contents) (p : Prog ReadOp Res α) : α :=
  (Prog.exec (fun o (_ : Unit) => (readFrom contents o, ())) p ()).1

/-! ## Blocks and calls -/

variable {st : StateBackends} {E R : Type}

structure PipelineBlock (st : StateBackends) (E R : Type) where
  num : Int
  /-- `execute_block_logic`. -/
  logic : Prog ReadOp Res (Except E (R × List (BlockWrite st)))
  order : StoreId → HashOrder
  deferStoreFsync : Bool
  captureDeltas : Bool

/-- Why an apply or a flush failed. -/
inductive ApplyError (E : Type)
  | exec (e : E)
  | commit (e : CheckpointError)

inductive PipelineCall (st : StateBackends) (E R : Type)
  | apply (b : PipelineBlock st E R)
  | flush

/-- What a call returned; a report carries the captured deltas. -/
inductive Outcome (E R : Type)
  | applied (r : Except (ApplyError E) (R × Option (List CapturedDelta)))
  | flushed (r : Except (ApplyError E) Unit)

/-! ## One block at a time -/

/-- The durable work of a block with this write-set. -/
def PipelineBlock.job (b : PipelineBlock st E R) (drained : DrainedBlock st) : CommitJob st :=
  ⟨b.num, drained.stores, drained.record, b.deferStoreFsync⟩

/-- Execute a block against the stores, and commit it. -/
def classicApply (b : PipelineBlock st E R) (d : Disk) :
    Except (ApplyError E) (R × Option (List CapturedDelta)) × Disk :=
  match evalReads d.contents b.logic with
  | .error e => (.error (.exec e), d)
  | .ok (report, writes) =>
    let drained := drainBlockSession st b.order d.contents (BlockSession.ofWrites writes) b.captureDeltas
    match Prog.exec Disk.handle (b.job drained).prog d with
    | (.ok (), d') => (.ok (report, drained.deltas), d')
    | (.error e, d') => (.error (.commit e), d')

def classicCall (c : PipelineCall st E R) (d : Disk) : Outcome E R × Disk :=
  match c with
  | .apply b => (.applied (classicApply b d).1, (classicApply b d).2)
  | .flush => (.flushed (.ok ()), d)

/-- The calls one at a time: what each returned, and the disk at the end. -/
def classic (calls : List (PipelineCall st E R)) (init : Disk) : List (Outcome E R) × Disk :=
  calls.foldl (fun acc c => (acc.1 ++ [(classicCall c acc.2).1], (classicCall c acc.2).2)) ([], init)

theorem classic_concat (calls : List (PipelineCall st E R)) (c : PipelineCall st E R) (init : Disk) :
    classic (calls ++ [c]) init =
      ((classic calls init).1 ++ [(classicCall c (classic calls init).2).1],
        (classicCall c (classic calls init).2).2) := by
  unfold classic
  rw [List.foldl_concat]

theorem length_classic (calls : List (PipelineCall st E R)) (init : Disk) :
    (classic calls init).1.length = calls.length := by
  induction calls using List.reverseRecOn with
  | nil => rfl
  | append_singleton calls c ih => rw [classic_concat, List.length_append, ih, List.length_append]; rfl

/-! ## The applier's reads -/

def readKey (id : StoreId) (key : Bytes) : Prog ReadOp Res (Option Bytes) :=
  .op (.get id key) fun v => .ret v

/-- Read the old value of every key, one read each. -/
def readPreimages (id : StoreId) : List WriteOp → Prog ReadOp Res (List (Bytes × Option Bytes))
  | [] => pure []
  | w :: ws => do
    let before ← readKey id w.key
    let rest ← readPreimages id ws
    pure ((w.key, before) :: rest)

/-- Drain one store, reading through the view. -/
def takeReading (order : StoreId → HashOrder) (session : BlockSession) (acc : DrainedBlock st)
    (id : StoreId) : Prog ReadOp Res (DrainedBlock st) :=
  if h : st.attached id = true then do
    let ops := (order id).iter (session id).pending
    let undo ← readPreimages id ops
    pure (acc.push id h (ops, undo))
  else pure acc

def drainReading (order : StoreId → HashOrder) (session : BlockSession) :
    List StoreId → DrainedBlock st → Prog ReadOp Res (DrainedBlock st)
  | [], acc => pure acc
  | id :: ids, acc => do
    let acc ← takeReading order session acc id
    drainReading order session ids acc

/-- The reads of one apply: execute the block, then drain its session. -/
def applyReads (b : PipelineBlock st E R) :
    Prog ReadOp Res (Except E (R × DrainedBlock st)) := do
  match ← b.logic with
  | .error e => pure (.error e)
  | .ok (report, writes) => do
    let drained ← drainReading b.order (BlockSession.ofWrites writes) StoreId.commitOrder
      (.empty b.captureDeltas)
    pure (.ok (report, drained.sortDeltas))

section

variable (c : StoreId → Contents)
include c

theorem evalReads_bind {α β : Type} (p : Prog ReadOp Res α) (f : α → Prog ReadOp Res β) :
    evalReads c (p >>= f) = evalReads c (f (evalReads c p)) := by
  unfold evalReads
  rw [Prog.exec_bind]

theorem evalReads_readPreimages (id : StoreId) (ws : List WriteOp) :
    evalReads c (readPreimages id ws) = ws.map fun w => (w.key, c id w.key) := by
  induction ws with
  | nil => rfl
  | cons w ws ih =>
    rw [readPreimages, evalReads_bind, evalReads_bind, ih]
    rfl

theorem evalReads_drainReading (order : StoreId → HashOrder) (session : BlockSession) (ids : List StoreId)
    (acc : DrainedBlock st) :
    evalReads c (drainReading order session ids acc) = ids.foldl (DrainedBlock.take order c session) acc := by
  induction ids generalizing acc with
  | nil => rfl
  | cons id ids ih =>
    rw [drainReading, evalReads_bind, ih, List.foldl_cons]
    congr 1
    unfold takeReading DrainedBlock.take
    split
    · rw [evalReads_bind, evalReads_readPreimages]
      rfl
    · rfl

/-- On fixed contents, the reads of an apply compute what the classic path computes. -/
theorem evalReads_applyReads (b : PipelineBlock st E R) :
    evalReads c (applyReads b) = match evalReads c b.logic with
      | .error e => .error e
      | .ok (report, writes) => .ok (report,
          drainBlockSession st b.order c (BlockSession.ofWrites writes) b.captureDeltas) := by
  rw [applyReads, evalReads_bind]
  cases evalReads c b.logic with
  | error e => rfl
  | ok r =>
    rw [evalReads_bind, evalReads_drainReading]
    rfl

end

/-! ## The two threads -/

inductive Applier (st : StateBackends) (E R : Type)
  | idle
  /-- Executing and draining a block. -/
  | reading (b : PipelineBlock st E R) (p : Prog ReadOp Res (Except E (R × DrainedBlock st)))
  /-- Waiting for the previous block's commit before handing this block over. -/
  | joining (b : PipelineBlock st E R) (report : R) (drained : DrainedBlock st)
  | flushing

structure ApplyPipeline (st : StateBackends) (E R : Type) where
  disk : Disk
  overlays : StoreId → PendingOverlay
  /-- What the committer thread still has to do for the job it was handed. -/
  committer : Option (Prog DiskOp DiskOp.Res (Except CheckpointError Unit))
  inFlight : Bool
  applier : Applier st E R
  todo : List (PipelineCall st E R)
  /-- What the calls made so far returned. -/
  outs : List (Outcome E R)

namespace ApplyPipeline

def new (init : Disk) (calls : List (PipelineCall st E R)) : ApplyPipeline st E R :=
  ⟨init, fun _ => .new, none, false, .idle, calls, []⟩

/-- A read through `view`: every store with its overlay. -/
def view (hash : Bytes → Fin shardCount) (s : ApplyPipeline st E R) : (o : ReadOp) → o.Res
  | .get id key => (s.overlays id).get hash (s.disk.contents id) key
  | .scanAll id => (s.overlays id).scanAll (s.disk.contents id)

/-- Park a block's write-set in the overlays; that of a store that is not attached stays empty. -/
def install (hash : Bytes → Fin shardCount) (stores : List (DrainedStore st)) :
    StoreId → PendingOverlay := fun id =>
  match stores.find? fun d => d.id = id with
  | some d => .replaceWith hash d.ops
  | none => .clear

/-- `join_in_flight`: `none` while the committer is not done. -/
def joinInFlight (s : ApplyPipeline st E R) : Option (Except CheckpointError Unit × ApplyPipeline st E R) :=
  if s.inFlight = false then some (.ok (), s)
  else match s.committer with
    | some (.ret (.ok ())) => some (.ok (), { s with inFlight := false, committer := none })
    | some (.ret (.error e)) =>
      some (.error e, { s with inFlight := false, committer := none, overlays := fun _ => .clear })
    | _ => none

/-- The committer performs one store operation. -/
def committerStep (s : ApplyPipeline st E R) : ApplyPipeline st E R :=
  match s.committer with
  | some (.op o next) =>
    { s with committer := some (next (Disk.handle o s.disk).1), disk := (Disk.handle o s.disk).2 }
  | _ => s

/-- The applier performs one read, or goes on to its next phase if it does not have to wait. -/
def applierStep (hash : Bytes → Fin shardCount) (s : ApplyPipeline st E R) : ApplyPipeline st E R :=
  match s.applier with
  | .idle =>
    match s.todo with
    | [] => s
    | .apply b :: rest => { s with applier := .reading b (applyReads b), todo := rest }
    | .flush :: rest => { s with applier := .flushing, todo := rest }
  | .reading b (.op o next) => { s with applier := .reading b (next (s.view hash o)) }
  | .reading _ (.ret (.error e)) =>
    { s with applier := .idle, outs := s.outs ++ [.applied (.error (.exec e))] }
  | .reading b (.ret (.ok (report, drained))) => { s with applier := .joining b report drained }
  | .joining b report drained =>
    match s.joinInFlight with
    | none => s
    | some (.error e, s') =>
      { s' with applier := .idle, outs := s'.outs ++ [.applied (.error (.commit e))] }
    | some (.ok (), s') =>
      { s' with
        overlays := install hash drained.stores
        committer := some (b.job drained).prog
        inFlight := true
        applier := .idle
        outs := s'.outs ++ [.applied (.ok (report, drained.deltas))] }
  | .flushing =>
    match s.joinInFlight with
    | none => s
    | some (r, s') =>
      { s' with
        overlays := fun _ => .clear
        applier := .idle
        outs := s'.outs ++ [.flushed (r.mapError .commit)] }

/-- Which thread moves next. -/
inductive Thread
  | committer
  | applier

def step (hash : Bytes → Fin shardCount) (s : ApplyPipeline st E R) : Thread → ApplyPipeline st E R
  | .committer => s.committerStep
  | .applier => s.applierStep hash

def run (hash : Bytes → Fin shardCount) (s : ApplyPipeline st E R) (schedule : List Thread) : ApplyPipeline st E R :=
  schedule.foldl (step hash) s

/-- The calls that have not returned yet. -/
def pending (s : ApplyPipeline st E R) : List (PipelineCall st E R) :=
  match s.applier with
  | .idle => s.todo
  | .reading b _ => .apply b :: s.todo
  | .joining b _ _ => .apply b :: s.todo
  | .flushing => .flush :: s.todo

end ApplyPipeline

end TronGoblin
