import TronGoblin.Chainbase.Checkpoint

/-!
# Commit, recovery and rollback

Model of `commit_drained`, `flush_state_wals_and_clear_checkpoints`, `replay_pending_checkpoints` and
`rollback_block` of `tron-executor/src/lib.rs`, as programs over the elementary operations of the
disk.  `?` is the error monad.
-/

namespace TronGoblin

/-- Which stores are attached: the mandatory ones always are. -/
structure StateBackends where
  attached : StoreId → Bool
  mandatory : ∀ id, id.isOptional = false → attached id = true

def allAttached : StateBackends := ⟨fun _ => true, fun _ _ => rfl⟩

variable (id : StoreId)

theorem attached_all : allAttached.attached id = true := rfl

/-- The writes of one store of a drained block; draining skips stores that are not attached. -/
structure DrainedStore (st : StateBackends) where
  id : StoreId
  ops : List WriteOp
  attached : st.attached id = true

/-- Programs over the disk that can fail with `ε`. -/
abbrev DiskM (ε : Type) := ExceptT ε (Prog DiskOp DiskOp.Res)

def diskOp {ε : Type} (o : DiskOp) : DiskM ε o.Res := (Prog.op o fun r => .ret (.ok r) : Prog _ _ _)

/-- The outcome of a store operation. -/
def storeResult {ε : Type} (wrap : KvError → ε) : Option KvError → Except ε Unit
  | none => .ok ()
  | some e => .error (wrap e)

/-- `write_batch` or `write_batch_sync`, the error wrapped as the callers do. -/
def writeBatch (ops : List WriteOp) (sync : Bool) : DiskM CheckpointError Unit :=
  (Prog.op (.writeBatch id ops sync) fun r => .ret (storeResult .decode r) : Prog _ _ _)

def syncWal : DiskM CheckpointError Unit :=
  (Prog.op (.syncWal id) fun r => .ret (storeResult .decode r) : Prog _ _ _)

def putOrDelete {ε : Type} (wrap : KvError → ε) (id : StoreId) (op : WriteOp) : DiskM ε Unit :=
  (Prog.op (.putOrDelete id op) fun r => .ret (storeResult wrap r) : Prog _ _ _)

/-- `CheckPointV2::delete`. -/
def deleteManifest (id : Nat) : DiskM CheckpointError Unit :=
  (Prog.op (.deleteManifest id) fun (found : Bool) =>
    .ret (if found then .ok () else .error (.notFound id)) : Prog _ _ _)

/-- `CheckPointV2::read`. -/
def readManifest (id : Nat) : DiskM CheckpointError (List CheckpointEntry) :=
  (Prog.op (.readManifest id) fun (r : Option (List CheckpointEntry)) => .ret (match r with
    | some entries => .ok entries
    | none => .error (.notFound id)) : Prog _ _ _)

/-- Number of retained manifests at which a deferred commit runs the durability barrier. -/
def deferFsyncBarrierBlocks : Nat := 64

def manifestEntries {st : StateBackends} (stores : List (DrainedStore st)) : List CheckpointEntry :=
  stores.flatMap fun d => d.ops.map fun w => ⟨d.id.dbName, w.key, w.value⟩

def syncAllStateWals (st : StateBackends) : DiskM CheckpointError Unit :=
  (StoreId.commitOrder.filter st.attached).forM syncWal

/-- The durability barrier: fsync all stores, then delete every retained manifest. -/
def flushStateWalsAndClearCheckpoints (st : StateBackends) : DiskM CheckpointError Unit := do
  syncAllStateWals st
  let ids ← diskOp .listManifests
  -- a manifest that is gone already counts as deleted
  List.forM ids fun id => do
    let _ ← diskOp (.deleteManifest id)

/-- A commit after its manifest has been written: flush the batches; then, if fsync is deferred, keep
the manifest and run the barrier once enough of them are retained, else delete the manifest and clear
what earlier deferred blocks have left. -/
def flushDrained (st : StateBackends) (stores : List (DrainedStore st)) (deferStoreFsync : Bool)
    (checkpointId : Nat) : DiskM CheckpointError Unit := do
  stores.forM fun d => writeBatch d.id d.ops (!deferStoreFsync)
  if deferStoreFsync then do
    let ids ← diskOp .listManifests
    if deferFsyncBarrierBlocks ≤ List.length ids then flushStateWalsAndClearCheckpoints st
    else pure ()
  else do
    deleteManifest checkpointId
    let ids ← diskOp .listManifests
    if List.isEmpty ids then pure () else flushStateWalsAndClearCheckpoints st

def commitDrained (st : StateBackends) (stores : List (DrainedStore st)) (deferStoreFsync : Bool) :
    DiskM CheckpointError Unit :=
  if stores.isEmpty then pure ()
  else do
    let checkpointId ← diskOp (.writeManifest (manifestEntries stores))
    flushDrained st stores deferStoreFsync checkpointId

/-- The routing table of recovery: the attached store with this database name. -/
def byName (st : StateBackends) (name : String) : Option StoreId :=
  StoreId.commitOrder.find? fun id => st.attached id && id.dbName == name

/-- The error of a manifest entry that no attached store has the name of. -/
def unknownStore (id : Nat) (name : String) : CheckpointError :=
  .decode ("checkpoint " ++ toString id ++ " references unknown store '" ++ name ++
    "' — operator must investigate before continuing")

def replayEntry (st : StateBackends) (id : Nat) (e : CheckpointEntry) : DiskM CheckpointError Unit :=
  match byName st e.dbName with
  | some store => putOrDelete .decode store ⟨e.key, e.value⟩
  | none => throw (unknownStore id e.dbName)

/-- Re-apply one manifest and delete it; returns the number of its entries. -/
def replayManifest (st : StateBackends) (id : Nat) : DiskM CheckpointError Nat := do
  let entries ← readManifest id
  entries.forM (replayEntry st id)
  deleteManifest id
  pure entries.length

/-- Re-apply the listed manifests; returns how many, and how many entries. -/
def replayManifests (st : StateBackends) : List Nat → DiskM CheckpointError (Nat × Nat)
  | [] => pure (0, 0)
  | id :: ids => do
    let n ← replayManifest st id
    let total ← replayManifests st ids
    pure (total.1 + 1, total.2 + n)

def replayPendingCheckpoints (st : StateBackends) : DiskM CheckpointError (Nat × Nat) := do
  let ids ← diskOp .listManifests
  replayManifests st ids

/-! ## Rollback -/

inductive RollbackError
  | missingUndoRecord (num : Int)
  | optionalStoreNotAttached (store : StoreId)
  | db (e : KvError)
  deriving DecidableEq

/-- Restore one pre-image. -/
def rollbackEntry (st : StateBackends) (e : UndoEntry) : DiskM RollbackError Unit :=
  if st.attached e.store then putOrDelete .db e.store ⟨e.key, e.before⟩
  else throw (.optionalStoreNotAttached e.store)

/-- `rollback_block`; returns the number of entries. -/
def rollbackBlock (st : StateBackends) (num : Int) : DiskM RollbackError Nat := do
  let record ← diskOp (.undoGet num)
  match (record : Option BlockUndoRecord) with
  | none => throw (.missingUndoRecord num)
  | some entries =>
    entries.forM (rollbackEntry st)
    let _ ← diskOp (.undoDelete num)
    pure entries.length

end TronGoblin
