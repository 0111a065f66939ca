import TronGoblin.Consensus.Khaos
import TronGoblin.Executor.Branch
import TronGoblin.Mempool.TxMempool

/-!
# Switching forks

Model of `perform_reorg` (`tron-node/src/sync.rs`) with the functions that move transactions between
blocks and the pool.

* `repushReorgedTxs`: transactions of rolled-back blocks go back to the pool.
* `dropIncludedTxsFromMempool`: transactions of an applied block leave it.
* `performReorg`: roll the old branch back, apply the new one; if a block fails, undo what was applied
  (`restoreOldBranch`) and execute the old branch again.
-/

namespace TronGoblin

variable {st : StateBackends}

/-! ## Blocks -/

/-- A transaction of a block, with its bytes in the block's original encoding if those were kept. -/
structure BlockTx where
  tx : Transaction
  span : Option Bytes
  /-- The re-encoding of the decoded transaction. -/
  reencoded : Bytes

/-- The identifier under which a rolled-back transaction is forgotten. -/
def BlockTx.id (codec : TxCodec) (t : BlockTx) : Option TxId :=
  (t.span.bind codec.txIdFromTxBytes).or (t.tx.rawData.map fun rd => codec.sha256 rd.encoded)

/-- The identifier of a transaction without `raw_data` in a report. -/
def zeroTxId : TxId := List.replicate 32 0

/-- The identifier that the executor reports. -/
def BlockTx.reportId (codec : TxCodec) (t : BlockTx) : TxId :=
  match t.tx.rawData with
  | none => zeroTxId
  | some rd => (t.span.bind codec.txIdFromTxBytes).getD (codec.sha256 rd.encoded)

/-- A block as the fork tree keeps it. -/
structure NodeBlock (st : StateBackends) where
  /-- `execute_block_logic`; an error is its debug text. -/
  logic : Prog ReadOp ReadOp.Res (Except String (List (BlockWrite st)))
  transactions : List BlockTx

/-- The transactions that leave the pool when the block is applied. -/
def NodeBlock.included (codec : TxCodec) (b : NodeBlock st) : List TxId :=
  (b.transactions.map (·.reportId codec)).filter (· ≠ zeroTxId)

/-- A node of the fork tree as the executor sees it. -/
def toBranchBlock (kb : KhaosNode (NodeBlock st)) : BranchBlock st String := ⟨kb.num, kb.block.logic⟩

/-! ## The driver -/

/-- What does not change during a fork switch. -/
structure DriverEnv where
  exec : ExecConfig
  /-- The order in which the sessions of the `n`-th executed block are drained. -/
  order : Nat → StoreId → HashOrder
  /-- The wall clock in milliseconds, as read the `n`-th time. -/
  clock : Nat → Int
  codec : TxCodec
  /-- The pool's validator, which looks at the current state. -/
  validator : Option ((StoreId → Contents) → Transaction → Except String Unit)
  /-- The allocations of the fork tree that the callers hold. -/
  held : Nat → Bool

/-- The part of `SyncDriver` that a fork switch works on. -/
structure SyncDriver (st : StateBackends) where
  disk : Disk
  khaos : KhaosDb (NodeBlock st)
  mempool : Option TxMempool
  executions : Nat
  clockReads : Nat

/-- Why a fork switch was refused or given up. -/
inductive ReorgError
  | noCommonAncestor
  | missingUndoRecord (num : Int)
  | rollbackFailed (num : Int) (e : RollbackError)
  /-- The block failed, and the original chain has been restored. -/
  | applyFailed (num : Int) (e : ApplyError String)
  | recoveryFailed (num : Int) (e : ApplyError String) (rollbackErrors : List (Int × RollbackError))
      (reapplyFailed : Option (Int × ApplyError String))

inductive AcceptOutcome
  | accepted (id : BlockId)
  | rejectedValidation (e : ReorgError)
  | rejectedExecution (e : ReorgError)
  | reorgRequired (id : BlockId)

def latestBlockHeaderHash : Bytes := "latest_block_header_hash".toList.map fun c => c.toNat.toUInt8

/-- The executed head; a value of the wrong length counts as none. -/
def executedHead (c : StoreId → Contents) : Option BlockId :=
  (c .dynProps latestBlockHeaderHash).filter fun v => v.length == 32

/-! ## The pool during a fork switch -/

section Pool

variable (env : DriverEnv)

/-- Put one transaction of a rolled-back block back; the pool may refuse it. -/
def repushTx (c : StoreId → Contents) (acc : TxMempool × Nat) (t : BlockTx) : TxMempool × Nat :=
  let pool := match t.id env.codec with
    | some id => acc.1.forgetIncluded id
    | none => acc.1
  ((pool.submitLocal env.codec (env.validator.map (· c)) (env.clock acc.2) (t.span.getD t.reencoded)).2, acc.2 + 1)

/-- Put the transactions of rolled-back blocks back; `c` is the state the pool's validator sees. -/
def repushReorgedTxs (c : StoreId → Contents) (blocks : List (NodeBlock st)) (acc : TxMempool × Nat) :
    TxMempool × Nat :=
  (blocks.flatMap (·.transactions)).foldl (repushTx env c) acc

def dropIncludedTxsFromMempool (b : NodeBlock st) (acc : TxMempool × Nat) : TxMempool × Nat :=
  let removed := (b.included env.codec).foldl
    (fun acc id => (acc.1.remove (env.clock acc.2) id, acc.2 + 1)) acc
  (removed.1.evictExpired (env.clock removed.2), removed.2 + 1)

end Pool

namespace SyncDriver

def onMempool (d : SyncDriver st) (f : TxMempool × Nat → TxMempool × Nat) : SyncDriver st :=
  match d.mempool with
  | none => d
  | some pool => { d with mempool := some (f (pool, d.clockReads)).1, clockReads := (f (pool, d.clockReads)).2 }

end SyncDriver

/-! ## Rolling back -/

def rollbackUntil (st : StateBackends) : List Int → Disk → Option (Int × RollbackError) × Disk
  | [], s => (none, s)
  | num :: nums, s =>
    match Prog.exec Disk.handle (rollbackBlock st num) s with
    | (.ok _, s') => rollbackUntil st nums s'
    | (.error e, s') => (some (num, e), s')

/-- Roll all blocks back, collecting the errors. -/
def unwind (st : StateBackends) : List Int → Disk → List (Int × RollbackError) × Disk
  | [], s => ([], s)
  | num :: nums, s =>
    match Prog.exec Disk.handle (rollbackBlock st num) s with
    | (.ok _, s') => unwind st nums s'
    | (.error e, s') => ((num, e) :: (unwind st nums s').1, (unwind st nums s').2)

/-- Where every rollback goes through, both loops end without an error. -/
theorem rollbackLoops_ok {nums : List Int} {s s' : Disk} (h : rollbackBlocks st nums s = .ok s') :
    rollbackUntil st nums s = (none, s') ∧ unwind st nums s = ([], s') := by
  induction nums generalizing s with
  | nil =>
    cases h
    exact ⟨rfl, rfl⟩
  | cons num nums ih =>
    rcases hexec : Prog.exec Disk.handle (rollbackBlock st num) s with ⟨r, s₁⟩
    rw [rollbackBlocks, hexec] at h
    rw [rollbackUntil, unwind, hexec]
    cases r with
    | ok n => exact ih h
    | error e => cases h

/-! ## `perform_reorg` -/

section Reorg

variable (env : DriverEnv) (newBlock : NodeBlock st) (newId : BlockId)

/-- The block to apply for a node of the new branch. -/
def blockToApply (kb : KhaosNode (NodeBlock st)) : NodeBlock st :=
  if kb.id = newId then newBlock else kb.block

/-- Apply the new branch, oldest first, until a block fails: the failing block with its error, the
numbers of those applied, and the driver. -/
def applyBranch : List (KhaosNode (NodeBlock st)) → List Int → SyncDriver st →
    Option (KhaosNode (NodeBlock st) × ApplyError String) × List Int × SyncDriver st
  | [], applied, d => (none, applied, d)
  | kb :: rest, applied, d =>
    let block := blockToApply newBlock newId kb
    match executeBlock env.exec (env.order d.executions) ⟨kb.num, block.logic⟩ d.disk with
    | (.ok (), disk) =>
      let d' : SyncDriver st := { d with disk := disk, executions := d.executions + 1 }
      applyBranch rest (applied ++ [kb.num]) (d'.onMempool (dropIncludedTxsFromMempool env block))
    | (.error e, disk) =>
      (some (kb, e), applied, { d with disk := disk, executions := d.executions + 1 })

/-- Point the block index at the blocks of a branch that has become canonical. -/
def reindexCanonicalBranch (d : SyncDriver st) (blocks : List (KhaosNode (NodeBlock st))) : SyncDriver st :=
  if st.attached .blockIndex then
    { d with disk := blocks.foldl (fun s kb =>
        s.setStore .blockIndex ((s.stores .blockIndex).append [⟨kb.id.take 8, some kb.id⟩])) d.disk }
  else d

/-- Point the head at a block, if the tree has it. -/
def repointHead (head : BlockId) (db : KhaosDb (NodeBlock st)) : KhaosDb (NodeBlock st) :=
  match db.get head with
  | some oldHead => db.setHead oldHead
  | none => db

/-- A block of the new branch has failed: undo the ones applied before it, execute the old branch again
and, if that worked, cut the new branch off the fork tree. -/
def restoreOldBranch (head : BlockId) (pathOld pathNew : List (KhaosNode (NodeBlock st)))
    (failed : KhaosNode (NodeBlock st)) (e : ApplyError String) (applied : List Int)
    (d : SyncDriver st) : AcceptOutcome × SyncDriver st :=
  let undone := unwind st applied.reverse d.disk
  let redone := reapply env.exec env.order (pathOld.reverse.map toBranchBlock) d.executions undone.2
  let d' := { d with disk := redone.2.2, executions := redone.2.1 }
  match redone.1, undone.1 with
  | none, [] =>
    (.rejectedExecution (.applyFailed failed.num e), { d' with khaos := repointHead head (d.khaos.removeAll pathNew) })
  | reapplyFailed, rollbackErrors =>
    (.rejectedExecution (.recoveryFailed failed.num e rollbackErrors reapplyFailed), d')

/-- The switch itself, between two branches that have been found. -/
def switchBranch (head : BlockId) (pathOld pathNew : List (KhaosNode (NodeBlock st)))
    (d : SyncDriver st) : AcceptOutcome × SyncDriver st :=
  match rollbackUntil st (pathOld.map (·.num)) d.disk with
  | (some (num, e), disk) => (.rejectedExecution (.rollbackFailed num e), { d with disk := disk })
  | (none, disk) =>
    let d' : SyncDriver st := { d with disk := disk }
    match applyBranch env newBlock newId pathNew.reverse []
        (d'.onMempool (repushReorgedTxs env disk.contents (pathOld.map (·.block)))) with
    | (none, _, d'') => (.accepted newId, reindexCanonicalBranch d'' pathNew.reverse)
    | (some (failed, e), applied, d'') => restoreOldBranch env head pathOld pathNew failed e applied d''

def performReorg (d : SyncDriver st) : AcceptOutcome × SyncDriver st :=
  match executedHead d.disk.contents with
  | none => (.reorgRequired newId, d)
  | some head =>
    match d.khaos.getBranch env.held head newId with
    | none =>
      (.rejectedValidation .noCommonAncestor, { d with khaos := d.khaos.remove newId })
    | some (pathOld, pathNew) =>
      -- nothing is rolled back unless every block of the old branch has its record
      match pathOld.find? fun kb => (d.disk.undo.contents kb.num).isNone with
      | some kb => (.rejectedValidation (.missingUndoRecord kb.num), d)
      | none => switchBranch env newBlock newId head pathOld pathNew d

end Reorg

end TronGoblin
