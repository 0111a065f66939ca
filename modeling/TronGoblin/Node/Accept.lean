import TronGoblin.Consensus.ForkChoice
import TronGoblin.Consensus.Solidify
import TronGoblin.Executor.BlockLogic
import TronGoblin.Node.PeerAcceptance

/-!
# Accepting blocks

Model of `SyncDriver::accept_block` (`tron-node/src/sync.rs`): the checks of a block, the fork tree, the
solidified-containment gate, the execution of an extension, both ways to switch branches, and the
stashed blocks that become linkable.

* `check`: what a block must pass before the fork tree sees it.
* `gateNewHeadAgainstSolidified`: a new head must descend from the solidified block.
* `executeExtension`, `performReorg`, `performReorgViaSnapshot`: the state moves.
* `acceptBlock`, `run`: one call, and a sequence of calls.

An undo record is taken as the state before its block (`ReorgRefines` has the records of the stores), a layer of the
snapshot stack as the view below it.  Storage faults are left out, and so are the pool, the events and the index hook.
-/

namespace TronGoblin.Accept

open BlockId

open Assoc (Table)
open Proto (Block HeaderRaw)

variable {T σ : Type}

/-! ## The driver -/

/-- What the wrapped stores show. -/
structure View (T σ : Type) where
  state : ChainState T σ
  /-- `latest_solidified_block_num`, 0 if it is not set. -/
  solidified : Int

structure SnapshotStack (T σ : Type) where
  /-- The view below each layer, top layer first. -/
  below : List (View T σ)
  /-- Oldest first. -/
  blockNums : List Int
  horizon : Nat

/-- How a state before a block is kept. -/
inductive Versions (T σ : Type)
  /-- `BlockUndoStore`, by block number. -/
  | undo (records : Table Int (ChainState T σ))
  | snapshots (stack : SnapshotStack T σ)

structure Driver (T σ : Type) where
  view : View T σ
  versions : Versions T σ
  khaos : KhaosDb.Inner (Block T)
  khaosStarted : Bool
  blockStore : Table BlockId (Block T)
  blockIndex : Table Int BlockId
  readyOrphans : List (Block T × Option Bytes)

def Driver.state (d : Driver T σ) : ChainState T σ := d.view.state

def Driver.ledger (d : Driver T σ) : Ledger σ := d.view.state.ledger

def Driver.executedHead (d : Driver T σ) : Option BlockId := d.ledger.latestBlockHeaderHash

inductive Rejection
  | txTrie (cause : BlockValidateError)
  | witnessSig (cause : String)
  | consensus (cause : ConsensusError)
  | blockId
  | refBlock (cause : PeerRejection)
  | unlinked
  | badNumber (parentNum blockNum : Int)
  | malformed
  | noCommonAncestor
  | missingUndoRecord (num : Int)
  | pastHorizon (num : Int)
  deriving DecidableEq

inductive ExecutionFailure
  | block (num : Int) (cause : BlockExecError)
  | rollback (num : Int)
  | recovery (num : Int) (cause : BlockExecError) (rollbackErrors : List Int)
      (reapplyFailed : Option (Int × BlockExecError))
  | snapshotDrift (expected actual : Int)
  deriving DecidableEq

inductive AcceptOutcome
  | accepted (id : BlockId)
  | alreadyKnown (id : BlockId)
  | sideFork (id : BlockId)
  | reorgRequired (id : BlockId) (num : Int)
  | rejectedSolidifiedDiverged (id : BlockId)
  | rejectedValidation (cause : Rejection)
  | rejectedExecution (cause : ExecutionFailure)
  deriving DecidableEq

/-! ## The checks -/

section Checks

variable (env : Env T σ) (d : Driver T σ) (block : Block T)

/-- `block_extends_executed_head`; any block does before the first one. -/
def blockExtendsExecutedHead : Bool :=
  match block.raw with
  | none => false
  | some raw =>
    match d.executedHead with
    | some head => decide (head = raw.parentHash)
    | none => true

/-- `validate_block_consensus_gate`: nothing is checked without a head, a genesis time or a schedule. -/
def validateBlockConsensusGate : Except ConsensusError Unit :=
  match d.ledger.latestBlockHeaderNumber, d.ledger.latestBlockHeaderTimestamp,
    d.ledger.genesisBlockTimestamp, d.ledger.active with
  | some number, some headTime, some genesisTime, some active =>
    if 0 < number ∧ active ≠ [] then
      validateBlockConsensus block active headTime genesisTime d.ledger.headWasMaintenance
        d.ledger.allowConsensusLogicOptimization
    else .ok ()
  | _, _, _, _ => .ok ()

def toHash256 (bytes : Bytes) : Option Hash256 :=
  if h : bytes.length = 32 then some ⟨bytes.toArray, by simpa using h⟩ else none

/-- `BlockIndexStore::get`. -/
def indexed (index : Table Int BlockId) : BlockIndex := fun num => (index.lookup num).bind toHash256

/-- What a block must pass before it reaches the fork tree.  The slot and the references are looked at
only if it extends the executed head. -/
def check (bytes : Option Bytes) : Except Rejection BlockId := do
  match bytes with
  | some bytes => (verifyTxTrieRootRaw env.sha256 block bytes).mapError .txTrie
  | none => (verifyTxTrieRoot env block).mapError .txTrie
  (env.verifyWitness block d.ledger).mapError .witnessSig
  if blockExtendsExecutedHead d block then (validateBlockConsensusGate d block).mapError .consensus
  let id ← Checked.orFail (blockIdFromBlock env.fmt block) .blockId
  if env.strictRefBlock && blockExtendsExecutedHead d block then
    (checkRefBlocks env.rawOf (saturatingPred ((block.raw.map (·.number)).getD 0))
      (indexed d.blockIndex) 0 block.transactions).mapError .refBlock
  return id

end Checks

/-! ## The fork tree -/

section ForkTree

variable (env : Env T σ) (d : Driver T σ)

def SEED_WINDOW : Int := 256

/-- `BlockIndexStore::lowest`; keys are ordered as unsigned numbers. -/
def lowest (index : Table Int BlockId) : Option Int :=
  index.keys.foldl (fun best n => some (best.elim n fun m =>
    if n % BigEndian.wordCount < m % BigEndian.wordCount then n else m)) none

/-- The indexed blocks up to the head, oldest first; none if one is missing. -/
def recentBlocks : List (Block T) :=
  let headNum := d.ledger.latestBlockHeaderNumber.getD 0
  let start := max (headNum - SEED_WINDOW) ((lowest d.blockIndex).getD headNum)
  ((List.range (headNum - start + 1).toNat).mapM fun i =>
    (d.blockIndex.lookup (start + i)).bind d.blockStore.lookup).getD []

/-- The tree of the given blocks, oldest first; `none` if there is no first one. -/
def seedWith : List (Block T) → Option (KhaosDb.Inner (Block T))
  | [] => none
  | first :: rest =>
    match d.khaos.start env.fmt first with
    | (.ok (), khaos) =>
      some (rest.foldl (fun g b => (g.pushWithRaw env.fmt (fun _ => false) b none).2) khaos)
    | (.error _, _) => none

/-- Fill an empty fork tree: with the recent blocks, or else with the head alone. -/
def seeded (head : BlockId) : KhaosDb.Inner (Block T) :=
  (seedWith env d (recentBlocks d)).getD
    (((d.blockStore.lookup head).map fun block => (d.khaos.start env.fmt block).2).getD d.khaos)

/-- Seed the fork tree before the first block of the session. -/
def seedKhaos : Driver T σ :=
  if d.khaosStarted then d
  else if d.khaos.head.isSome then { d with khaosStarted := true }
  else
    match d.executedHead with
    | none => d
    | some head => { d with khaos := seeded env d head, khaosStarted := true }

/-- The allocation that the caller holds while it works on the tree: the previous head. -/
def heldBy (prevHead : Option (KhaosBlock (WireBlock (Block T)))) (serial : Nat) : Bool :=
  prevHead.any fun h => h.node.serial == serial

/-- Push a block; the blocks that waited for it are queued. -/
def pushBlock (id : BlockId) (block : Block T) (bytes : Option Bytes) :
    Except Rejection (KhaosBlock (WireBlock (Block T))) × Driver T σ :=
  match d.khaos.pushWithRaw env.fmt (heldBy d.khaos.head) block bytes with
  | (.ok outcome, khaos) =>
    let taken := khaos.takeOrphansWaitingOn id
    (.ok outcome.head, { d with
      khaos := taken.1, readyOrphans := d.readyOrphans ++ taken.2, khaosStarted := true })
  | (.error .unlinked, khaos) =>
    if d.khaosStarted then (.error .unlinked, { d with khaos := khaos })
    else
      -- a tree without a head links anything, so this is not reached
      let khaos := (khaos.start env.fmt block).2
      (Checked.orFail khaos.head .malformed, { d with khaos := khaos, khaosStarted := true })
  | (.error (.badNumber parentNum blockNum), khaos) =>
    (.error (.badNumber parentNum blockNum), { d with khaos := khaos })
  | (.error .malformed, khaos) => (.error .malformed, { d with khaos := khaos })

/-- `KhaosDb::get_branch`, while the caller holds the previous head. -/
def getBranch (prevHead : Option (KhaosBlock (WireBlock (Block T)))) (head new : BlockId) :
    Option (List (WireNode (Block T)) × List (WireNode (Block T))) :=
  d.khaos.toKhaosDb.getBranch (heldBy prevHead) head new

end ForkTree

/-! ## The solidified block -/

section Solidified

variable (d : Driver T σ)

def updateSolidified : Driver T σ :=
  match d.ledger.active with
  | none => d
  | some active =>
    match solidBlockFromWitnesses (active.map fun a => (d.ledger.witnesses.lookup a).getD 0) with
    | none => d
    | some solid =>
      if d.view.solidified < solid then { d with view := { d.view with solidified := solid } } else d

def parentOf (id : BlockId) : Option BlockId := do
  let block ← d.blockStore.lookup id
  let raw ← block.raw
  if raw.parentHash.length = 32 then some raw.parentHash else none

/-- `(id.num() as i64).max(0)`. -/
def walkHeight (id : BlockId) : Int := max (height id) 0

/-- Walk back while the block is above the solidified number; `none` at a gap. -/
def walkBack (solid : Int) : Nat → BlockId → Option BlockId
  | 0, cur => some cur
  | steps + 1, cur =>
    if solid < walkHeight cur then (parentOf d cur).bind (walkBack solid steps) else some cur

/-- The solidified block on the executed chain, if the gate finds it. -/
def solidifiedId (head : BlockId) : Option BlockId :=
  (walkBack d d.view.solidified ForkChoice.WALK_HORIZON head).filter fun id => walkHeight id = d.view.solidified

/-- The new head is turned away. -/
def diverges (env : Env T σ) (newHead : KhaosBlock (WireBlock (Block T)))
    (prevHead : Option (KhaosBlock (WireBlock (Block T)))) : Bool :=
  if prevHead.any fun h => h.node.id = newHead.node.id then false
  else if d.view.solidified < 1 then false
  else
    match d.executedHead with
    | none => false
    | some head =>
      if newHead.node.parentId env.fmt = some head then false
      else
        match solidifiedId d head with
        | none => false
        | some solidId =>
          !(ForkChoice.bestHeadWithSolidified (parentOf d) solidId [⟨newHead.node.id, newHead.node.num⟩]).isOk

/-- `gate_new_head_against_solidified`: a head that is turned away is taken back. -/
def gateNewHeadAgainstSolidified (env : Env T σ) (newHead : KhaosBlock (WireBlock (Block T)))
    (prevHead : Option (KhaosBlock (WireBlock (Block T)))) : Option BlockId × Driver T σ :=
  if diverges d env newHead prevHead then
    (some newHead.node.id, { d with khaos := prevHead.elim d.khaos d.khaos.setHead })
  else (none, d)

end Solidified

/-! ## Extensions -/

namespace SnapshotStack

variable (stack : SnapshotStack T σ)

/-- Merge layers until the stack is within its horizon.  What is squashed is the top layer. -/
def drain : SnapshotStack T σ :=
  { stack with
    below := stack.below.drop (stack.blockNums.length - stack.horizon)
    blockNums := stack.blockNums.drop (stack.blockNums.length - stack.horizon) }

/-- A block was applied in a new layer over the view. -/
def push (v : View T σ) (num : Int) : SnapshotStack T σ :=
  { stack with below := v :: stack.below, blockNums := stack.blockNums ++ [num] }

/-- `revoke` of the top layer; with no layer left the view stays. -/
def revoke (v : View T σ) : View T σ × SnapshotStack T σ :=
  match stack.below with
  | [] => (v, { stack with blockNums := stack.blockNums.dropLast })
  | under :: below => (under, { stack with below := below, blockNums := stack.blockNums.dropLast })

end SnapshotStack

section Extension

variable (env : Env T σ)

/-- Execute one block, and keep the state before it. -/
def applyBlock (b : WireBlock (Block T)) (num : Int) (expectedParent : Option BlockId)
    (d : Driver T σ) : Except BlockExecError (Driver T σ) := do
  let state ← executeBlock env b expectedParent d.state
  return { d with
    view := { d.view with state := state }
    versions := match d.versions with
      | .undo records => .undo (records.insert num d.state)
      | .snapshots stack => .snapshots (stack.push d.view num) }

/-- Bring the snapshot stack within its horizon. -/
def drained (d : Driver T σ) : Driver T σ :=
  match d.versions with
  | .undo _ => d
  | .snapshots stack => { d with versions := .snapshots stack.drain }

def executeExtension (id : BlockId) (b : WireBlock (Block T)) (d : Driver T σ) : AcceptOutcome × Driver T σ :=
  let num := height id
  let d := { d with blockIndex := d.blockIndex.insert num id }
  match applyBlock env b num d.executedHead d with
  | .ok d => (.accepted id, updateSolidified (drained d))
  | .error e =>
    (.rejectedExecution (.block num e), { d with khaos := d.khaos.remove id, blockIndex := d.blockIndex.erase num })

end Extension

/-! ## Switching branches -/

section Reorg

variable (env : Env T σ) (newBlock : Block T) (newId : BlockId)

/-- The block to execute for a node of the new branch, with its bytes. -/
def blockToApply (kb : WireNode (Block T)) : WireBlock (Block T) :=
  if kb.id = newId then ⟨newBlock, kb.block.raw⟩ else kb.block

def reindexCanonicalBranch (nodes : List (WireNode (Block T))) (d : Driver T σ) : Driver T σ :=
  { d with
    blockIndex :=
      nodes.foldl (fun index kb => index.insert (height kb.id) kb.id) d.blockIndex }

/-- Execute blocks one after the other until one fails: the failed block with its error, and the
numbers of those executed. -/
def applyBranch : List (Int × WireBlock (Block T)) → List Int → Driver T σ →
    Option (Int × BlockExecError) × List Int × Driver T σ
  | [], applied, d => (none, applied, d)
  | (num, b) :: rest, applied, d =>
    match applyBlock env b num none d with
    | .ok d => applyBranch rest (applied ++ [num]) d
    | .error e => (some (num, e), applied, d)

/-- `rollback_block`: back to the recorded state; the record is used up. -/
def rollbackBlock (num : Int) (d : Driver T σ) : Option (Driver T σ) :=
  match d.versions with
  | .snapshots _ => none
  | .undo records =>
    (records.lookup num).map fun state =>
      { d with view := { d.view with state := state }, versions := .undo (records.erase num) }

/-- Roll blocks back, newest first, until one fails. -/
def rollbackUntil : List Int → Driver T σ → Option Int × Driver T σ
  | [], d => (none, d)
  | num :: nums, d =>
    match rollbackBlock num d with
    | none => (some num, d)
    | some d => rollbackUntil nums d

/-- Roll all blocks back, collecting those that fail. -/
def unwind : List Int → Driver T σ → List Int × Driver T σ
  | [], d => ([], d)
  | num :: nums, d =>
    match rollbackBlock num d with
    | none => (num :: (unwind nums d).1, (unwind nums d).2)
    | some d => unwind nums d

/-- Cut a branch off the tree, and point the head at the restored block. -/
def cutBranch (head : BlockId) (nodes : List (WireNode (Block T))) (g : KhaosDb.Inner (Block T)) :
    KhaosDb.Inner (Block T) :=
  let g := nodes.foldl (fun g kb => g.remove kb.id) g
  match g.toKhaosDb.get head with
  | some old => g.setHead old
  | none => g

/-- A block of the new branch has failed: undo the ones before it, and execute the old branch again. -/
def restoreOldBranch (head : BlockId) (pathOld pathNew : List (WireNode (Block T)))
    (failed : Int × BlockExecError) (applied : List Int) (d : Driver T σ) :
    AcceptOutcome × Driver T σ :=
  let undone := unwind applied.reverse d
  let redone := applyBranch env (pathOld.reverse.map fun kb => (kb.num, kb.block)) [] undone.2
  match redone.1, undone.1 with
  | none, [] =>
    (.rejectedExecution (.block failed.1 failed.2),
      { redone.2.2 with khaos := cutBranch head pathNew redone.2.2.khaos })
  | reapplyFailed, rollbackErrors =>
    (.rejectedExecution (.recovery failed.1 failed.2 rollbackErrors reapplyFailed), redone.2.2)

def newBranch (pathNew : List (WireNode (Block T))) : List (Int × WireBlock (Block T)) :=
  pathNew.reverse.map fun kb => (kb.num, blockToApply newBlock newId kb)

/-- The switch with undo records. -/
def switchBranch (newId head : BlockId) (pathOld pathNew : List (WireNode (Block T)))
    (d : Driver T σ) : AcceptOutcome × Driver T σ :=
  match rollbackUntil (pathOld.map (·.num)) d with
  | (some num, d) => (.rejectedExecution (.rollback num), d)
  | (none, d) =>
    match applyBranch env (newBranch newBlock newId pathNew) [] d with
    | (none, _, d) => (.accepted newId, reindexCanonicalBranch pathNew.reverse d)
    | (some failed, applied, d) => restoreOldBranch env head pathOld pathNew failed applied d

/-- `perform_reorg`; nothing is rolled back unless every block of the old branch has its record. -/
def performReorg
    (prevHead : Option (KhaosBlock (WireBlock (Block T)))) (records : Table Int (ChainState T σ))
    (d : Driver T σ) : AcceptOutcome × Driver T σ :=
  match d.executedHead with
  | none => (.reorgRequired newId (height newId), d)
  | some head =>
    match getBranch d prevHead head newId with
    | none => (.rejectedValidation .noCommonAncestor, { d with khaos := d.khaos.remove newId })
    | some (pathOld, pathNew) =>
      match pathOld.find? fun kb => (records.lookup kb.num).isNone with
      | some kb => (.rejectedValidation (.missingUndoRecord kb.num), d)
      | none => switchBranch env newBlock newId head pathOld pathNew d

/-- Revoke the layers of the old branch, newest first. -/
def revokeLayers : List Int → SnapshotStack T σ → View T σ → Option AcceptOutcome × SnapshotStack T σ × View T σ
  | [], stack, v => (none, stack, v)
  | num :: nums, stack, v =>
    match stack.blockNums.getLast? with
    | none => (some (.rejectedValidation (.pastHorizon num)), stack, v)
    | some top =>
      if top = num then
        let r := stack.revoke v
        revokeLayers nums r.2 r.1
      else (some (.rejectedExecution (.snapshotDrift num top)), stack, v)

/-- `perform_reorg_via_snapshot`; the old branch is not restored when a block fails. -/
def performReorgViaSnapshot
    (prevHead : Option (KhaosBlock (WireBlock (Block T)))) (stack : SnapshotStack T σ)
    (d : Driver T σ) : AcceptOutcome × Driver T σ :=
  match d.executedHead with
  | none => (.reorgRequired newId (height newId), d)
  | some head =>
    match getBranch d prevHead head newId with
    | none => (.rejectedValidation .noCommonAncestor, { d with khaos := d.khaos.remove newId })
    | some (pathOld, pathNew) =>
      match revokeLayers (pathOld.map (·.num)) stack d.view with
      | (some outcome, stack, v) => (outcome, { d with view := v, versions := .snapshots stack })
      | (none, stack, v) =>
        match applyBranch env (newBranch newBlock newId pathNew) []
            { d with view := v, versions := .snapshots stack } with
        | (some (num, e), _, d) => (.rejectedExecution (.block num e), d)
        | (none, _, d) => (.accepted newId, reindexCanonicalBranch pathNew.reverse (drained d))

end Reorg

/-! ## `accept_block` -/

section Accept

variable (env : Env T σ)

/-- The new head's parent, if its pointer can be followed, is not the executed head. -/
def needsReorg (d : Driver T σ) (prevHead : Option (KhaosBlock (WireBlock (Block T))))
    (newHead : KhaosBlock (WireBlock (Block T))) : Bool :=
  match newHead.ancestors, d.executedHead with
  | p :: _, some head => d.khaos.upgrades (heldBy prevHead) p && decide (p.id ≠ head)
  | _, _ => false

/-- What is done with a block that the fork tree has linked. -/
def settle (id : BlockId) (block : Block T) (bytes : Option Bytes)
    (prevHead : Option (KhaosBlock (WireBlock (Block T))))
    (newHead : KhaosBlock (WireBlock (Block T))) (d : Driver T σ) : AcceptOutcome × Driver T σ :=
  let d := { d with blockStore := d.blockStore.insert id block }
  match gateNewHeadAgainstSolidified d env newHead prevHead with
  | (some rejected, d) => (.rejectedSolidifiedDiverged rejected, d)
  | (none, d) =>
    if newHead.node.id ≠ id then (.sideFork id, d)
    else if needsReorg d prevHead newHead then
      match d.versions with
      | .snapshots stack => performReorgViaSnapshot env block id prevHead stack d
      | .undo records => performReorg env block id prevHead records d
    else executeExtension env id ⟨block, bytes⟩ d

def acceptBlockInner (block : Block T) (bytes : Option Bytes) (d : Driver T σ) : AcceptOutcome × Driver T σ :=
  match check env d block bytes with
  | .error e => (.rejectedValidation e, d)
  | .ok id =>
    let d := seedKhaos env d
    if d.khaos.containsInLinked id then (.alreadyKnown id, d)
    else
      let prevHead := d.khaos.head
      match pushBlock env d id block bytes with
      | (.error e, d) => (.rejectedValidation e, d)
      | (.ok newHead, d) => settle env id block bytes prevHead newHead d

def MAX_REFEED : Nat := 1024

/-- Accept the queued blocks, oldest first; at the cap the rest is dropped. -/
def refeedReadyOrphans : Nat → Driver T σ → Driver T σ
  | 0, d => { d with readyOrphans := [] }
  | fed + 1, d =>
    match d.readyOrphans with
    | [] => d
    | (orphan, bytes) :: rest =>
      refeedReadyOrphans fed (acceptBlockInner env orphan bytes { d with readyOrphans := rest }).2

def acceptBlock (block : Block T) (bytes : Option Bytes) (d : Driver T σ) : AcceptOutcome × Driver T σ :=
  let r := acceptBlockInner env block bytes d
  (r.1, refeedReadyOrphans env MAX_REFEED r.2)

def run (d : Driver T σ) (calls : List (Block T × Option Bytes)) : Driver T σ :=
  calls.foldl (fun d call => (acceptBlock env call.1 call.2 d).2) d

end Accept

end TronGoblin.Accept
