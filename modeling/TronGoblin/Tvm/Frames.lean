import TronGoblin.Consensus.Pbft
import TronGoblin.Lib.UndoLog
import Mathlib.Tactic.Ring

/-!
# The out-of-journal stores under VM frames

Model of `Trc10Inspector` (`tron-tvm/src/trc10.rs`), `StakingJournal` (`staking_journal.rs`) and the
journaled writes of `TronDatabase` (`tron_host.rs`): what a tree of call and create frames does to the
stores that the VM's own journal does not cover.  Logs and stacks have their newest entry first.

* `Stores`: the rows; maps are functions, so that equal contents are equal.
* `BridgeWrite`: the journaled writes of the staking, voting, reward, delegation and selfdestruct
  bridges, with whatever values the bridge has computed.
* `Vm.call`, `Vm.callEnd`, `Vm.create`, `Vm.createEnd`: the hooks at the ends of a frame.
* `Op.run`: a tree of frames.
-/

namespace TronGoblin.Tvm

open Function

open UndoLog (unwindTo putBack)

def TRON_MAX_CALL_DEPTH : Nat := 64

def I64_MAX : Int := 2 ^ 63 - 1

/-! ## Rows -/

structure Account where
  address : Bytes
  assetV2 : String → Option Int
  assetOptimized : Bool
  /-- All other fields, encoded. -/
  others : Bytes

instance : Inhabited Account := ⟨⟨[], fun _ => none, false, []⟩⟩

structure ContractState where
  energyUsage : Int
  energyFactor : Int
  updateCycle : Int
  deriving DecidableEq

instance : Inhabited ContractState := ⟨⟨0, 0, 0⟩⟩

/-- Votes, delegated-resource and index rows are kept in their encoding; a default row has no bytes. -/
structure Stores where
  accounts : Address → Option Account
  votes : Address → Option Bytes
  delegatedResource : Bytes → Option Bytes
  resourceIndex : Bytes → Option Bytes
  delegation : Bytes → Option Bytes
  contractState : Address → Option ContractState
  totalNetWeight : Int64
  totalEnergyWeight : Int64
  totalTronPowerWeight : Int64

/-- What the frames read and do not change. -/
structure Env where
  /-- The account-asset store. -/
  assetRows : Bytes → String → Option Int
  /-- Creation time and default permissions of a new account. -/
  createdFields : Address → Bytes
  isActivePrecompile : Address → Bool
  /-- The inspector has the contract-state store. -/
  dynamicEnergy : Bool
  /-- `caught_up`: the state after the catch-up and whether it is to be written. -/
  caughtUp : Option ContractState → ContractState × Bool
  currentCycle : Int

variable (env : Env)

def Account.importAllAsset (account : Account) : Account :=
  if account.assetOptimized ∧ account.address.length = 21 then
    { account with assetV2 := fun key => account.assetV2 key <|> env.assetRows account.address key }
  else account

def Account.setAsset (account : Account) (key : String) (value : Option Int) : Account :=
  { account with assetV2 := update account.assetV2 key value }

def Stores.putAccount (s : Stores) (addr : Address) (account : Account) : Stores :=
  { s with accounts := update s.accounts addr (some account) }

inductive StakingEntry where
  | account (addr : Address) (prior : Option Account)
  | votes (addr : Address) (prior : Option Bytes)
  | delegatedResource (key : Bytes) (prior : Option Bytes)
  | delegatedResourceIndex (fromKey : Bytes) (fromPrior : Option Bytes) (toKey : Bytes)
      (toPrior : Option Bytes)
  | delegation (key : Bytes) (prior : Option Bytes)
  | netWeight (delta : Int64)
  | energyWeight (delta : Int64)
  | tronPowerWeight (delta : Int64)

def StakingEntry.reverse (e : StakingEntry) (s : Stores) : Stores :=
  match e with
  | .account addr prior => { s with accounts := putBack (addr, prior) s.accounts }
  | .votes addr prior => { s with votes := putBack (addr, prior) s.votes }
  | .delegatedResource key prior =>
    -- an absent row comes back as the default one
    { s with delegatedResource := putBack (key, some (prior.getD [])) s.delegatedResource }
  | .delegatedResourceIndex fromKey fromPrior toKey toPrior =>
    { s with resourceIndex := putBack (toKey, toPrior) (putBack (fromKey, fromPrior) s.resourceIndex) }
  | .delegation key prior => { s with delegation := putBack (key, prior) s.delegation }
  | .netWeight delta => { s with totalNetWeight := s.totalNetWeight + -delta }
  | .energyWeight delta => { s with totalEnergyWeight := s.totalEnergyWeight + -delta }
  | .tronPowerWeight delta => { s with totalTronPowerWeight := s.totalTronPowerWeight + -delta }

structure PendingTransfer where
  callerAddr : Address
  callerPre : Option Int
  targetAddr : Address
  targetPre : Option Int
  tokenIdKey : String

/-- The stores, the staking journal and the inspector. -/
structure Vm where
  stores : Stores
  stakingJournal : List StakingEntry
  pending : List (Option PendingTransfer)
  committed : List PendingTransfer
  committedStarts : List Nat
  csJournal : List (Address × ContractState)
  csJournalStarts : List Nat
  stakingStarts : List Nat
  dynEnergyFrames : List Address
  interpMarkers : List Bool
  /-- The number of open frames. -/
  depth : Nat

namespace Vm

/-! ## Journaled writes -/

def journal (vm : Vm) (e : StakingEntry) : Vm := { vm with stakingJournal := e :: vm.stakingJournal }

variable (addr : Address)

def snapshotAccount (vm : Vm) : Vm :=
  vm.journal (.account addr (vm.stores.accounts addr))

def snapshotVotes (vm : Vm) : Vm := vm.journal (.votes addr (vm.stores.votes addr))

def snapshotDelegationRow (key : Bytes) (vm : Vm) : Vm :=
  vm.journal (.delegation key (vm.stores.delegation key))

def putAccountJournaled (account : Account) (vm : Vm) : Vm :=
  let vm := vm.snapshotAccount addr
  { vm with stores := vm.stores.putAccount addr account }

def putVotesJournaled (votes : Bytes) (vm : Vm) : Vm :=
  let vm := vm.snapshotVotes addr
  { vm with stores := { vm.stores with votes := update vm.stores.votes addr (some votes) } }

def putDelegatedJournaled (key record : Bytes) (vm : Vm) : Vm :=
  let vm := vm.journal (.delegatedResource key (vm.stores.delegatedResource key))
  { vm with stores := { vm.stores with
      delegatedResource := update vm.stores.delegatedResource key (some record) } }

end Vm

/-! ### Keys -/

def utf8 (s : String) : Bytes := s.toUTF8.toList

def hexDigit (n : Nat) : Char := if n < 10 then Char.ofNat (48 + n) else Char.ofNat (87 + n)

def hexEncode (bytes : Bytes) : String :=
  String.ofList (bytes.flatMap fun b => [hexDigit (b.toNat / 16), hexDigit (b.toNat % 16)])

def beginCycleKey (addr : Address) : Bytes := addr.1

def endCycleKey (addr : Address) : Bytes := utf8 ("end-" ++ hexEncode addr.1)

def accountVoteKey (cycle : Int) (addr : Address) : Bytes :=
  utf8 (toString cycle ++ "-" ++ hexEncode addr.1 ++ "-account-vote")

def v2FromKey (owner receiver : Address) : Bytes := 0x03 :: owner.1 ++ receiver.1

def v2ToKey (owner receiver : Address) : Bytes := 0x04 :: receiver.1 ++ owner.1

/-! ### The writes of the bridges -/

/-- The rows that the settling of rewards writes, where it writes them. -/
structure Settlement where
  account : Option Account
  beginCycle : Option Bytes
  endCycle : Option Bytes
  accountVote : Option Bytes

inductive BridgeWrite where
  | putAccount (addr : Address) (account : Account)
  | putVotes (addr : Address) (votes : Bytes)
  /-- `update_vote_after_unstake`, which may leave the votes as they are. -/
  | trimVotes (addr : Address) (votes : Option Bytes)
  | putDelegated (key record : Bytes)
  | delegateIndex (owner receiver : Address) (ownerRow receiverRow : Bytes)
  | undelegateIndex (owner receiver : Address)
  | settleReward (addr : Address) (rows : Settlement)
  | addNetWeight (delta : Int64)
  | addEnergyWeight (delta : Int64)
  | addTronPowerWeight (delta : Int64)

namespace Vm

def putDelegationRow (key : Bytes) (row : Option Bytes) (s : Stores) : Stores :=
  match row with
  | some bytes => { s with delegation := update s.delegation key (some bytes) }
  | none => s

def snapshotDelegationRows (env : Env) (addr : Address) (vm : Vm) : Vm :=
  ((vm.snapshotDelegationRow (beginCycleKey addr)).snapshotDelegationRow
    (endCycleKey addr)).snapshotDelegationRow (accountVoteKey env.currentCycle addr)

/-- `withdraw_reward` with its snapshots. -/
def settleReward (env : Env) (addr : Address) (rows : Settlement) (vm : Vm) : Vm :=
  let vm := (vm.snapshotAccount addr).snapshotDelegationRows env addr
  let stores := match rows.account with
    | some account => vm.stores.putAccount addr account
    | none => vm.stores
  let stores := putDelegationRow (beginCycleKey addr) rows.beginCycle stores
  let stores := putDelegationRow (endCycleKey addr) rows.endCycle stores
  { vm with stores := putDelegationRow (accountVoteKey env.currentCycle addr) rows.accountVote stores }

def journalIndexRows (owner receiver : Address) (vm : Vm) : Vm :=
  vm.journal (.delegatedResourceIndex (v2FromKey owner receiver)
    (vm.stores.resourceIndex (v2FromKey owner receiver)) (v2ToKey owner receiver)
    (vm.stores.resourceIndex (v2ToKey owner receiver)))

def putIndexRows (owner receiver : Address) (ownerRow receiverRow : Option Bytes) (vm : Vm) : Vm :=
  let vm := vm.journalIndexRows owner receiver
  { vm with stores := { vm.stores with
      resourceIndex := update (update vm.stores.resourceIndex
        (v2FromKey owner receiver) ownerRow) (v2ToKey owner receiver) receiverRow } }

def write (env : Env) (vm : Vm) (w : BridgeWrite) : Vm :=
  match w with
  | .putAccount addr account => vm.putAccountJournaled addr account
  | .putVotes addr votes => vm.putVotesJournaled addr votes
  | .trimVotes addr (some votes) => vm.putVotesJournaled addr votes
  | .trimVotes addr none => vm.snapshotVotes addr
  | .putDelegated key record => vm.putDelegatedJournaled key record
  | .delegateIndex owner receiver ownerRow receiverRow =>
    vm.putIndexRows owner receiver (some ownerRow) (some receiverRow)
  | .undelegateIndex owner receiver => vm.putIndexRows owner receiver none none
  | .settleReward addr rows => vm.settleReward env addr rows
  | .addNetWeight delta =>
    if delta = 0 then vm
    else
      let vm := vm.journal (.netWeight delta)
      { vm with stores := { vm.stores with totalNetWeight := vm.stores.totalNetWeight + delta } }
  | .addEnergyWeight delta =>
    if delta = 0 then vm
    else
      let vm := vm.journal (.energyWeight delta)
      { vm with stores := { vm.stores with totalEnergyWeight := vm.stores.totalEnergyWeight + delta } }
  | .addTronPowerWeight delta =>
    if delta = 0 then vm
    else
      let vm := vm.journal (.tronPowerWeight delta)
      { vm with stores := { vm.stores with
          totalTronPowerWeight := vm.stores.totalTronPowerWeight + delta } }

end Vm

/-! ## Token transfers -/

structure CallInputs where
  caller : Address
  targetAddress : Address
  tronTokenId : Int
  /-- The opcode lets no negative value through. -/
  tronTokenValue : Nat

def unwindTransfer (t : PendingTransfer) (s : Stores) : Stores :=
  let callerAccount := (s.accounts t.callerAddr).getD default
  let s := s.putAccount t.callerAddr (callerAccount.setAsset t.tokenIdKey t.callerPre)
  let targetAccount := (s.accounts t.targetAddr).getD default
  s.putAccount t.targetAddr (targetAccount.setAsset t.tokenIdKey t.targetPre)

variable (inputs : CallInputs)

/-- The two accounts of a transfer with their assets, as they are read. -/
def callerAccount (s : Stores) : Account :=
  ((s.accounts inputs.caller).getD { (default : Account) with address := inputs.caller.1 }).importAllAsset env

def targetAccount (s : Stores) : Account :=
  ((s.accounts inputs.targetAddress).getD { (default : Account) with
      address := inputs.targetAddress.1
      others := env.createdFields inputs.targetAddress }).importAllAsset env

/-- What the `call` hook decides. -/
inductive CallStart where
  /-- The callee runs; a transfer may have been made. -/
  | run (transfer : Option PendingTransfer)
  /-- The callee does not run. -/
  | fail

def callStart (vm : Vm) (inputs : CallInputs) : CallStart :=
  let key := toString inputs.tronTokenId
  let callerPre := (callerAccount env inputs vm.stores).assetV2 key
  let targetPre := (targetAccount env inputs vm.stores).assetV2 key
  -- the frame itself is refused at this depth
  if TRON_MAX_CALL_DEPTH < vm.depth then .fail
  else if inputs.tronTokenValue = 0 ∨ inputs.caller = inputs.targetAddress then .run none
  else if callerPre.getD 0 < inputs.tronTokenValue then .fail
  else if (vm.stores.accounts inputs.targetAddress).isNone ∧ env.isActivePrecompile inputs.targetAddress then .fail
  else .run (some ⟨inputs.caller, callerPre, inputs.targetAddress, targetPre, key⟩)

/-- Debit and credit, saturating. -/
def applyTransfer (t : PendingTransfer) (s : Stores) : Stores :=
  let caller := (callerAccount env inputs s).setAsset t.tokenIdKey
    (some (t.callerPre.getD 0 - inputs.tronTokenValue))
  let target := (targetAccount env inputs s).setAsset t.tokenIdKey
    (some (min (t.targetPre.getD 0 + inputs.tronTokenValue) I64_MAX))
  (s.putAccount t.callerAddr caller).putAccount t.targetAddr target

/-! ## The hooks -/

structure FrameResult where
  isOk : Bool
  isHalt : Bool
  /-- `tron_base_spent`. -/
  baseSpent : Int
  deriving DecidableEq

namespace Vm

def pushMarkers (vm : Vm) : Vm :=
  { vm with
    interpMarkers := false :: vm.interpMarkers
    depth := vm.depth + 1
    committedStarts := vm.committed.length :: vm.committedStarts
    csJournalStarts := vm.csJournal.length :: vm.csJournalStarts
    stakingStarts := vm.stakingJournal.length :: vm.stakingStarts }

/-- The `call` hook, with what was decided at its beginning. -/
def call (env : Env) (inputs : CallInputs) (start : CallStart) (vm : Vm) : Vm :=
  let vm := vm.pushMarkers
  match start with
  | .run (some t) =>
    { vm with stores := applyTransfer env inputs t vm.stores, pending := some t :: vm.pending }
  | .run none => { vm with pending := none :: vm.pending }
  | .fail => { vm with pending := none :: vm.pending }

def create (vm : Vm) : Vm := vm.pushMarkers

def initializeInterp (env : Env) (target : Address) (vm : Vm) : Vm :=
  if env.dynamicEnergy then
    let prior := vm.stores.contractState target
    let (state, changed) := env.caughtUp prior
    { vm with
      csJournal := (target, prior.getD default) :: vm.csJournal
      stores := if changed then
          { vm.stores with contractState := update vm.stores.contractState target (some state) }
        else vm.stores
      interpMarkers := true :: vm.interpMarkers.tail
      dynEnergyFrames := target :: vm.dynEnergyFrames }
  else vm

def addEnergyUsage (addr : Address) (amount : Int) (s : Stores) : Stores :=
  let state := (s.contractState addr).getD default
  let state := { state with energyUsage := min (state.energyUsage + amount) I64_MAX }
  { s with contractState := update s.contractState addr (some state) }

variable (result : FrameResult)

def recordFrameEnergy (vm : Vm) : Vm :=
  match vm.dynEnergyFrames with
  | [] => vm
  | target :: frames =>
    let vm := { vm with dynEnergyFrames := frames }
    if result.isHalt then vm
    else if 0 < result.baseSpent then
      { vm with stores := addEnergyUsage target result.baseSpent vm.stores }
    else vm

/-- The part of `call_end` and `create_end` that ends the interpreter. -/
def popMarker (vm : Vm) : Vm :=
  match vm.interpMarkers with
  | true :: markers => recordFrameEnergy result { vm with interpMarkers := markers }
  | false :: markers => { vm with interpMarkers := markers }
  | [] => vm

/-- The frame's own transfer. -/
def popPending (vm : Vm) : Vm :=
  match vm.pending with
  | some t :: pending =>
    if result.isOk then { vm with pending := pending, committed := t :: vm.committed }
    else { vm with pending := pending, stores := unwindTransfer t vm.stores }
  | none :: pending => { vm with pending := pending }
  | [] => vm

/-- The transfers that were made in the frame's subtree. -/
def unwindCommitted (vm : Vm) : Vm :=
  match vm.committedStarts with
  | start :: starts =>
    let vm := { vm with committedStarts := starts }
    if result.isOk then vm
    else
      let (committed, stores) := unwindTo unwindTransfer start vm.committed vm.stores
      { vm with committed := committed, stores := stores }
  | [] => vm

def restoreContractState (e : Address × ContractState) (s : Stores) : Stores :=
  { s with contractState := putBack (e.1, some e.2) s.contractState }

def restoreCsJournalIfReverted (vm : Vm) : Vm :=
  match vm.csJournalStarts with
  | start :: starts =>
    let vm := { vm with csJournalStarts := starts }
    if result.isOk then vm
    else
      let (csJournal, stores) := unwindTo restoreContractState start vm.csJournal vm.stores
      { vm with csJournal := csJournal, stores := stores }
  | [] => vm

def unwindStakingJournalIfReverted (vm : Vm) : Vm :=
  match vm.stakingStarts with
  | start :: starts =>
    let vm := { vm with stakingStarts := starts }
    if result.isOk then vm
    else
      let (stakingJournal, stores) := unwindTo StakingEntry.reverse start vm.stakingJournal vm.stores
      { vm with stakingJournal := stakingJournal, stores := stores }
  | [] => vm

def closeFrame (vm : Vm) : Vm := { vm with depth := vm.depth - 1 }

def callEnd (vm : Vm) : Vm :=
  ((((vm.closeFrame.popMarker result).popPending result).unwindCommitted
    result).restoreCsJournalIfReverted result).unwindStakingJournalIfReverted result

def createEnd (vm : Vm) : Vm :=
  (((vm.closeFrame.unwindCommitted result).popMarker
    result).restoreCsJournalIfReverted result).unwindStakingJournalIfReverted result

end Vm

/-! ## Frame trees -/

inductive FrameKind where
  | call (inputs : CallInputs)
  | create

/-- What a frame does: writes of the bridges, and further frames.  A frame without an interpreter (a
precompile, or no code) does nothing. -/
inductive Op where
  | bridge (w : BridgeWrite)
  | frame (kind : FrameKind) (interp : Option Address) (body : List Op) (result : FrameResult)

def FrameKind.start (vm : Vm) : FrameKind → CallStart
  | .call inputs => callStart env vm inputs
  | .create => .run none

def FrameKind.enter (vm : Vm) : FrameKind → Vm
  | .call inputs => vm.call env inputs (callStart env vm inputs)
  | .create => vm.create

def FrameKind.leave (result : FrameResult) (vm : Vm) : FrameKind → Vm
  | .call _ => vm.callEnd result
  | .create => vm.createEnd result

/-- The outcome when the callee does not run. -/
def refused : FrameResult := ⟨false, false, 0⟩

mutual

def Op.run (env : Env) (vm : Vm) : Op → Vm
  | .bridge w => vm.write env w
  | .frame kind interp body result =>
    match kind.start env vm, interp with
    | .fail, _ => kind.leave refused (kind.enter env vm)
    | .run _, none => kind.leave result (kind.enter env vm)
    | .run _, some target =>
      kind.leave result (Op.runAll env ((kind.enter env vm).initializeInterp env target) body)

def Op.runAll (env : Env) (vm : Vm) : List Op → Vm
  | [] => vm
  | op :: ops => Op.runAll env (op.run env vm) ops

end

end TronGoblin.Tvm
