import TronGoblin.Tvm.Reward

/-!
# Maintenance

Model of `tron-consensus/src/maintenance.rs`: what happens at the end of a cycle.

* `accumulateWitnessVi`: the reward of the cycle becomes a growth of the vote index.
* `countVote`, `updateActiveWitnesses`: the changes of the cycle are added to the counts of the witnesses,
  and the first 27 become active.
* `tryRemoveThePowerOfTheGr`: the votes that the first witnesses were given are taken back, once.
* `applyMaintenance`: the whole pass.
-/

namespace TronGoblin.Stake

open Assoc (Table)
open BigEndian (wrapI64)
open Checked (satI64)

variable (d : Delegation)

def Delegation.setWitnessVi (witness : Address) (cycle vi : Int) : Delegation :=
  { d with witnessVi := d.witnessVi.insert (cycle, witness) vi }

def accumulateWitnessVi (cycle : Int) (witness : Address) (voteCount : Int) : Delegation :=
  let preVi := d.readVi witness (cycle - 1)
  let reward := d.getReward witness cycle
  if reward = 0 ∨ voteCount = 0 then
    if preVi ≠ 0 then d.setWitnessVi witness cycle preVi else d
  else
    let delta := (satI128 (reward * REWARD_VI_DECIMAL)).tdiv voteCount
    d.setWitnessVi witness cycle (satI128 (preVi + delta))

/-! ## Counting -/

variable (deltas : Table Address Int)

/-- `*deltas.entry(witness).or_insert(0) += count`; a vote for no address is left out. -/
def addDelta (vote : Vote) (count : Int) : Table Address Int :=
  match vote.witness with
  | none => deltas
  | some witness => deltas.insert witness (wrapI64 ((deltas.lookup witness).getD 0 + count))

/-- The old votes of a record are taken off, and its new ones added. -/
def countRecord (record : Votes) : Table Address Int :=
  let deltas := record.oldVotes.foldl (fun deltas v => addDelta deltas v (-v.voteCount)) deltas
  record.newVotes.foldl (fun deltas v => addDelta deltas v v.voteCount) deltas

/-- The net change of every witness's count over the cycle. -/
def countVote (votes : Table Address Votes) : Table Address Int := (Assoc.values votes).foldl countRecord ∅

/-- A witness with the change of its count. -/
def Witness.addVotes (witness : Witness) (delta : Int) : Witness :=
  { witness with voteCount := satI64 (witness.voteCount + delta) }

def updateWitness (f : Witness → Witness) (witnesses : Table Address Witness) (a : Address) : Table Address Witness :=
  match witnesses.lookup a with
  | none => witnesses
  | some w => witnesses.insert a (f w)

def addVotes (witnesses : Table Address Witness) : Table Address Witness :=
  witnesses.keys.foldl (fun witnesses a => updateWitness (·.addVotes ((deltas.lookup a).getD 0)) witnesses a) witnesses

/-! ## Ranking -/

def MAX_ACTIVE_WITNESS_NUM : Nat := 27

def STANDBY_LEN : Nat := 127

/-- `bytestring_hash_code`, an `i32`. -/
def bytestringHashCode (bytes : Bytes) : Int :=
  let h := bytes.foldl (fun h b => Int.bmod (h * 31 + Int.bmod b.toNat 256) 0x100000000) (Int.bmod bytes.length 0x100000000)
  if h = 0 then 1 else h

/-- The order of the ranking: more votes first, and among equals the greater address, or before
`CONSENSUS_LOGIC_OPTIMIZATION` the one with the greater hash code. -/
def rankedBefore (sortOpt : Bool) (a b : Address × Int) : Bool :=
  if a.2 = b.2 then
    if sortOpt then (compare b.1.val a.1.val).isLE
    else decide (bytestringHashCode b.1.val ≤ bytestringHashCode a.1.val)
  else decide (b.2 < a.2)

/-- The witnesses in the order of a scan. -/
def scanned (witnesses : Table Address Witness) : List (Address × Witness) :=
  (witnesses.entries.map fun e => (e.1, e.2)).insertionSort fun a b => (compare a.1.val b.1.val).isLE

/-- The witnesses with their counts, ranked. -/
def ranked (sortOpt : Bool) (witnesses : Table Address Witness) : List (Address × Int) :=
  ((scanned witnesses).map fun e => (e.1, e.2.voteCount)).mergeSort (rankedBefore sortOpt)

structure MaintenanceReport where
  newActive : List Address
  changed : Bool
  voteDeltas : List (Address × Int)

def updateActiveWitnesses (s : State) (sortOpt : Bool) : State × MaintenanceReport :=
  let deltas := countVote s.votes
  let witnesses := addVotes deltas s.witnesses
  let newActive := ((ranked sortOpt witnesses).take MAX_ACTIVE_WITNESS_NUM).map (·.1)
  let prevActive := s.activeWitnesses.getD []
  let voteDeltas := (deltas.entries.map fun e => (e.1, e.2)).insertionSort fun a b => (compare a.1.val b.1.val).isLE
  ({ s with witnesses := witnesses, activeWitnesses := some newActive },
    ⟨newActive, decide (prevActive ≠ newActive), voteDeltas⟩)

/-! ## The pass -/

variable (chain : Chain)

def tryRemoveThePowerOfTheGr (s : State) : State :=
  if s.removeThePowerOfTheGr = some 1 then
    { s with
      witnesses := chain.outside.genesisWitnesses.foldl
        (fun witnesses gr => updateWitness (fun w => { w with voteCount := satI64 (w.voteCount - gr.2) }) witnesses gr.1)
        s.witnesses
      removeThePowerOfTheGr := some (-1) }
  else s

/-- The chain has switched to the vote index. -/
def useNewRewardAlgorithm : Bool :=
  decide (chain.newRewardAlgorithmEffectiveCycle.getD 0x7fffffffffffffff ≠ 0x7fffffffffffffff)

/-- The index of every witness is brought up to the cycle that ends. -/
def accumulateVi (s : State) : State :=
  if useNewRewardAlgorithm chain then
    { s with
      delegation := (scanned s.witnesses).foldl
        (fun d e => accumulateWitnessVi d s.currentCycleNumber e.1 e.2.voteCount) s.delegation }
  else s

def State.creditAllowance (s : State) (a : Address) (pay : Int) : State :=
  match s.accounts.lookup a with
  | none => s
  | some account => s.putAccount a { account with allowance := satI64 (account.allowance + pay) }

/-- The reward before delegation change: an allowance shared among the first 127. -/
def payStandby (s : State) (sortOpt : Bool) : State :=
  let subset := (ranked sortOpt s.witnesses).take STANDBY_LEN
  let voteSum := sumI64 (subset.map (·.2))
  let totalPay := chain.witnessStandbyAllowance.getD 115200000000
  if 0 < voteSum then
    subset.foldl (fun s e => s.creditAllowance e.1 (chain.outside.standbyPay e.2 totalPay voteSum)) s
  else s

/-- The `is_jobs` flags follow the active list.  Where the two lists have the same members nothing is flipped. -/
def flipJobs (s : State) (prevActive newActive : List Address) : State :=
  let leaving := prevActive.filter fun a => a ∉ newActive
  let entering := newActive.filter fun a => a ∉ prevActive
  let witnesses := leaving.foldl (updateWitness fun w => { w with isJobs := false }) s.witnesses
  { s with witnesses := entering.foldl (updateWitness fun w => { w with isJobs := true }) witnesses }

/-- `get_brokerage_global`: what the witness has set, or 20 percent. -/
def Delegation.getBrokerageGlobal (witness : Address) : Int :=
  (d.brokerage.lookup (-1, witness)).getD 20

/-- The next cycle begins, with the brokerage and the votes of every witness. -/
def advanceCycle (s : State) : State :=
  let next := s.currentCycleNumber + 1
  { s with
    currentCycleNumber := next
    delegation := (scanned s.witnesses).foldl
      (fun d e =>
        { d with
          brokerage := d.brokerage.insert (next, e.1) (d.getBrokerageGlobal e.1)
          witnessVote := d.witnessVote.insert (next, e.1) e.2.voteCount })
      s.delegation }

structure MaintenanceOutcome where
  prevActive : List Address
  newActive : List Address
  changed : Bool
  newCycle : Int
  viAccumulatedCount : Nat

/-- No record of the cycle has a vote. -/
def countWitnessEmpty (votes : Table Address Votes) : Bool :=
  (Assoc.values votes).all fun v => v.oldVotes.isEmpty && v.newVotes.isEmpty

/-- The part of the pass that a cycle without a vote skips: counts, ranking, standby rewards and flags. -/
def applyVotes (s : State) : State × MaintenanceReport :=
  let prevActive := s.activeWitnesses.getD []
  if countWitnessEmpty s.votes then (s, ⟨prevActive, false, []⟩)
  else
    let sortOpt := decide (chain.consensusLogicOptimization.getD 0 = 1)
    let (s, report) := updateActiveWitnesses s sortOpt
    let s := if chain.changeDelegation.getD 0 = 1 then s else payStandby chain s sortOpt
    (flipJobs s prevActive report.newActive, report)

def applyMaintenance (s : State) : State × MaintenanceOutcome :=
  let s := accumulateVi chain (tryRemoveThePowerOfTheGr chain s)
  let viAccumulatedCount := if useNewRewardAlgorithm chain then Assoc.size s.witnesses else 0
  let prevActive := s.activeWitnesses.getD []
  let (s, report) := applyVotes chain s
  let s := { s with votes := ∅ }
  let s := if chain.changeDelegation.getD 0 = 1 then advanceCycle s else s
  (s, ⟨prevActive, report.newActive, report.changed, s.currentCycleNumber, viAccumulatedCount⟩)

end TronGoblin.Stake
