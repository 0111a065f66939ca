import TronGoblin.Actuator.Market
import TronGoblin.Types.Resource

/-!
# Staked TRX

The stores that the staking transactions of `tron-actuator` share with the reward and maintenance code,
and the helpers they have in common.  Usage windows and the account index of the delegations are left
out: no amount of TRX depends on them.

* `Account`, `DelegatedResource`: what an account has frozen, delegated out and acquired.
* `State`: the stores; `Chain`: what a transaction only reads.
* `tronPower`: the stake that votes are backed by.
-/

namespace TronGoblin.Stake

open Assoc (Table)
open BigEndian (wrapI64)
open Checked (require orFail addI64 subI64 satI64)
open Resource (ResourceKind)

/-! ## Accounts -/

structure Vote where
  voteAddress : Bytes
  voteCount : Int
  deriving DecidableEq

structure Frozen where
  frozenBalance : Int
  expireTime : Int
  deriving DecidableEq

structure FreezeV2 where
  resource : Int
  amount : Int
  deriving DecidableEq

structure UnFreezeV2 where
  resource : Int
  unfreezeAmount : Int
  unfreezeExpireTime : Int
  deriving DecidableEq

/-- A number for each of the two resources that can be delegated. -/
structure PerKind where
  bandwidth : Int
  energy : Int
  deriving DecidableEq

namespace PerKind

def zero : PerKind := ⟨0, 0⟩

variable (p : PerKind)

def get : ResourceKind → Int
  | .bandwidth => p.bandwidth
  | .energy => p.energy

variable (kind : ResourceKind) (v : Int)

def set : PerKind :=
  match kind with
  | .bandwidth => { p with bandwidth := v }
  | .energy => { p with energy := v }

def sum : Int := p.bandwidth + p.energy

@[simp] theorem get_zero : zero.get kind = 0 := by
  cases kind <;> rfl

@[simp] theorem get_set_self : (p.set kind v).get kind = v := by
  cases kind <;> rfl

theorem get_set (kind other : ResourceKind) (v : Int) :
    (p.set kind v).get other = if other = kind then v else p.get other := by
  cases kind <;> cases other <;> rfl

theorem get_set_add (kind other : ResourceKind) (n : Int) :
    (p.set kind (p.get kind + n)).get other = p.get other + if other = kind then n else 0 := by
  rw [get_set]
  split
  · next h => rw [h]
  · rw [Int.add_zero]

theorem sum_set : (p.set kind v).sum = p.sum - p.get kind + v := by
  cases kind <;> simp only [sum, set, get] <;> omega

end PerKind

/-- The amounts of an account.  A missing `account_resource` reads as zeros; the bandwidth part of each
`PerKind` is a field of the account itself, the energy part one of its `account_resource`. -/
structure Account where
  accountType : Int
  balance : Int
  allowance : Int
  votes : List Vote
  frozen : List Frozen
  frozenBalanceForEnergy : Option Frozen
  /-- The legacy stake for `TRON_POWER`. -/
  tronPower : Option Frozen
  delegatedFrozenBalance : PerKind
  acquiredDelegatedFrozenBalance : PerKind
  frozenV2 : List FreezeV2
  unfrozenV2 : List UnFreezeV2
  delegatedFrozenV2Balance : PerKind
  acquiredDelegatedFrozenV2Balance : PerKind
  deriving DecidableEq

def CONTRACT : Int := 2

def Account.default : Account where
  accountType := 0
  balance := 0
  allowance := 0
  votes := []
  frozen := []
  frozenBalanceForEnergy := none
  tronPower := none
  delegatedFrozenBalance := .zero
  acquiredDelegatedFrozenBalance := .zero
  frozenV2 := []
  unfrozenV2 := []
  delegatedFrozenV2Balance := .zero
  acquiredDelegatedFrozenV2Balance := .zero

/-! ## Stores -/

/-- The three key formats of `DelegatedResourceStore`. -/
inductive ResourceKey
  | v1 (owner receiver : Address)
  | v2Unlocked (owner receiver : Address)
  | v2Locked (owner receiver : Address)
  deriving DecidableEq

structure DelegatedResource where
  frozenBalance : PerKind
  expireTime : PerKind
  deriving DecidableEq

def DelegatedResource.default : DelegatedResource := ⟨.zero, .zero⟩

/-- The votes of an account at its first change of the cycle, and now. -/
structure Votes where
  oldVotes : List Vote
  newVotes : List Vote
  deriving DecidableEq

structure Witness where
  voteCount : Int
  isJobs : Bool
  deriving DecidableEq

/-- `DelegationStore`: cycle marks and vote snapshots of the voters, reward pools and vote indices of the
witnesses. -/
structure Delegation where
  beginCycle : Table Address Int
  endCycle : Table Address Int
  accountVote : Table (Int × Address) (List Vote)
  reward : Table (Int × Address) Int
  witnessVi : Table (Int × Address) Int
  witnessVote : Table (Int × Address) Int
  /-- The brokerage of a cycle; the one that a witness has set is at cycle -1. -/
  brokerage : Table (Int × Address) Int

structure State where
  accounts : Table Address Account
  delegatedResource : Table ResourceKey DelegatedResource
  votes : Table Address Votes
  witnesses : Table Address Witness
  activeWitnesses : Option (List Address)
  delegation : Delegation
  /-- `TOTAL_NET_WEIGHT` and `TOTAL_ENERGY_WEIGHT`. -/
  totalWeight : PerKind
  totalTronPowerWeight : Int
  currentCycleNumber : Int
  removeThePowerOfTheGr : Option Int

/-- What is computed in floating point, or from fields that are left out. -/
structure Outside where
  /-- The stake that the decayed usage of an account stands for. -/
  usageWeight : Address → ResourceKind → Int
  /-- `vote_count / total_vote * owned_tron_power / TRX_PRECISION`. -/
  voteShare : Int → Int → Int → Int
  /-- `vote_count * (total_pay / vote_sum)`. -/
  standbyPay : Int → Int → Int → Int
  /-- `old_reward`, for the cycles before the vote index. -/
  oldReward : Int → Int → List Vote → Int
  /-- `mainnet_witnesses`: the first witnesses, with the votes they were given. -/
  genesisWitnesses : List (Address × Int)

/-- The dynamic properties that are only read. -/
structure Chain where
  latestBlockHeaderTimestamp : Option Int
  allowDelegateResource : Option Int
  allowNewResourceModel : Option Int
  allowTvmConstantinople : Option Int
  allowTvmSolidity059 : Option Int
  allowMultiSign : Option Int
  allowNewReward : Option Int
  unfreezeDelayDays : Option Int
  allowCancelAllUnfreezeV2 : Option Int
  maxDelegateLockPeriod : Option Int
  changeDelegation : Option Int
  newRewardAlgorithmEffectiveCycle : Option Int
  consensusLogicOptimization : Option Int
  witnessStandbyAllowance : Option Int
  outside : Outside

variable (chain : Chain)

/-- `latest_block_header_timestamp().unwrap_or(0)`. -/
def Chain.now : Int := chain.latestBlockHeaderTimestamp.getD 0

inductive ActuatorError
  | invalidOwnerAddress
  | invalidToAddress
  | ownerAccountMissing
  | targetAccountMissing
  | nonPositiveAmount
  | insufficientBalance (balance needed : Int)
  | overflow
  | validate (message : String)
  | emptyVoteList
  | tooManyVotes (got max : Nat)
  | invalidVoteAddress
  | nonPositiveVoteCount
  | candidateAccountMissing
  | candidateWitnessMissing
  | insufficientTronPower (required tronPower : Int)
  | freezeTooSmall
  | invalidResourceCode
  | unfreezeDelayDisabled
  | legacyFreezeClosed
  | nothingToUnfreeze
  | unfreezeExceedsFrozen
  | tooManyUnfreezes (max : Nat)
  | noExpiredUnfreeze
  | delegationDisabled
  | receiverSameAsOwner
  | delegatedResourceMissing
  | invalidDelegationReceiver
  | delegationToContract
  | nothingToUndelegate
  deriving DecidableEq

/-- The extras of a receipt.  A cancel lists what it restored for each resource code. -/
structure ExecutionResult where
  unfreezeAmount : Int
  withdrawExpireAmount : Int
  cancelUnfreezeV2Amount : List (Int × Int)
  deriving DecidableEq

def ExecutionResult.default : ExecutionResult := ⟨0, 0, []⟩

/-! ## Helpers -/

/-- One TRX, in sun. -/
def TRX_PRECISION : Int := 1000000

/-- Three days, in milliseconds. -/
def FROZEN_PERIOD_MS : Int := 3 * 24 * 60 * 60 * 1000

def checkAdd (a b : Int) : Except ActuatorError Int := orFail (addI64 a b) .overflow

def checkSub (a b : Int) : Except ActuatorError Int := orFail (subI64 a b) .overflow

def requireOwner (bytes : Bytes) : Except ActuatorError Address :=
  orFail (Market.decodeAddress bytes) .invalidOwnerAddress

def requireTo (bytes : Bytes) : Except ActuatorError Address :=
  orFail (Market.decodeAddress bytes) .invalidToAddress

/-- `iter().sum()`. -/
def sumI64 (l : List Int) : Int := wrapI64 l.sum

/-- The resource that a code stands for; `TRON_POWER` has no entry of its own in a `PerKind`. -/
def resourceKind? (code : Int) : Option ResourceKind :=
  if code = 0 then some .bandwidth else if code = 1 then some .energy else none

variable (s : State) (a : Address)

def State.account : Except ActuatorError Account :=
  orFail (s.accounts.lookup a) .ownerAccountMissing

def State.target : Except ActuatorError Account :=
  orFail (s.accounts.lookup a) .targetAccountMissing

def State.putAccount (account : Account) : State :=
  { s with accounts := s.accounts.insert a account }

variable (key : ResourceKey)

def State.putResource (r : DelegatedResource) : State :=
  { s with delegatedResource := s.delegatedResource.insert key r }

def State.deleteResource : State :=
  { s with delegatedResource := s.delegatedResource.erase key }

/-- A record that holds nothing any more is deleted. -/
def State.storeResource (r : DelegatedResource) : State :=
  if r.frozenBalance.bandwidth = 0 ∧ r.frozenBalance.energy = 0 then s.deleteResource key else s.putResource key r

/-- `get_raw(key)?.unwrap_or_else(..)`. -/
def State.resourceOrNew : DelegatedResource :=
  (s.delegatedResource.lookup key).getD .default

/-- The body that `add_total_net_weight` and its two siblings share. -/
def addWeight (weight delta : Int) : Int :=
  if delta = 0 then weight
  else
    let next := wrapI64 (weight + delta)
    if chain.allowNewReward.getD 0 ≠ 0 then max next 0 else next

/-- `add_total_net_weight` and `add_total_energy_weight`. -/
def State.addTotalWeight (s : State) (kind : ResourceKind) (delta : Int) : State :=
  { s with totalWeight := s.totalWeight.set kind (addWeight chain (s.totalWeight.get kind) delta) }

def State.addTotalTronPowerWeight (s : State) (delta : Int) : State :=
  { s with totalTronPowerWeight := addWeight chain s.totalTronPowerWeight delta }

def TRON_POWER_TYPE : Int := 2

/-- `tron_power`: every stake but the one for `TRON_POWER`, what is delegated out included. -/
def tronPower (account : Account) : Int :=
  let tp := sumI64 (account.frozen.map (·.frozenBalance))
  let tp := satI64 (tp + (account.frozenBalanceForEnergy.map (·.frozenBalance)).getD 0)
  let tp := satI64 (tp + account.delegatedFrozenBalance.energy)
  let tp := satI64 (tp + account.delegatedFrozenV2Balance.energy)
  let tp := satI64 (tp + account.delegatedFrozenBalance.bandwidth)
  let tp := satI64 (tp + sumI64 ((account.frozenV2.filter fun f => f.resource ≠ TRON_POWER_TYPE).map (·.amount)))
  satI64 (tp + account.delegatedFrozenV2Balance.bandwidth)

end TronGoblin.Stake
