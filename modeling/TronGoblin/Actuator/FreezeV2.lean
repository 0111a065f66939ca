import TronGoblin.Actuator.Votes

/-!
# Staking

Model of `tron-actuator/src/freeze_v2.rs`.  Frozen TRX is kept in one slot for each resource; an unfreeze
moves an amount to a list of pending entries, which are withdrawn once they have expired or put back.

* `validateFreezeBalanceV2`, `executeFreezeBalanceV2`.
* `validateUnfreezeBalanceV2`, `executeUnfreezeBalanceV2`: expired entries are swept, votes are trimmed.
* `validateWithdrawExpireUnfreeze`, `executeWithdrawExpireUnfreeze`.
* `validateCancelAllUnfreezeV2`, `executeCancelAllUnfreezeV2`.
-/

namespace TronGoblin.Stake

open BigEndian (wrapI64)
open Checked (require orFail satI64)
open Resource (ResourceKind)

structure FreezeBalanceV2Contract where
  ownerAddress : Bytes
  frozenBalance : Int
  resource : Int
  deriving DecidableEq

structure UnfreezeBalanceV2Contract where
  ownerAddress : Bytes
  unfreezeBalance : Int
  resource : Int
  deriving DecidableEq

structure WithdrawExpireUnfreezeContract where
  ownerAddress : Bytes
  deriving DecidableEq

structure CancelAllUnfreezeV2Contract where
  ownerAddress : Bytes
  deriving DecidableEq

def UNFREEZE_MAX_TIMES : Nat := 32

variable (chain : Chain)

def requireUnfreezeDelay : Except ActuatorError Unit :=
  require (0 < chain.unfreezeDelayDays.getD 0) .unfreezeDelayDisabled

def unfreezeDelayMs : Int :=
  wrapI64 (chain.unfreezeDelayDays.getD 14 * FROZEN_PERIOD_MS.tdiv 3)

/-- `resource_valid`: `TRON_POWER` under the new resource model only. -/
def resourceValid (resource : Int) : Prop :=
  resource = 0 ∨ resource = 1 ∨ resource = 2 ∧ chain.allowNewResourceModel.getD 0 = 1

instance (chain : Chain) (resource : Int) : Decidable (resourceValid chain resource) :=
  inferInstanceAs (Decidable (_ ∨ _ ∨ _ ∧ _))

/-! ## Slots -/

variable (frozenV2 : List FreezeV2)

/-- The amount in the first slot of a resource, `find`. -/
def slotAmount (resource : Int) : Option Int :=
  (frozenV2.find? fun f => f.resource = resource).map (·.amount)

/-- Writes the amount of the first slot of a resource. -/
def setSlot (resource amount : Int) : List FreezeV2 → List FreezeV2
  | [] => []
  | f :: slots => if f.resource = resource then ⟨f.resource, amount⟩ :: slots else f :: setSlot resource amount slots

/-- Adds to the slot of a resource, which is made where there is none. -/
def addToSlot (resource amount : Int) : Except ActuatorError (List FreezeV2) :=
  match slotAmount frozenV2 resource with
  | some held => (fun sum => setSlot resource sum frozenV2) <$> checkAdd held amount
  | none => .ok (frozenV2 ++ [⟨resource, amount⟩])

/-- Takes from the slot of a resource, where there is one. -/
def takeFromSlot (resource amount : Int) : Except ActuatorError (List FreezeV2) :=
  match slotAmount frozenV2 resource with
  | some held => (fun rest => setSlot resource rest frozenV2) <$> checkSub held amount
  | none => .ok frozenV2

variable (account : Account)

/-- What an account has delegated out of a resource. -/
def delegatedV2 (resource : Int) : Int :=
  match resourceKind? resource with
  | some kind => account.delegatedFrozenV2Balance.get kind
  | none => 0

def frozenV2WithDelegated (resource : Int) : Int :=
  satI64 (sumI64 ((account.frozenV2.filter fun f => f.resource = resource).map (·.amount)) +
    delegatedV2 account resource)

variable (s : State)

def State.applyWeightDelta (resource delta : Int) : State :=
  match resourceKind? resource with
  | some kind => s.addTotalWeight chain kind delta
  | none => if resource = 2 then s.addTotalTronPowerWeight chain delta else s

/-- By how much a change of the basis changes the weight. -/
def weightDelta (oldBasis newBasis : Int) : Int := newBasis.tdiv TRX_PRECISION - oldBasis.tdiv TRX_PRECISION

/-! ## Freezing -/

def validateFreezeBalanceV2 (c : FreezeBalanceV2Contract) : Except ActuatorError Unit := do
  requireUnfreezeDelay chain
  let owner ← requireOwner c.ownerAddress
  require (0 < c.frozenBalance ∧ TRX_PRECISION ≤ c.frozenBalance) .freezeTooSmall
  require (resourceValid chain c.resource) .invalidResourceCode
  let account ← s.account owner
  require (c.frozenBalance ≤ account.balance) (.insufficientBalance account.balance c.frozenBalance)

def frozenAccount (c : FreezeBalanceV2Contract) : Except ActuatorError Account := do
  let balance ← checkSub account.balance c.frozenBalance
  let frozenV2 ← addToSlot account.frozenV2 c.resource c.frozenBalance
  return { account with balance := balance, frozenV2 := frozenV2 }

def executeFreezeBalanceV2 (c : FreezeBalanceV2Contract) :
    Except ActuatorError (State × ExecutionResult) := do
  let owner ← requireOwner c.ownerAddress
  let account ← s.account owner
  let account' ← frozenAccount account c
  let oldBasis := frozenV2WithDelegated account c.resource
  let s := s.putAccount owner account'
  let newBasis := satI64 (oldBasis + c.frozenBalance)
  return (s.applyWeightDelta chain c.resource (weightDelta oldBasis newBasis), .default)

/-! ## Unfreezing -/

variable (c : UnfreezeBalanceV2Contract)

def validateUnfreezeBalanceV2 :
    Except ActuatorError Unit := do
  requireUnfreezeDelay chain
  let owner ← requireOwner c.ownerAddress
  require (resourceValid chain c.resource) .invalidResourceCode
  let account ← s.account owner
  let frozen := (slotAmount account.frozenV2 c.resource).getD 0
  require (0 < frozen) .nothingToUnfreeze
  require (0 < c.unfreezeBalance ∧ c.unfreezeBalance ≤ frozen) .unfreezeExceedsFrozen
  let unfreezing := (account.unfrozenV2.filter fun u => chain.now < u.unfreezeExpireTime).length
  require (unfreezing < UNFREEZE_MAX_TIMES) (.tooManyUnfreezes UNFREEZE_MAX_TIMES)

def expiredAmount (now : Int) (unfrozenV2 : List UnFreezeV2) : Int :=
  unfrozenV2.foldl (fun acc u => if u.unfreezeExpireTime ≤ now then satI64 (acc + u.unfreezeAmount) else acc) 0

def unexpired (now : Int) (unfrozenV2 : List UnFreezeV2) : List UnFreezeV2 :=
  unfrozenV2.filter fun u => ¬ u.unfreezeExpireTime ≤ now

/-- The owner's account after an unfreeze, but for its votes. -/
def unfrozenAccount :
    Except ActuatorError Account := do
  let balance ← checkAdd account.balance (expiredAmount chain.now account.unfrozenV2)
  let frozenV2 ← takeFromSlot account.frozenV2 c.resource c.unfreezeBalance
  let entry : UnFreezeV2 := ⟨c.resource, c.unfreezeBalance, wrapI64 (chain.now + unfreezeDelayMs chain)⟩
  return { account with
    balance := balance, frozenV2 := frozenV2
    unfrozenV2 := unexpired chain.now account.unfrozenV2 ++ [entry] }

def executeUnfreezeBalanceV2 :
    Except ActuatorError (State × ExecutionResult) := do
  let owner ← requireOwner c.ownerAddress
  let s := s.settled chain owner
  let account ← s.account owner
  let account' ← unfrozenAccount chain account c
  let oldBasis := frozenV2WithDelegated account c.resource
  let newBasis := satI64 (oldBasis - c.unfreezeBalance)
  let s := s.applyWeightDelta chain c.resource (weightDelta oldBasis newBasis)
  let trimmed := updateVoteAfterUnstake chain s.votes owner account'
  let s := { s with votes := trimmed.1 }
  return (s.putAccount owner trimmed.2, ⟨0, expiredAmount chain.now account.unfrozenV2, []⟩)

/-! ## Withdrawing expired entries -/

def validateWithdrawExpireUnfreeze (c : WithdrawExpireUnfreezeContract) :
    Except ActuatorError Unit := do
  requireUnfreezeDelay chain
  let owner ← requireOwner c.ownerAddress
  let account ← s.account owner
  require (account.unfrozenV2.any fun u => u.unfreezeExpireTime ≤ chain.now) .noExpiredUnfreeze

def withdrawnAccount : Except ActuatorError Account := do
  let balance ← checkAdd account.balance (expiredAmount chain.now account.unfrozenV2)
  return { account with balance := balance, unfrozenV2 := unexpired chain.now account.unfrozenV2 }

def executeWithdrawExpireUnfreeze (c : WithdrawExpireUnfreezeContract) :
    Except ActuatorError (State × ExecutionResult) := do
  let owner ← requireOwner c.ownerAddress
  let account ← s.account owner
  let account' ← withdrawnAccount chain account
  return (s.putAccount owner account', ⟨0, expiredAmount chain.now account.unfrozenV2, []⟩)

/-! ## Cancelling all pending entries -/

def validateCancelAllUnfreezeV2 (c : CancelAllUnfreezeV2Contract) :
    Except ActuatorError Unit := do
  require (chain.allowCancelAllUnfreezeV2.getD 0 = 1) .unfreezeDelayDisabled
  let owner ← requireOwner c.ownerAddress
  let account ← s.account owner
  require (account.unfrozenV2 ≠ []) .nothingToUnfreeze

/-- What the loop over the pending entries carries along. -/
structure Cancelling where
  balance : Int
  frozenV2 : List FreezeV2
  restored : PerKind
  restoredTronPower : Int
  withdrawExpire : Int
  deriving DecidableEq

/-- One pending entry: expired, to the balance; otherwise back to its slot. -/
def cancelEntry (now : Int) (x : Cancelling) (entry : UnFreezeV2) : Except ActuatorError Cancelling :=
  if entry.unfreezeExpireTime ≤ now then do
    let balance ← checkAdd x.balance entry.unfreezeAmount
    return { x with balance := balance, withdrawExpire := satI64 (x.withdrawExpire + entry.unfreezeAmount) }
  else do
    let frozenV2 ← addToSlot x.frozenV2 entry.resource entry.unfreezeAmount
    match resourceKind? entry.resource with
    | some kind =>
      return { x with
        frozenV2 := frozenV2
        restored := x.restored.set kind (satI64 (x.restored.get kind + entry.unfreezeAmount)) }
    | none =>
      let restoredTronPower :=
        if entry.resource = 2 then satI64 (x.restoredTronPower + entry.unfreezeAmount) else x.restoredTronPower
      return { x with frozenV2 := frozenV2, restoredTronPower := restoredTronPower }

def executeCancelAllUnfreezeV2 (c : CancelAllUnfreezeV2Contract) :
    Except ActuatorError (State × ExecutionResult) := do
  let owner ← requireOwner c.ownerAddress
  let account ← s.account owner
  let oldNet := frozenV2WithDelegated account 0
  let oldEnergy := frozenV2WithDelegated account 1
  let oldTronPower := frozenV2WithDelegated account 2
  let x ← account.unfrozenV2.foldlM (cancelEntry chain.now) ⟨account.balance, account.frozenV2, .zero, 0, 0⟩
  let s := s.putAccount owner { account with balance := x.balance, frozenV2 := x.frozenV2, unfrozenV2 := [] }
  let s := s.applyWeightDelta chain 0 (weightDelta oldNet (wrapI64 (oldNet + x.restored.bandwidth)))
  let s := s.applyWeightDelta chain 1 (weightDelta oldEnergy (wrapI64 (oldEnergy + x.restored.energy)))
  let s := s.applyWeightDelta chain 2 (weightDelta oldTronPower (wrapI64 (oldTronPower + x.restoredTronPower)))
  return (s, ⟨0, x.withdrawExpire, [(0, x.restored.bandwidth), (1, x.restored.energy), (2, x.restoredTronPower)]⟩)

end TronGoblin.Stake
