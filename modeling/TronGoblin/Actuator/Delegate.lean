import TronGoblin.Actuator.FreezeV2

/-!
# Resource delegation

Model of `tron-actuator/src/delegate.rs` and of `unlock_expire_resource` in `DelegatedResourceStore`.  An
owner lends frozen TRX of a resource to a receiver.  What is lent with a lock is kept apart, in one record
for each pair with one expiry for each resource, until the expiry has passed.

* `unlockExpireResource`: an expired lock is folded into the record that can be recalled.
* `validateDelegateResource`, `executeDelegateResource`.
* `validateUndelegateResource`, `executeUndelegateResource`; `undelegatableBalance`.
-/

namespace TronGoblin.Stake

open BigEndian (wrapI64)
open Checked (require orFail satI64)
open Resource (ResourceKind)

structure DelegateResourceContract where
  ownerAddress : Bytes
  receiverAddress : Bytes
  resource : Int
  balance : Int
  lock : Bool
  lockPeriod : Int
  deriving DecidableEq

structure UnDelegateResourceContract where
  ownerAddress : Bytes
  receiverAddress : Bytes
  resource : Int
  balance : Int
  deriving DecidableEq

/-- `resource_kind`, for codes that have been checked. -/
def resourceKind (resource : Int) : ResourceKind := if resource = 0 then .bandwidth else .energy

variable (chain : Chain)

def requireDelegationEnabled : Except ActuatorError Unit :=
  require (chain.allowDelegateResource.getD 0 = 1 ∧ 0 < chain.unfreezeDelayDays.getD 0) .delegationDisabled

/-- The time between two blocks, in milliseconds. -/
def BLOCK_PRODUCED_INTERVAL : Int := 3000

def DELEGATE_PERIOD_MS : Int := 3 * 86400000

/-- Three days, in blocks. -/
def DEFAULT_LOCK_PERIOD_BLOCKS : Int := DELEGATE_PERIOD_MS.tdiv BLOCK_PRODUCED_INTERVAL

def maxDelegateLockPeriod : Int := chain.maxDelegateLockPeriod.getD DEFAULT_LOCK_PERIOD_BLOCKS

def supportMaxDelegateLockPeriod : Prop :=
  DEFAULT_LOCK_PERIOD_BLOCKS < maxDelegateLockPeriod chain ∧ 0 < chain.unfreezeDelayDays.getD 0

instance (chain : Chain) : Decidable (supportMaxDelegateLockPeriod chain) := inferInstanceAs (Decidable (_ ∧ _))

/-- `resolved_lock_period`: the contract's, where it says one and the chain listens. -/
def resolvedLockPeriod (contractLockPeriod : Int) : Int :=
  if supportMaxDelegateLockPeriod chain then
    if contractLockPeriod = 0 then DEFAULT_LOCK_PERIOD_BLOCKS else contractLockPeriod
  else DEFAULT_LOCK_PERIOD_BLOCKS

/-- One resource of an expired lock is moved over. -/
def unlockKind (now : Int) (x : DelegatedResource × DelegatedResource) (kind : ResourceKind) :
    DelegatedResource × DelegatedResource :=
  let (lock, unlock) := x
  if lock.expireTime.get kind < now then
    let balance := wrapI64 (unlock.frozenBalance.get kind + lock.frozenBalance.get kind)
    (⟨lock.frozenBalance.set kind 0, lock.expireTime.set kind 0⟩,
      ⟨unlock.frozenBalance.set kind balance, unlock.expireTime.set kind 0⟩)
  else x

variable (s : State)

def unlockExpireResource (owner receiver : Address) (now : Int) : State :=
  match s.delegatedResource.lookup (.v2Locked owner receiver) with
  | none => s
  | some lock =>
    if now ≤ lock.expireTime.energy ∧ now ≤ lock.expireTime.bandwidth then s
    else
      let unlock := s.resourceOrNew (.v2Unlocked owner receiver)
      let moved := unlockKind now (unlockKind now (lock, unlock) .energy) .bandwidth
      (s.storeResource (.v2Locked owner receiver) moved.1).putResource (.v2Unlocked owner receiver) moved.2

/-! ## Delegating -/

/-- `v2_net_usage`, `v2_energy_usage`: the usage that neither legacy stake nor acquired stake covers. -/
def v2Usage (account : Account) (kind : ResourceKind) (usageWeight : Int) : Int :=
  let v1Frozen :=
    match kind with
    | .bandwidth => sumI64 (account.frozen.map (·.frozenBalance))
    | .energy => (account.frozenBalanceForEnergy.map (·.frozenBalance)).getD 0
  max (satI64 (satI64 (satI64 (usageWeight - v1Frozen) - account.acquiredDelegatedFrozenBalance.get kind) -
    account.acquiredDelegatedFrozenV2Balance.get kind)) 0

/-- `frozen_v2_balance_for_bandwidth`, `frozen_v2_balance_for_energy`. -/
def frozenV2Balance (account : Account) (resource : Int) : Int :=
  sumI64 ((account.frozenV2.filter fun f => f.resource = resource).map (·.amount))

def delegatableFrozenV2 (owner : Address) (account : Account) (resource : Int) (kind : ResourceKind) : Int :=
  satI64 (frozenV2Balance account resource - v2Usage account kind (chain.outside.usageWeight owner kind))

variable (c : DelegateResourceContract)

def validateDelegateResource :
    Except ActuatorError Unit := do
  requireDelegationEnabled chain
  let owner ← requireOwner c.ownerAddress
  let receiver ← requireTo c.receiverAddress
  require (owner ≠ receiver) .invalidDelegationReceiver
  require (TRX_PRECISION ≤ c.balance) .freezeTooSmall
  let kind ← orFail (resourceKind? c.resource) .invalidResourceCode
  let ownerAccount ← s.account owner
  let available := delegatableFrozenV2 chain owner ownerAccount c.resource kind
  require (c.balance ≤ available) (.insufficientBalance available c.balance)
  let toAccount ← s.target receiver
  require (toAccount.accountType ≠ CONTRACT) .delegationToContract
  require (supportMaxDelegateLockPeriod chain → 0 ≤ c.lockPeriod ∧ c.lockPeriod ≤ maxDelegateLockPeriod chain)
    (.validate "lock period must be in 0..=maxDelegateLockPeriod")

def delegationExpiry : Except ActuatorError Int :=
  if c.lock then do
    let period ← checkMul (resolvedLockPeriod chain c.lockPeriod) BLOCK_PRODUCED_INTERVAL
    checkAdd chain.now period
  else .ok 0

def delegationKey (owner receiver : Address) (lock : Bool) : ResourceKey :=
  if lock then .v2Locked owner receiver else .v2Unlocked owner receiver

def executeDelegateResource :
    Except ActuatorError (State × ExecutionResult) := do
  let owner ← requireOwner c.ownerAddress
  let receiver ← requireTo c.receiverAddress
  let s := unlockExpireResource s owner receiver chain.now
  let ownerAccount ← s.account owner
  let frozenV2 ← takeFromSlot ownerAccount.frozenV2 c.resource c.balance
  let kind ← orFail (resourceKind? c.resource) .invalidResourceCode
  let delegated ← checkAdd (ownerAccount.delegatedFrozenV2Balance.get kind) c.balance
  let s := s.putAccount owner
    { ownerAccount with
      frozenV2 := frozenV2
      delegatedFrozenV2Balance := ownerAccount.delegatedFrozenV2Balance.set kind delegated }
  let toAccount ← s.target receiver
  let acquired ← checkAdd (toAccount.acquiredDelegatedFrozenV2Balance.get kind) c.balance
  let s := s.putAccount receiver
    { toAccount with
      acquiredDelegatedFrozenV2Balance := toAccount.acquiredDelegatedFrozenV2Balance.set kind acquired }
  let expireTime ← delegationExpiry chain c
  let key := delegationKey owner receiver c.lock
  let resource := s.resourceOrNew key
  let frozen ← checkAdd (resource.frozenBalance.get kind) c.balance
  return (s.putResource key ⟨resource.frozenBalance.set kind frozen, resource.expireTime.set kind expireTime⟩, .default)

/-! ## Recalling -/

def undelegatableBalance (unlocked locked : Option DelegatedResource) (kind : ResourceKind) (now : Int) : Int :=
  let free := (unlocked.map (·.frozenBalance.get kind)).getD 0
  match locked with
  | some l => if l.expireTime.get kind < now then wrapI64 (free + l.frozenBalance.get kind) else free
  | none => free

def validateUndelegateResource (c : UnDelegateResourceContract) :
    Except ActuatorError Unit := do
  requireDelegationEnabled chain
  let owner ← requireOwner c.ownerAddress
  let receiver ← requireTo c.receiverAddress
  require (owner ≠ receiver) .invalidDelegationReceiver
  require (0 < c.balance) .nonPositiveAmount
  let _ ← s.account owner
  let kind ← orFail (resourceKind? c.resource) .invalidResourceCode
  let unlocked := s.delegatedResource.lookup (.v2Unlocked owner receiver)
  let locked := s.delegatedResource.lookup (.v2Locked owner receiver)
  require (¬ (unlocked = none ∧ locked = none)) .nothingToUndelegate
  let available := undelegatableBalance unlocked locked kind chain.now
  require (c.balance ≤ available) (.insufficientBalance available c.balance)

/-- The receiver gives back what it had acquired; it may have less, after a contract was created anew. -/
def returnAcquiredV2 (receiver : Account) (kind : ResourceKind) (balance : Int) : Account :=
  let acquired := receiver.acquiredDelegatedFrozenV2Balance.get kind
  let acquired := if acquired < balance then 0 else acquired - balance
  { receiver with acquiredDelegatedFrozenV2Balance := receiver.acquiredDelegatedFrozenV2Balance.set kind acquired }

def executeUndelegateResource (c : UnDelegateResourceContract) :
    Except ActuatorError (State × ExecutionResult) := do
  let owner ← requireOwner c.ownerAddress
  let receiver ← requireTo c.receiverAddress
  let kind := resourceKind c.resource
  let receiverAccount := (s.accounts.lookup receiver).map fun r => returnAcquiredV2 r kind c.balance
  let s := unlockExpireResource s owner receiver chain.now
  let key := ResourceKey.v2Unlocked owner receiver
  let unlock ← orFail (s.delegatedResource.lookup key) .nothingToUndelegate
  let rest ← checkSub (unlock.frozenBalance.get kind) c.balance
  let unlock : DelegatedResource := ⟨unlock.frozenBalance.set kind rest, unlock.expireTime.set kind 0⟩
  let ownerAccount ← s.account owner
  let delegated ← checkSub (ownerAccount.delegatedFrozenV2Balance.get kind) c.balance
  let frozenV2 ← addToSlot ownerAccount.frozenV2 c.resource c.balance
  let s := s.putAccount owner
    { ownerAccount with
      frozenV2 := frozenV2
      delegatedFrozenV2Balance := ownerAccount.delegatedFrozenV2Balance.set kind delegated }
  let s := s.storeResource key unlock
  match receiverAccount with
  | some r => return (s.putAccount receiver r, .default)
  | none => return (s, .default)

end TronGoblin.Stake
