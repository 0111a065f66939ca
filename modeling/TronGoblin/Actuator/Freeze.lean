import TronGoblin.Actuator.Votes

/-!
# Legacy staking

Model of `tron-actuator/src/freeze.rs`: the first form of staking, in which TRX is frozen for the owner or
for a receiver, and unfrozen whole once it has expired.

* `validateFreezeBalance`, `executeFreezeBalance`, `delegateResourceV1`.
* `validateUnfreezeBalance`, `executeUnfreezeBalance`: the owner's votes are cleared as well.
-/

namespace TronGoblin.Stake

open BigEndian (wrapI64)
open Checked (require orFail satI64)
open Resource (ResourceKind)

structure FreezeBalanceContract where
  ownerAddress : Bytes
  frozenBalance : Int
  frozenDuration : Int
  resource : Int
  receiverAddress : Bytes
  deriving DecidableEq

structure UnfreezeBalanceContract where
  ownerAddress : Bytes
  resource : Int
  receiverAddress : Bytes
  deriving DecidableEq

def decodeReceiver (raw : Bytes) : Except ActuatorError (Option Address) :=
  if raw.isEmpty then .ok none else some <$> orFail (Market.decodeAddress raw) .invalidToAddress

/-- The receiver of a delegation: none before `ALLOW_DELEGATE_RESOURCE`, whatever the contract says. -/
def receiverOf (chain : Chain) (raw : Bytes) : Except ActuatorError (Option Address) :=
  if chain.allowDelegateResource.getD 0 = 1 then decodeReceiver raw else .ok none

/-! ## Freezing -/

def validateFreezeReceiver (chain : Chain) (s : State) (owner : Address) : Option Address → Except ActuatorError Unit
  | none => .ok ()
  | some receiver => do
    require (receiver ≠ owner) .receiverSameAsOwner
    let receiverAccount ← s.target receiver
    require (¬ (chain.allowTvmConstantinople.getD 0 = 1 ∧ receiverAccount.accountType = CONTRACT)) .delegationToContract

def validateFreezeBalance (chain : Chain) (s : State) (c : FreezeBalanceContract) : Except ActuatorError Unit := do
  let owner ← requireOwner c.ownerAddress
  require (0 < c.frozenBalance ∧ TRX_PRECISION ≤ c.frozenBalance) .freezeTooSmall
  let account ← s.account owner
  require (c.frozenBalance ≤ account.balance) (.insufficientBalance account.balance c.frozenBalance)
  require (0 ≤ c.resource ∧ c.resource ≤ 2) .invalidResourceCode
  require (c.resource = 2 → chain.allowNewResourceModel.getD 0 = 1) .invalidResourceCode
  require (c.resource = 2 → c.receiverAddress = []) .invalidDelegationReceiver
  let receiver ← receiverOf chain c.receiverAddress
  validateFreezeReceiver chain s owner receiver
  require (¬ 0 < chain.unfreezeDelayDays.getD 0) .legacyFreezeClosed

/-- `delegate_resource_v1`: the record and the receiver's account, and by how much the weight grows. -/
def delegateResourceV1 (s : State) (owner receiver : Address) (kind : ResourceKind) (balance expire : Int) :
    Except ActuatorError (State × Int) := do
  let key := ResourceKey.v1 owner receiver
  let row := s.resourceOrNew key
  let frozen ← checkAdd (row.frozenBalance.get kind) balance
  let s := s.putResource key ⟨row.frozenBalance.set kind frozen, row.expireTime.set kind expire⟩
  let receiverAccount ← s.target receiver
  let oldAcquired := receiverAccount.acquiredDelegatedFrozenBalance.get kind
  let acquired ← checkAdd oldAcquired balance
  let s := s.putAccount receiver
    { receiverAccount with
      acquiredDelegatedFrozenBalance := receiverAccount.acquiredDelegatedFrozenBalance.set kind acquired }
  return (s, acquired.tdiv TRX_PRECISION - oldAcquired.tdiv TRX_PRECISION)

/-- The owner's own legacy stake: the first entry of the list, or the one for energy. -/
def selfFrozen (account : Account) : ResourceKind → Int
  | .bandwidth => (account.frozen.head?.map (·.frozenBalance)).getD 0
  | .energy => (account.frozenBalanceForEnergy.map (·.frozenBalance)).getD 0

def setSelfFrozen (account : Account) (frozen : Frozen) : ResourceKind → Account
  | .bandwidth => { account with frozen := frozen :: account.frozen.tail }
  | .energy => { account with frozenBalanceForEnergy := some frozen }

/-- The branches of `execute_freeze_balance` for a resource: the state, the owner's account and by how much
the weight grows. -/
def freezeKind (s : State) (owner : Address) (account : Account) (kind : ResourceKind) (receiver : Option Address)
    (balance expire : Int) : Except ActuatorError (State × Account × Int) :=
  match receiver with
  | some receiver => do
    let (s, increment) ← delegateResourceV1 s owner receiver kind balance expire
    let delegated ← checkAdd (account.delegatedFrozenBalance.get kind) balance
    return (s, { account with delegatedFrozenBalance := account.delegatedFrozenBalance.set kind delegated }, increment)
  | none => do
    let oldBalance := selfFrozen account kind
    let newFrozen ← checkAdd oldBalance balance
    return (s, setSelfFrozen account ⟨newFrozen, expire⟩ kind,
      newFrozen.tdiv TRX_PRECISION - oldBalance.tdiv TRX_PRECISION)

def executeFreezeBalance (chain : Chain) (s : State) (c : FreezeBalanceContract) :
    Except ActuatorError (State × ExecutionResult) := do
  let owner ← requireOwner c.ownerAddress
  let account ← s.account owner
  let newBalance ← checkSub account.balance c.frozenBalance
  let expire := wrapI64 (chain.now + (wrapI64 (c.frozenDuration * FROZEN_PERIOD_MS)).tdiv 3)
  let receiver ← receiverOf chain c.receiverAddress
  match resourceKind? c.resource with
  | some kind =>
    let (s, account, increment) ← freezeKind s owner account kind receiver c.frozenBalance expire
    let weight :=
      if chain.allowNewReward.getD 0 = 1 then increment else c.frozenBalance.tdiv TRX_PRECISION
    let s := s.addTotalWeight chain kind weight
    return (s.putAccount owner { account with balance := newBalance }, .default)
  | none =>
    -- `TRON_POWER`: the balance is taken and nothing is recorded
    return (s.putAccount owner { account with balance := newBalance }, .default)

/-! ## Unfreezing -/

/-- `acquired_check`: the receiver must still have what it was given, in the eras in which it cannot lose it. -/
def acquiredCheck (chain : Chain) (receiverAccount : Option Account) (acquired delegated : Int) :
    Except ActuatorError Unit :=
  let isPerson :=
    match receiverAccount with
    | some r => decide (r.accountType ≠ CONTRACT)
    | none => false
  let applies :=
    if chain.allowTvmConstantinople.getD 0 = 0 then true
    else decide (chain.allowTvmSolidity059.getD 0 ≠ 1) && isPerson
  require (¬ (applies ∧ acquired < delegated)) .unfreezeExceedsFrozen

/-- Before `ALLOW_MULTI_SIGN` the expiry for energy is read from the field for bandwidth. -/
def legacyExpireTime (chain : Chain) (row : DelegatedResource) : ResourceKind → Int
  | .bandwidth => row.expireTime.bandwidth
  | .energy => if chain.allowMultiSign.getD 0 = 0 then row.expireTime.bandwidth else row.expireTime.energy

def validateUnfreezeDelegated (chain : Chain) (s : State) (owner receiver : Address) (resource : Int) :
    Except ActuatorError Unit := do
  require (receiver ≠ owner) .receiverSameAsOwner
  let receiverAccount := s.accounts.lookup receiver
  require (¬ (chain.allowTvmConstantinople.getD 0 = 0 ∧ receiverAccount = none)) .targetAccountMissing
  let row ← orFail (s.delegatedResource.lookup (.v1 owner receiver)) .delegatedResourceMissing
  let kind ← orFail (resourceKind? resource) .invalidResourceCode
  require (0 < row.frozenBalance.get kind) .nothingToUnfreeze
  acquiredCheck chain receiverAccount
    ((receiverAccount.map (·.acquiredDelegatedFrozenBalance.get kind)).getD 0) (row.frozenBalance.get kind)
  require (legacyExpireTime chain row kind ≤ chain.now) .nothingToUnfreeze

def validateUnfreezeOwn (chain : Chain) (account : Account) (resource : Int) : Except ActuatorError Unit := do
  let kind ← orFail (resourceKind? resource) .invalidResourceCode
  match kind with
  | .bandwidth => do
    require (account.frozen ≠ []) .nothingToUnfreeze
    require (account.frozen.any fun f => f.expireTime ≤ chain.now) .nothingToUnfreeze
  | .energy =>
    match account.frozenBalanceForEnergy with
    | some f => do
      require (0 < f.frozenBalance) .nothingToUnfreeze
      require (f.expireTime ≤ chain.now) .nothingToUnfreeze
    | none => .error .nothingToUnfreeze

def validateUnfreezeBalance (chain : Chain) (s : State) (c : UnfreezeBalanceContract) : Except ActuatorError Unit := do
  let owner ← requireOwner c.ownerAddress
  let account ← s.account owner
  let receiver ← receiverOf chain c.receiverAddress
  match receiver with
  | some receiver => validateUnfreezeDelegated chain s owner receiver c.resource
  | none => validateUnfreezeOwn chain account c.resource

/-- The receiver gives back what it had acquired: its account, and by how much the weight changes. -/
def returnAcquired (chain : Chain) (r : Account) (kind : ResourceKind) (unfreezeBalance : Int) : Account × Int :=
  let acquired := r.acquiredDelegatedFrozenBalance.get kind
  let (oldWeight, acquired) :=
    if chain.allowTvmSolidity059.getD 0 = 1 ∧ acquired < unfreezeBalance then
      (unfreezeBalance.tdiv TRX_PRECISION, 0)
    else (acquired.tdiv TRX_PRECISION, satI64 (acquired - unfreezeBalance))
  ({ r with acquiredDelegatedFrozenBalance := r.acquiredDelegatedFrozenBalance.set kind acquired },
    acquired.tdiv TRX_PRECISION - oldWeight)

/-- The receiver side of an unfreeze.  A receiver that is missing or a contract is left alone once
`ALLOW_TVM_CONSTANTINOPLE` is on, and the weight shrinks by the whole delegation. -/
def unfreezeReceiver (chain : Chain) (s : State) (receiver : Address) (kind : ResourceKind) (unfreezeBalance : Int) :
    Except ActuatorError (State × Int) :=
  match s.accounts.lookup receiver with
  | none =>
    if chain.allowTvmConstantinople.getD 0 = 0 then .error .targetAccountMissing
    else .ok (s, -(unfreezeBalance.tdiv TRX_PRECISION))
  | some r =>
    if chain.allowTvmConstantinople.getD 0 = 0 ∨ r.accountType ≠ CONTRACT then
      let (r, decrease) := returnAcquired chain r kind unfreezeBalance
      .ok (s.putAccount receiver r, decrease)
    else .ok (s, -(unfreezeBalance.tdiv TRX_PRECISION))

/-- The delegated branch of `execute_unfreeze_balance`: the state, the owner's account, what is unfrozen and
by how much the weight changes. -/
def unfreezeDelegated (chain : Chain) (s : State) (owner receiver : Address) (account : Account) (resource : Int) :
    Except ActuatorError (State × Account × Int × Int) := do
  let key := ResourceKey.v1 owner receiver
  let row ← orFail (s.delegatedResource.lookup key) .delegatedResourceMissing
  let kind ← orFail (resourceKind? resource) .invalidResourceCode
  let unfreezeBalance := row.frozenBalance.get kind
  let row : DelegatedResource := ⟨row.frozenBalance.set kind 0, row.expireTime.set kind 0⟩
  let delegated := satI64 (account.delegatedFrozenBalance.get kind - unfreezeBalance)
  let (s, decrease) ← unfreezeReceiver chain s receiver kind unfreezeBalance
  let balance ← checkAdd account.balance unfreezeBalance
  let account :=
    { account with
      delegatedFrozenBalance := account.delegatedFrozenBalance.set kind delegated
      balance := balance }
  return (s.storeResource key row, account, unfreezeBalance, decrease)

/-- The expired entries of the legacy list are swept. -/
def sweepFrozen (now : Int) (frozen : List Frozen) : Int :=
  frozen.foldl (fun acc f => if f.expireTime ≤ now then satI64 (acc + f.frozenBalance) else acc) 0

/-- The owner branch of `execute_unfreeze_balance`: the account, what is unfrozen and by how much the weight
changes. -/
def unfreezeOwn (chain : Chain) (account : Account) (resource : Int) : Except ActuatorError (Account × Int × Int) := do
  let kind ← orFail (resourceKind? resource) .invalidResourceCode
  match kind with
  | .bandwidth => do
    let oldWeight := (sumI64 (account.frozen.map (·.frozenBalance))).tdiv TRX_PRECISION
    let unfreezeBalance := sweepFrozen chain.now account.frozen
    let frozen := account.frozen.filter fun f => ¬ f.expireTime ≤ chain.now
    let newWeight := (sumI64 (frozen.map (·.frozenBalance))).tdiv TRX_PRECISION
    let balance ← checkAdd account.balance unfreezeBalance
    return ({ account with frozen := frozen, balance := balance }, unfreezeBalance, newWeight - oldWeight)
  | .energy => do
    let unfreezeBalance := selfFrozen account .energy
    let balance ← checkAdd account.balance unfreezeBalance
    return ({ account with frozenBalanceForEnergy := none, balance := balance }, unfreezeBalance,
      -(unfreezeBalance.tdiv TRX_PRECISION))

/-- The end of an unfreeze: the owner's votes are cleared, and its account is put back. -/
def State.clearVotes (s : State) (owner : Address) (account : Account) : State :=
  { s with votes := recordVotes s.votes owner account [] }.putAccount owner { account with votes := [] }

def executeUnfreezeBalance (chain : Chain) (s : State) (c : UnfreezeBalanceContract) :
    Except ActuatorError (State × ExecutionResult) := do
  let owner ← requireOwner c.ownerAddress
  let s := s.settled chain owner
  let account ← s.account owner
  let receiver ← receiverOf chain c.receiverAddress
  let (s, account, unfreezeBalance, decrease) ←
    match receiver with
    | some receiver => unfreezeDelegated chain s owner receiver account c.resource
    | none => (fun r => (s, r)) <$> unfreezeOwn chain account c.resource
  let weight :=
    if chain.allowNewReward.getD 0 = 1 then decrease else -(unfreezeBalance.tdiv TRX_PRECISION)
  let kind ← orFail (resourceKind? c.resource) .invalidResourceCode
  let s := s.addTotalWeight chain kind weight
  return (s.clearVotes owner account, ⟨unfreezeBalance, 0, []⟩)

end TronGoblin.Stake
