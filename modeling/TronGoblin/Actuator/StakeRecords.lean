import TronGoblin.Actuator.StakeHoldings

/-!
# Delegation records

The records of what owners have delegated to receivers, and what the operations on them do to the amounts.

* `State.amount`, `State.expiry`: what a record says; `recorded`: a sum over records.
* `amount_storeResource`, `recordMoved_written`: a record is written.
* `amount_unlock`, `recorded_unlock`: an expired lock is folded into the unlocked record of its pair.
* `Delegated`, `Recalled`: all that an executed delegation, or a recall, has done.
-/

namespace TronGoblin.Stake

open Assoc Checked Option State
open BigEndian (wrapI64)
open Resource (ResourceKind)

/-! ## Sums -/

def ResourceKey.isFrom (owner : Address) : ResourceKey → Bool
  | .v1 _ _ => false
  | .v2Unlocked o _ | .v2Locked o _ => o = owner

def ResourceKey.isTo (receiver : Address) : ResourceKey → Bool
  | .v1 _ _ => false
  | .v2Unlocked _ r | .v2Locked _ r => r = receiver

def State.amount (s : State) (key : ResourceKey) (kind : ResourceKind) : Int :=
  (s.delegatedResource.lookup key).elim 0 (·.frozenBalance.get kind)

def State.expiry (s : State) (key : ResourceKey) (kind : ResourceKind) : Int :=
  (s.delegatedResource.lookup key).elim 0 (·.expireTime.get kind)

def ResourceKey.isV2 : ResourceKey → Bool
  | .v1 _ _ => false
  | _ => true

/-- The sum, over the records with some keys, of what is delegated of a resource. -/
def recorded (keys : ResourceKey → Bool) (kind : ResourceKind) (records : Assoc.Table ResourceKey DelegatedResource) :
    Int :=
  Assoc.total (fun key r => if keys key then r.frozenBalance.get kind else 0) records

section

variable {s : State} {kind : ResourceKind} {keys : ResourceKey → Bool}

theorem amount_eq_elim {key : ResourceKey} (hkey : keys key) :
    s.amount key kind = (s.delegatedResource.lookup key).elim 0 fun r => if keys key then r.frozenBalance.get kind else 0 := by
  simp only [hkey, if_true]
  rfl

variable (hpos : ∀ key, keys key → 0 ≤ s.amount key kind)
include hpos

theorem recorded_term_nonneg (key : ResourceKey) (r : DelegatedResource) (h : s.delegatedResource.lookup key = some r) :
    0 ≤ if keys key then r.frozenBalance.get kind else 0 := by
  split
  · next hkey =>
    have := hpos key hkey
    rwa [amount, h] at this
  · exact le_rfl

theorem amount_le_recorded {key : ResourceKey} (hkey : keys key) :
    s.amount key kind ≤ recorded keys kind s.delegatedResource := by
  rw [amount_eq_elim hkey]
  exact elim_le_total (recorded_term_nonneg hpos) key

theorem amount_add_le {key key' : ResourceKey} (hne : key ≠ key') (hkey : keys key) (hkey' : keys key') :
    s.amount key kind + s.amount key' kind ≤ recorded keys kind s.delegatedResource := by
  rw [amount_eq_elim hkey, amount_eq_elim hkey']
  exact elim_add_le_total (recorded_term_nonneg hpos) hne

end

/-! ## Writing a record -/

variable (s : State) (key : ResourceKey) (r : DelegatedResource) (kind : ResourceKind)

theorem amount_putResource (key' : ResourceKey) :
    (s.putResource key r).amount key' kind = if key' = key then r.frozenBalance.get kind else s.amount key' kind := by
  rw [amount, putResource, lookup_insert_eq]
  split <;> rfl

/-- Where a record is deleted, it held nothing. -/
theorem amount_storeResource (key' : ResourceKey) :
    (s.storeResource key r).amount key' kind = if key' = key then r.frozenBalance.get kind else s.amount key' kind := by
  unfold storeResource
  split
  · next hzero =>
    have hget : r.frozenBalance.get kind = 0 := by cases kind <;> simp [PerKind.get, hzero]
    rw [amount, deleteResource, lookup_erase_eq, hget]
    split <;> rfl
  · exact amount_putResource s key r kind key'

theorem recorded_of_amount {s s' : State} {amount' : Int}
    (h : ∀ key', s'.amount key' kind = if key' = key then amount' else s.amount key' kind) (keys : ResourceKey → Bool) :
    recorded keys kind s'.delegatedResource = recorded keys kind s.delegatedResource +
      if keys key then amount' - s.amount key kind else 0 := by
  have hterm (t : State) (key' : ResourceKey) : ((t.delegatedResource.lookup key').elim 0 fun r =>
      if keys key' then r.frozenBalance.get kind else 0) = if keys key' then t.amount key' kind else 0 := by
    rw [amount]
    cases t.delegatedResource.lookup key' <;> simp
  have htotal : recorded keys kind s'.delegatedResource = recorded keys kind s.delegatedResource - _ + _ :=
    total_update key fun key' hne => by rw [hterm, hterm, h, if_neg hne]
  rw [htotal, hterm, hterm, h, if_pos rfl]
  split <;> omega

/-- One resource of one record grows by `delta`. -/
structure RecordMoved (s s' : State) (key : ResourceKey) (moved : ResourceKind) (delta : Int) : Prop where
  amount : ∀ key' kind, s'.amount key' kind = s.amount key' kind + if key' = key ∧ kind = moved then delta else 0
  recorded : ∀ keys kind, recorded keys kind s'.delegatedResource =
    recorded keys kind s.delegatedResource + if keys key ∧ kind = moved then delta else 0

theorem recordMoved_written {s s' : State} {key : ResourceKey} {row : DelegatedResource} {moved : ResourceKind}
    {delta : Int} (hrow : ∀ kind, row.frozenBalance.get kind = s.amount key kind + if kind = moved then delta else 0)
    (h : ∀ kind key', s'.amount key' kind = if key' = key then row.frozenBalance.get kind else s.amount key' kind) :
    RecordMoved s s' key moved delta where
  amount key' kind := by
    rw [h, hrow]
    by_cases hkey : key' = key <;> simp [hkey]
  recorded keys kind := by
    rw [recorded_of_amount key kind (h kind), hrow]
    by_cases hkey : keys key <;> simp only [hkey, if_true, true_and, Bool.false_eq_true, if_false, false_and]
    omega

theorem resourceOrNew_frozenBalance : (s.resourceOrNew key).frozenBalance.get kind = s.amount key kind := by
  rw [resourceOrNew, amount]
  cases s.delegatedResource.lookup key <;> simp [DelegatedResource.default]

/-! ## Folding an expired lock -/

variable (owner receiver : Address) (now : Int)

theorem unlockKind_spec (x : DelegatedResource × DelegatedResource) (moved : ResourceKind) :
    (unlockKind now x moved).1.frozenBalance.get kind =
        (if kind = moved ∧ x.1.expireTime.get kind < now then 0 else x.1.frozenBalance.get kind) ∧
      (unlockKind now x moved).2.frozenBalance.get kind =
        (if kind = moved ∧ x.1.expireTime.get kind < now then
          wrapI64 (x.2.frozenBalance.get kind + x.1.frozenBalance.get kind)
        else x.2.frozenBalance.get kind) ∧
      (¬ x.1.expireTime.get kind < now → (unlockKind now x moved).1.expireTime.get kind = x.1.expireTime.get kind) ∧
      (kind ≠ moved → (unlockKind now x moved).1.expireTime.get kind = x.1.expireTime.get kind) := by
  unfold unlockKind
  dsimp only
  by_cases hexp : x.1.expireTime.get moved < now
  · rw [if_pos hexp]
    by_cases hk : kind = moved
    · subst hk
      simp [hexp]
    · simp [PerKind.get_set, hk]
  · rw [if_neg hexp]
    by_cases hk : kind = moved
    · subst hk
      simp [hexp]
    · simp [hk]

theorem unlockBoth_spec (x : DelegatedResource × DelegatedResource) :
    let moved := unlockKind now (unlockKind now x .energy) .bandwidth
    moved.1.frozenBalance.get kind = (if x.1.expireTime.get kind < now then 0 else x.1.frozenBalance.get kind) ∧
      moved.2.frozenBalance.get kind =
        (if x.1.expireTime.get kind < now then wrapI64 (x.2.frozenBalance.get kind + x.1.frozenBalance.get kind)
        else x.2.frozenBalance.get kind) ∧
      (¬ x.1.expireTime.get kind < now → moved.1.expireTime.get kind = x.1.expireTime.get kind) := by
  obtain ⟨hlock, hunlock, hlive, hother⟩ := unlockKind_spec kind now x .energy
  obtain ⟨hlock', hunlock', hlive', hother'⟩ := unlockKind_spec kind now (unlockKind now x .energy) .bandwidth
  cases kind with
  | bandwidth =>
    have hsame := hother (by simp)
    rw [hsame, hlock] at hlock'
    rw [hsame, hlock, hunlock] at hunlock'
    rw [hsame] at hlive'
    simp only [true_and] at hlock' hunlock'
    exact ⟨hlock', hunlock', hlive'⟩
  | energy =>
    have hsame := hother' (by simp)
    simp only [true_and] at hlock hunlock
    rw [hlock] at hlock'
    rw [hunlock] at hunlock'
    exact ⟨hlock', hunlock', fun h => hsame.trans (hlive h)⟩

/-- The lock of a pair in the state, with the resources of which it has expired. -/
theorem unlock_cases :
    (unlockExpireResource s owner receiver now = s ∧
        ∀ kind, s.amount (.v2Locked owner receiver) kind = 0 ∨ ¬ s.expiry (.v2Locked owner receiver) kind < now) ∨
      ∃ lock unlock : DelegatedResource,
        unlockExpireResource s owner receiver now =
          (s.storeResource (.v2Locked owner receiver) lock).putResource (.v2Unlocked owner receiver) unlock ∧
        ∀ kind,
          lock.frozenBalance.get kind = (if s.expiry (.v2Locked owner receiver) kind < now then 0
            else s.amount (.v2Locked owner receiver) kind) ∧
          unlock.frozenBalance.get kind = (if s.expiry (.v2Locked owner receiver) kind < now then
            wrapI64 (s.amount (.v2Unlocked owner receiver) kind + s.amount (.v2Locked owner receiver) kind)
            else s.amount (.v2Unlocked owner receiver) kind) ∧
          (¬ s.expiry (.v2Locked owner receiver) kind < now →
            lock.expireTime.get kind = s.expiry (.v2Locked owner receiver) kind) := by
  unfold unlockExpireResource
  split
  · next hnone =>
    refine .inl ⟨rfl, fun kind => .inl ?_⟩
    rw [amount, hnone]
    rfl
  · next lock hlock =>
    have hamount : ∀ kind, s.amount (.v2Locked owner receiver) kind = lock.frozenBalance.get kind := by
      intro kind
      rw [amount, hlock]
      rfl
    have hexpiry : ∀ kind, s.expiry (.v2Locked owner receiver) kind = lock.expireTime.get kind := by
      intro kind
      rw [expiry, hlock]
      rfl
    split
    · next hlive =>
      refine .inl ⟨rfl, fun kind => .inr ?_⟩
      rw [hexpiry]
      cases kind <;> simp only [PerKind.get] <;> omega
    · refine .inr ⟨_, _, rfl, fun kind => ?_⟩
      have hspec := unlockBoth_spec kind now (lock, s.resourceOrNew (.v2Unlocked owner receiver))
      rw [resourceOrNew_frozenBalance] at hspec
      rw [hamount, hexpiry]
      exact hspec

variable {s owner receiver now}

theorem unlock_accounts : (unlockExpireResource s owner receiver now).accounts = s.accounts := by
  rcases unlock_cases s owner receiver now with ⟨heq, -⟩ | ⟨lock, unlock, heq, -⟩
  · rw [heq]
  · rw [heq, putResource, storeResource]
    split <;> rfl

theorem unlock_totalWeight : (unlockExpireResource s owner receiver now).totalWeight = s.totalWeight := by
  rcases unlock_cases s owner receiver now with ⟨heq, -⟩ | ⟨lock, unlock, heq, -⟩
  · rw [heq]
  · rw [heq, putResource, storeResource]
    split <;> rfl

section

variable
  (hfits : ∀ kind, FitsI64 (s.amount (.v2Unlocked owner receiver) kind + s.amount (.v2Locked owner receiver) kind))
include hfits

theorem amount_unlock (key : ResourceKey) :
    (unlockExpireResource s owner receiver now).amount key kind = if key = .v2Locked owner receiver then
        if s.expiry (.v2Locked owner receiver) kind < now then 0 else s.amount key kind
      else if key = .v2Unlocked owner receiver then
        if s.expiry (.v2Locked owner receiver) kind < now then
          s.amount key kind + s.amount (.v2Locked owner receiver) kind
        else s.amount key kind
      else s.amount key kind := by
  rcases unlock_cases s owner receiver now with ⟨heq, hlive⟩ | ⟨lock, unlock, heq, hspec⟩
  · rw [heq]
    rcases hlive kind with hzero | hlive
    · split
      · next hkey =>
        subst hkey
        rw [hzero, ite_self]
      · rw [hzero, Int.add_zero, ite_self, ite_self]
    · rw [if_neg hlive, if_neg hlive, ite_self, ite_self]
  · obtain ⟨hlock, hunlock, -⟩ := hspec kind
    rw [heq, amount_putResource, amount_storeResource, hlock, hunlock, wrapI64_of_fits (hfits kind)]
    by_cases hlocked : key = .v2Locked owner receiver
    · subst hlocked
      simp
    · by_cases hunlocked : key = .v2Unlocked owner receiver
      · subst hunlocked
        simp
      · rw [if_neg hlocked, if_neg hunlocked, if_neg hlocked, if_neg hunlocked]

theorem recorded_unlock {keys : ResourceKey → Bool}
    (hkeys : keys (.v2Locked owner receiver) = keys (.v2Unlocked owner receiver)) :
    recorded keys kind (unlockExpireResource s owner receiver now).delegatedResource =
      recorded keys kind s.delegatedResource := by
  rcases unlock_cases s owner receiver now with ⟨heq, -⟩ | ⟨lock, unlock, heq, hspec⟩
  · rw [heq]
  · obtain ⟨hlock, hunlock, -⟩ := hspec kind
    have hsame : (s.storeResource (.v2Locked owner receiver) lock).amount (.v2Unlocked owner receiver) kind =
        s.amount (.v2Unlocked owner receiver) kind := by
      rw [amount_storeResource, if_neg (by simp)]
    rw [heq, recorded_of_amount _ _ (amount_putResource _ _ _ kind),
      recorded_of_amount _ _ (amount_storeResource _ _ _ kind), hkeys, hsame, hlock, hunlock, wrapI64_of_fits (hfits kind)]
    split_ifs <;> omega

end

/-! ## The transactions of a pair -/

structure Delegated (chain : Chain) (c : DelegateResourceContract) (s s' : State) (owner receiver : Address)
    (kind : ResourceKind) (account dest : Account) (slots : List FreezeV2) (expiry : Int) : Prop where
  ownerAddress : Market.decodeAddress c.ownerAddress = some owner
  receiverAddress : Market.decodeAddress c.receiverAddress = some receiver
  distinct : owner ≠ receiver
  minimum : TRX_PRECISION ≤ c.balance
  resource : c.resource = code kind
  lookup : s.accounts.lookup owner = some account
  available : c.balance ≤ delegatableFrozenV2 chain owner account (code kind) kind
  lookup_dest : s.accounts.lookup receiver = some dest
  taken : takeFromSlot account.frozenV2 (code kind) c.balance = .ok slots
  expires : delegationExpiry chain c = .ok expiry
  accounts : s'.accounts = (s.accounts.insert owner (lentAccount account slots kind c.balance)).insert receiver
    { dest with
      acquiredDelegatedFrozenV2Balance :=
        dest.acquiredDelegatedFrozenV2Balance.set kind (dest.acquiredDelegatedFrozenV2Balance.get kind + c.balance) }
  totalWeight : s'.totalWeight = s.totalWeight
  records : let t := unlockExpireResource s owner receiver chain.now
    let key := delegationKey owner receiver c.lock
    s'.delegatedResource = (t.putResource key
      ⟨(t.resourceOrNew key).frozenBalance.set kind (t.amount key kind + c.balance),
        (t.resourceOrNew key).expireTime.set kind expiry⟩).delegatedResource

theorem delegated_of_apply {chain : Chain} {s s' : State} {c : DelegateResourceContract} {result : ExecutionResult}
    (h : apply chain s (.delegateResource c) = .ok (s', result)) :
    ∃ owner receiver kind account dest slots expiry,
      Delegated chain c s s' owner receiver kind account dest slots expiry := by
  simp only [apply, validateDelegateResource, executeDelegateResource, requireOwner, requireTo, account, target,
    checkAdd, bind_eq_ok, require_eq_ok, orFail_eq_ok, addI64_eq_some, pure_eq_ok, Prod.mk.injEq] at h
  obtain ⟨-, ⟨-, -, owner, howner, receiver, hreceiver, -, hne, -, hbalance, kind, hkind, account, hlook, -, havail, -⟩,
    owner', howner', receiver', hreceiver', account', hlook', slots, hslots, kind', hkind', delegated, ⟨-, rfl⟩, dest,
    hdest, acquired, ⟨-, rfl⟩, expiry, hexpiry, frozen, ⟨-, rfl⟩, rfl, -⟩ := h
  obtain rfl := some.inj (howner.symm.trans howner')
  obtain rfl := some.inj (hreceiver.symm.trans hreceiver')
  obtain rfl := some.inj (hkind.symm.trans hkind')
  rw [unlock_accounts] at hlook'
  obtain rfl := some.inj (hlook.symm.trans hlook')
  rw [resourceKind?_eq_some] at hkind
  rw [hkind] at hslots havail
  refine ⟨owner, receiver, kind, account, dest, slots, expiry, howner, hreceiver, hne, hbalance, hkind, hlook, havail,
    ?_, hslots, hexpiry, ?_, ?_, ?_⟩
  · rw [State.putAccount, unlock_accounts, lookup_insert_eq, if_neg (Ne.symm hne)] at hdest
    exact hdest
  · simp [putResource, State.putAccount, unlock_accounts, lentAccount]
  · simp [putResource, State.putAccount, unlock_totalWeight]
  · dsimp only
    rw [← resourceOrNew_frozenBalance]
    rfl

structure Recalled (chain : Chain) (c : UnDelegateResourceContract) (s s' : State) (owner receiver : Address)
    (kind : ResourceKind) (account : Account) (slots : List FreezeV2) (row : DelegatedResource) : Prop where
  ownerAddress : Market.decodeAddress c.ownerAddress = some owner
  receiverAddress : Market.decodeAddress c.receiverAddress = some receiver
  distinct : owner ≠ receiver
  positive : 0 < c.balance
  resource : c.resource = code kind
  lookup : s.accounts.lookup owner = some account
  available : c.balance ≤ undelegatableBalance (s.delegatedResource.lookup (.v2Unlocked owner receiver))
    (s.delegatedResource.lookup (.v2Locked owner receiver)) kind chain.now
  returned : addToSlot account.frozenV2 (code kind) c.balance = .ok slots
  unlocked : (unlockExpireResource s owner receiver chain.now).delegatedResource.lookup (.v2Unlocked owner receiver) = some row
  accounts : s'.accounts =
    match s.accounts.lookup receiver with
    | some dest => (s.accounts.insert owner (lentAccount account slots kind (-c.balance))).insert receiver
        (returnAcquiredV2 dest kind c.balance)
    | none => s.accounts.insert owner (lentAccount account slots kind (-c.balance))
  totalWeight : s'.totalWeight = s.totalWeight
  records : s'.delegatedResource =
    ((unlockExpireResource s owner receiver chain.now).storeResource (.v2Unlocked owner receiver)
      ⟨row.frozenBalance.set kind (row.frozenBalance.get kind - c.balance), row.expireTime.set kind 0⟩).delegatedResource

theorem recalled_of_apply {chain : Chain} {s s' : State} {c : UnDelegateResourceContract} {result : ExecutionResult}
    (h : apply chain s (.undelegateResource c) = .ok (s', result)) :
    ∃ owner receiver kind account slots row, Recalled chain c s s' owner receiver kind account slots row := by
  simp only [apply, validateUndelegateResource, executeUndelegateResource, requireOwner, requireTo, account,
    checkSub, bind_eq_ok, require_eq_ok, orFail_eq_ok, subI64_eq_some] at h
  obtain ⟨-, ⟨-, -, owner, howner, receiver, hreceiver, -, hne, -, hpos, account, hlook, kind, hkind, -, -, havail⟩,
    owner', howner', receiver', hreceiver', row, hrow, rest, ⟨-, rfl⟩, account', hlook', delegated, ⟨-, rfl⟩, slots,
    hslots, hs'⟩ := h
  obtain rfl := some.inj (howner.symm.trans howner')
  obtain rfl := some.inj (hreceiver.symm.trans hreceiver')
  rw [unlock_accounts] at hlook'
  obtain rfl := some.inj (hlook.symm.trans hlook')
  rw [resourceKind?_eq_some] at hkind
  rw [hkind] at hslots
  rw [hkind, resourceKind_code] at hs'
  refine ⟨owner, receiver, kind, account, slots, row, howner, hreceiver, hne, hpos, hkind, hlook, havail, hslots, hrow,
    ?_, ?_, ?_⟩
  all_goals
    cases hdest : s.accounts.lookup receiver <;> rw [hdest] at hs' <;> obtain ⟨rfl, -⟩ := hs'
    all_goals
      simp only [State.putAccount, storeResource]
      split <;> simp only [deleteResource, putResource, unlock_accounts, unlock_totalWeight, lentAccount,
        Int.sub_eq_add_neg]

end TronGoblin.Stake
