import TronGoblin.Actuator.StakeRecords

/-!
# Staking conserves TRX, weights and records

The six staking transactions move TRX between the parts of an account's holdings; they keep the total
weights in step with what is frozen, and the delegation records in step with the accounts.

* `State.Consistent`: what holds together; `Kept`: what one transaction keeps.
* `kept_of_owner`, `kept_of_pair`: transactions that change one account, or an owner, a receiver and a record.
* `staking_conserves`: the laws, over every run.
-/

namespace TronGoblin.Stake

open Assoc Checked Option Account State ResourceKey PerKind
open BigEndian (wrapI64)
open History (after)
open Resource (ResourceKind)

namespace State

def holdings (s : State) (a : Address) : Option Int := (s.accounts.lookup a).map (·.holdings)

def weightSum (s : State) (kind : ResourceKind) : Int := total (fun _ account => account.weight kind) s.accounts

/-- The state's parts agree, and nothing overflows: not the holdings of an account, and not a total weight if
everything held were frozen for it. -/
structure Consistent (s : State) : Prop where
  sound : ∀ a account, s.accounts.lookup a = some account → account.Sound
  records : ∀ key, key.isV2 → ∀ kind, 0 ≤ s.amount key kind
  delegated : ∀ owner account kind, s.accounts.lookup owner = some account →
    account.delegatedFrozenV2Balance.get kind = recorded (·.isFrom owner) kind s.delegatedResource
  acquired : ∀ receiver account kind, s.accounts.lookup receiver = some account →
    account.acquiredDelegatedFrozenV2Balance.get kind = recorded (·.isTo receiver) kind s.delegatedResource
  weights : ∀ kind, s.weightSum kind ≤ s.totalWeight.get kind
  fits : ∀ kind, s.totalWeight.get kind - s.weightSum kind +
    total (fun _ account => account.holdings / TRX_PRECISION) s.accounts ≤ 0x7fffffffffffffff

end State

/-- What a transaction keeps. -/
structure Kept (s s' : State) : Prop where
  holdings : ∀ a, s'.holdings a = s.holdings a
  weights : ∀ kind, s'.totalWeight.get kind - s'.weightSum kind = s.totalWeight.get kind - s.weightSum kind
  consistent : s'.Consistent

theorem Kept.refl {s : State} (h : s.Consistent) : Kept s s := ⟨fun _ => rfl, fun _ => rfl, h⟩

theorem Kept.trans {s t u : State} (h : Kept s t) (h' : Kept t u) : Kept s u :=
  ⟨fun a => (h'.holdings a).trans (h.holdings a), fun kind => (h'.weights kind).trans (h.weights kind), h'.consistent⟩

/-- What a transaction keeps of an account: its holdings, and that it agrees with the records. -/
structure AccountKept (s s' : State) (a : Address) (old new : Account) : Prop where
  sound : new.Sound
  holdings : new.holdings = old.holdings
  delegated : ∀ kind, new.delegatedFrozenV2Balance.get kind = old.delegatedFrozenV2Balance.get kind +
    (recorded (·.isFrom a) kind s'.delegatedResource - recorded (·.isFrom a) kind s.delegatedResource)
  acquired : ∀ kind, new.acquiredDelegatedFrozenV2Balance.get kind = old.acquiredDelegatedFrozenV2Balance.get kind +
    (recorded (·.isTo a) kind s'.delegatedResource - recorded (·.isTo a) kind s.delegatedResource)

variable {s s' : State} {account account' : Account}

theorem kept_of_accounts (hs : s.Consistent)
    (haccounts : ∀ a, Option.Rel (AccountKept s s' a) (s.accounts.lookup a) (s'.accounts.lookup a))
    (hrecords : ∀ key, key.isV2 → ∀ kind, 0 ≤ s'.amount key kind)
    (hweights : ∀ kind, s'.totalWeight.get kind - s'.weightSum kind = s.totalWeight.get kind - s.weightSum kind) :
    Kept s s' := by
  have hold : ∀ a new, s'.accounts.lookup a = some new →
      ∃ old, s.accounts.lookup a = some old ∧ AccountKept s s' a old new := by
    intro a new hnew
    have hrow := haccounts a
    rw [hnew] at hrow
    generalize s.accounts.lookup a = before at hrow
    cases hrow with
    | some hrow => exact ⟨_, rfl, hrow⟩
  have hholdings : ∀ a, s'.holdings a = s.holdings a := by
    intro a
    rw [State.holdings, State.holdings]
    have hrow := haccounts a
    generalize s.accounts.lookup a = before, s'.accounts.lookup a = after at hrow
    cases hrow with
    | none => rfl
    | some hrow => exact congrArg some hrow.holdings
  have hshare : total (fun _ account => account.holdings / TRX_PRECISION) s'.accounts =
      total (fun _ account => account.holdings / TRX_PRECISION) s.accounts := by
    refine total_ext fun a => ?_
    have hsame := congrArg (fun holdings => holdings.elim 0 (· / TRX_PRECISION)) (hholdings a)
    rwa [State.holdings, State.holdings, elim_map, elim_map] at hsame
  refine ⟨hholdings, hweights, fun a new hnew => ?_, hrecords, fun a new kind hnew => ?_, fun a new kind hnew => ?_,
    fun kind => ?_, fun kind => ?_⟩
  · obtain ⟨old, -, hrow⟩ := hold a new hnew
    exact hrow.sound
  · obtain ⟨old, hlook, hrow⟩ := hold a new hnew
    rw [hrow.delegated, hs.delegated a old kind hlook]
    omega
  · obtain ⟨old, hlook, hrow⟩ := hold a new hnew
    rw [hrow.acquired, hs.acquired a old kind hlook]
    omega
  · have hle := hs.weights kind
    have hsame := hweights kind
    omega
  · have hle := hs.fits kind
    rw [hweights, hshare]
    exact hle

theorem kept_other (hs : s.Consistent) {a : Address}
    (hfrom : ∀ kind, recorded (·.isFrom a) kind s'.delegatedResource = recorded (·.isFrom a) kind s.delegatedResource)
    (hto : ∀ kind, recorded (·.isTo a) kind s'.delegatedResource = recorded (·.isTo a) kind s.delegatedResource) :
    Option.Rel (AccountKept s s' a) (s.accounts.lookup a) (s.accounts.lookup a) := by
  cases hlook : s.accounts.lookup a with
  | none => exact .none
  | some other => exact .some ⟨hs.sound a other hlook, rfl, fun kind => by simp [hfrom], fun kind => by simp [hto]⟩

/-! ## Transactions that change one account -/

section

variable (hs : s.Consistent)
include hs

/-- There is room for the weights of an account whose holdings are shifted. -/
theorem State.Consistent.room {owner : Address} (hlook : s.accounts.lookup owner = some account)
    (hshift : account.Shifted account') (kind : ResourceKind) :
    0 ≤ s.totalWeight.get kind + (account'.weight kind - account.weight kind) ∧
      s.totalWeight.get kind + (account'.weight kind - account.weight kind) ≤ 0x7fffffffffffffff := by
  have hweights := hs.weights kind
  have hfits := hs.fits kind
  have hle := hshift.sound.weight_le kind
  have hpos := hshift.sound.weight_nonneg kind
  have hother : ∀ a other, (s.accounts.erase owner).lookup a = some other → other.Sound :=
    fun a other h => hs.sound a other (lookup_of_erase h)
  have hothers : 0 ≤ total (fun _ account => account.weight kind) (s.accounts.erase owner) :=
    total_nonneg fun a other h => (hother a other h).weight_nonneg kind
  have hslack : 0 ≤ total (fun _ account => account.holdings / TRX_PRECISION - account.weight kind)
      (s.accounts.erase owner) :=
    total_nonneg fun a other h => Int.sub_nonneg_of_le ((hother a other h).weight_le kind)
  rw [total_sub, total_erase_some _ hlook, total_erase_some _ hlook] at hslack
  rw [total_erase_some _ hlook] at hothers
  rw [hshift.holdings] at hle
  rw [weightSum] at hweights hfits
  omega

theorem kept_of_shifted {owner : Address} (hlook : s.accounts.lookup owner = some account)
    (hshift : account.Shifted account') (haccounts : s'.accounts = s.accounts.insert owner account')
    (hrecords : s'.delegatedResource = s.delegatedResource)
    (hweight : ∀ kind, s'.totalWeight.get kind = s.totalWeight.get kind + (account'.weight kind - account.weight kind))
    :
    Kept s s' := by
  refine kept_of_accounts hs (fun a => ?_) (fun key hkey kind => ?_) fun kind => ?_
  · rw [haccounts, lookup_insert_eq]
    split
    · next heq =>
      rw [heq, hlook]
      exact .some ⟨hshift.sound, hshift.holdings, fun kind => by simp [hrecords, hshift.delegated],
        fun kind => by simp [hrecords, hshift.acquired]⟩
    · exact kept_other hs (fun kind => by rw [hrecords]) fun kind => by rw [hrecords]
  · rw [amount, hrecords]
    exact hs.records key hkey kind
  · rw [hweight kind, weightSum, haccounts, total_insert_old _ hlook, weightSum]
    omega

theorem kept_settled (chain : Chain) (owner : Address) : Kept s (s.settled chain owner) := by
  obtain ⟨d, heq | ⟨account, n, hlook, heq⟩⟩ := settled_cases chain s owner
  · rw [heq]
    exact ⟨fun _ => rfl, fun _ => rfl, ⟨hs.sound, hs.records, hs.delegated, hs.acquired, hs.weights, hs.fits⟩⟩
  · have hshift := (hs.sound owner account hlook).shifted.withVotes account.votes n
    rw [heq]
    refine kept_of_shifted hs hlook hshift rfl rfl fun kind => ?_
    show s.totalWeight.get kind = s.totalWeight.get kind + (account.weight kind - account.weight kind)
    omega

end

/-! ## Weights -/

section

variable (chain : Chain)
include chain

theorem addWeight_eq {weight delta : Int} (hlo : 0 ≤ weight + delta) (hhi : weight + delta ≤ 0x7fffffffffffffff)
    : addWeight chain weight delta = weight + delta := by
  unfold addWeight
  split
  · omega
  · rw [wrapI64_of_fits ⟨by omega, hhi⟩]
    split
    · exact max_eq_left hlo
    · rfl

@[simp] theorem applyWeightDelta_accounts (s : State) (r delta : Int) :
    (s.applyWeightDelta chain r delta).accounts = s.accounts := by
  unfold applyWeightDelta
  split
  · rfl
  · split <;> rfl

@[simp] theorem applyWeightDelta_delegatedResource (s : State) (r delta : Int) :
    (s.applyWeightDelta chain r delta).delegatedResource = s.delegatedResource := by
  unfold applyWeightDelta
  split
  · rfl
  · split <;> rfl

theorem applyWeightDelta_weight (s : State) (r delta : Int) (kind : ResourceKind) :
    (s.applyWeightDelta chain r delta).totalWeight.get kind =
      if r = code kind then addWeight chain (s.totalWeight.get kind) delta else s.totalWeight.get kind := by
  unfold applyWeightDelta
  split
  · next kind' hkind =>
    rw [resourceKind?_eq_some] at hkind
    subst hkind
    rw [addTotalWeight, get_set]
    by_cases hk : kind = kind'
    · subst hk
      rw [if_pos rfl, if_pos rfl]
    · rw [if_neg hk, if_neg fun heq => hk (code_injective heq).symm]
  · next hkind =>
    have hne : r ≠ code kind := fun heq => by
      rw [resourceKind?_eq_some.2 heq] at hkind
      cases hkind
    split <;> rfl

end

theorem addWeight_of_shifted (hs : s.Consistent) (chain : Chain) {owner : Address}
    (hlook : s.accounts.lookup owner = some account) (hshift : account.Shifted account') (kind : ResourceKind) :
    addWeight chain (s.totalWeight.get kind)
        (weightDelta (frozenV2WithDelegated account (code kind)) (account'.basis kind)) =
      s.totalWeight.get kind + (account'.weight kind - account.weight kind) := by
  have hold := hs.sound owner account hlook
  have hroom := hs.room hlook hshift kind
  rw [hold.frozenV2WithDelegated_eq, weightDelta_eq (hold.basis_nonneg kind) (hshift.sound.basis_nonneg kind)]
  exact addWeight_eq chain hroom.1 hroom.2

/-- The weights after an account has moved `delta` into the slot of a resource. -/
theorem weight_of_slotsMoved (hs : s.Consistent) (chain : Chain) {owner : Address}
    (hlook : s.accounts.lookup owner = some account) (hshift : account.Shifted account') {r delta : Int}
    (hslots : SlotsMoved account.frozenV2 account'.frozenV2 r delta) {t : State} (ht : t.totalWeight = s.totalWeight)
    (kind : ResourceKind) :
    (t.applyWeightDelta chain r (weightDelta (frozenV2WithDelegated account r)
        (satI64 (frozenV2WithDelegated account r + delta)))).totalWeight.get kind =
      s.totalWeight.get kind + (account'.weight kind - account.weight kind) := by
  rw [applyWeightDelta_weight, ht]
  by_cases hr : r = code kind
  · subst hr
    rw [if_pos rfl, ← addWeight_of_shifted hs chain hlook hshift kind,
      (hs.sound owner account hlook).frozenV2WithDelegated_eq, ← basis_of_slotsMoved hslots hshift.delegated,
      satI64_of_fits (hshift.sound.basis_fits kind)]
  · have hsame : account'.weight kind = account.weight kind := by
      rw [weight, weight, basis, basis, hslots.held, if_neg (Ne.symm hr), hshift.delegated, Int.add_zero]
    omega

/-! ## The transactions of one account -/

variable {result : ExecutionResult} {chain : Chain}

section

variable (hs : s.Consistent)
include hs

theorem kept_freezeBalanceV2 {c : FreezeBalanceV2Contract} (h : apply chain s (.freezeBalanceV2 c) = .ok (s', result))
    : Kept s s' := by
  simp only [apply, validateFreezeBalanceV2, executeFreezeBalanceV2, requireOwner, account, bind_eq_ok,
    require_eq_ok, orFail_eq_ok, pure_eq_ok, Prod.mk.injEq] at h
  obtain ⟨-, ⟨-, -, owner, howner, -, ⟨hpos, -⟩, -, -, account, hlook, hbalance⟩, owner', howner', account₀, hlook',
    account', haccount', hs', -⟩ := h
  obtain rfl := some.inj (howner.symm.trans howner')
  obtain rfl := some.inj (hlook.symm.trans hlook')
  obtain ⟨hshift, hmoved⟩ := frozenAccount_spec (hs.sound owner account hlook) hpos hbalance haccount'
  subst hs'
  exact kept_of_shifted hs hlook hshift (by simp [State.putAccount]) (by simp [State.putAccount])
    (weight_of_slotsMoved hs chain hlook hshift hmoved rfl)

theorem kept_unfreezeBalanceV2 {c : UnfreezeBalanceV2Contract}
    (h : apply chain s (.unfreezeBalanceV2 c) = .ok (s', result)) : Kept s s' := by
  simp only [apply, validateUnfreezeBalanceV2, executeUnfreezeBalanceV2, requireOwner, account,
    bind_eq_ok, require_eq_ok, orFail_eq_ok, pure_eq_ok, Prod.mk.injEq] at h
  obtain ⟨-, ⟨-, -, owner, howner, -, -, before, hbefore, -, hfrozen, -, ⟨hpos, hle⟩, -⟩, owner', howner', account,
    hlook, account', haccount', hs', -⟩ := h
  obtain rfl := some.inj (howner.symm.trans howner')
  have hkept := kept_settled hs chain owner
  have hc := hkept.consistent
  obtain ⟨before', hbefore', hsame⟩ := settled_lookup hlook
  obtain rfl := some.inj (hbefore.symm.trans hbefore')
  have hslots : account.frozenV2 = before.frozenV2 := by rw [hsame]
  rw [← hslots] at hfrozen hle
  obtain ⟨had, hhad⟩ : ∃ had, slotAmount account.frozenV2 c.resource = some had := by
    cases hslot : slotAmount account.frozenV2 c.resource with
    | none => simp [hslot] at hfrozen
    | some had => exact ⟨had, rfl⟩
  rw [hhad] at hle
  obtain ⟨hshift, hmoved⟩ := unfrozenAccount_spec (hc.sound owner account hlook) hpos hhad hle haccount'
  subst hs'
  refine hkept.trans ?_
  obtain ⟨votes, hvotes⟩ := updateVoteAfterUnstake_account chain
    ((s.settled chain owner).applyWeightDelta chain c.resource (weightDelta (frozenV2WithDelegated account c.resource)
      (satI64 (frozenV2WithDelegated account c.resource - c.unfreezeBalance)))).votes owner account'
  rw [hvotes]
  exact kept_of_shifted hc hlook (hshift.withVotes votes account'.allowance) (by simp [State.putAccount])
    (by simp [State.putAccount]) (weight_of_slotsMoved hc chain hlook hshift hmoved rfl)

theorem kept_withdrawExpireUnfreeze {c : WithdrawExpireUnfreezeContract}
    (h : apply chain s (.withdrawExpireUnfreeze c) = .ok (s', result)) : Kept s s' := by
  simp only [apply, executeWithdrawExpireUnfreeze, account, bind_eq_ok, orFail_eq_ok, pure_eq_ok, Prod.mk.injEq] at h
  obtain ⟨-, -, owner, -, account, hlook, account', haccount', hs', -⟩ := h
  obtain ⟨hshift, hslots⟩ := withdrawnAccount_spec (hs.sound owner account hlook) haccount'
  subst hs'
  refine kept_of_shifted hs hlook hshift rfl rfl fun kind => ?_
  have hsame : account'.weight kind = account.weight kind := by
    rw [weight, weight, basis, basis, hslots, hshift.delegated]
  show s.totalWeight.get kind = _
  omega

theorem kept_cancelAllUnfreezeV2 {c : CancelAllUnfreezeV2Contract}
    (h : apply chain s (.cancelAllUnfreezeV2 c) = .ok (s', result)) : Kept s s' := by
  simp only [apply, executeCancelAllUnfreezeV2, account, bind_eq_ok, orFail_eq_ok, pure_eq_ok, Prod.mk.injEq] at h
  obtain ⟨-, -, owner, -, account, hlook, x, hx, hs', -⟩ := h
  have hold := hs.sound owner account hlook
  obtain ⟨hshift, hbasis⟩ := cancelledAccount_spec hold hx
  have hnew : ∀ kind, wrapI64 (frozenV2WithDelegated account (code kind) + x.restored.get kind) =
      (cancelledAccount account x).basis kind := by
    intro kind
    rw [hold.frozenV2WithDelegated_eq, ← hbasis, wrapI64_of_fits (hshift.sound.basis_fits kind)]
  have hwritten := addWeight_of_shifted hs chain hlook hshift
  subst hs'
  refine kept_of_shifted hs hlook hshift (by simp [State.putAccount, cancelledAccount]) (by simp [State.putAccount])
    fun kind => ?_
  rw [applyWeightDelta_weight, applyWeightDelta_weight, applyWeightDelta_weight, ← hwritten kind, ← hnew kind]
  cases kind <;> simp [code, State.putAccount, PerKind.get]

end

/-! ## Transactions of a pair -/

variable {account : Account}

theorem State.Consistent.pair_fits (hs : s.Consistent) {owner : Address}
    (hlook : s.accounts.lookup owner = some account) (receiver : Address) (kind : ResourceKind) :
    FitsI64 (s.amount (.v2Unlocked owner receiver) kind + s.amount (.v2Locked owner receiver) kind) ∧
      s.amount (.v2Unlocked owner receiver) kind + s.amount (.v2Locked owner receiver) kind ≤
        account.delegatedFrozenV2Balance.get kind := by
  have hsound := hs.sound owner account hlook
  have hunlocked := hs.records (.v2Unlocked owner receiver) rfl kind
  have hlocked := hs.records (.v2Locked owner receiver) rfl kind
  have hle : s.amount (.v2Unlocked owner receiver) kind + s.amount (.v2Locked owner receiver) kind ≤
      recorded (·.isFrom owner) kind s.delegatedResource := by
    refine amount_add_le (fun key hkey => hs.records key ?_ kind) (by simp) (by simp [isFrom])
      (by simp [isFrom])
    cases key <;> simp_all [isFrom, isV2]
  rw [← hs.delegated owner account kind hlook] at hle
  have hbasis := hsound.basis_le kind
  have hheld := (held_nonneg hsound.frozen (code kind)).1
  have hpending := pendingSum_nonneg hsound.pending
  have hbalance := hsound.balance
  have hfits := hsound.fits
  rw [basis] at hbasis
  exact ⟨⟨by omega, by omega⟩, hle⟩

theorem State.Consistent.amount_unlock_nonneg (hs : s.Consistent) {owner : Address} (hlook : s.accounts.lookup owner = some account)
    (receiver : Address) (now : Int) {key : ResourceKey} (hkey : key.isV2) (kind : ResourceKind)
    : 0 ≤ (unlockExpireResource s owner receiver now).amount key kind := by
  have hthis := hs.records key hkey kind
  have hlocked := hs.records (.v2Locked owner receiver) rfl kind
  rw [amount_unlock kind fun kind => (hs.pair_fits hlook receiver kind).1]
  split_ifs <;> omega

theorem amount_congr {t : State} {key : ResourceKey} {kind : ResourceKind}
    (h : s.delegatedResource = t.delegatedResource) : s.amount key kind = t.amount key kind := by
  rw [amount, h, amount]

/-- The accounts after the receiver's has been changed, where there is one. -/
def changeReceiver (accounts : Table Address Account) (receiver : Address) (acquired : Account → PerKind)
    (dest : Option Account) : Table Address Account :=
  match dest with
  | some dest => accounts.insert receiver { dest with acquiredDelegatedFrozenV2Balance := acquired dest }
  | none => accounts

theorem kept_of_pair (hs : s.Consistent) {owner receiver : Address} (hne : owner ≠ receiver)
    (hlook : s.accounts.lookup owner = some account) (hsound : account'.Sound)
    (hholdings : account'.holdings = account.holdings) (hbasis : ∀ kind, account'.basis kind = account.basis kind)
    (hacquired : account'.acquiredDelegatedFrozenV2Balance = account.acquiredDelegatedFrozenV2Balance)
    {moved : ResourceKind} {delta : Int} (acquired : Account → PerKind)
    (hdelegated : ∀ kind, account'.delegatedFrozenV2Balance.get kind =
      account.delegatedFrozenV2Balance.get kind + if kind = moved then delta else 0)
    (hreceived : ∀ dest, s.accounts.lookup receiver = some dest → ∀ kind, (acquired dest).get kind =
      dest.acquiredDelegatedFrozenV2Balance.get kind + if kind = moved then delta else 0)
    (haccounts : s'.accounts =
      changeReceiver (s.accounts.insert owner account') receiver acquired (s.accounts.lookup receiver))
    {now : Int} (lock : Bool) (hmoved : RecordMoved (unlockExpireResource s owner receiver now) s'
      (delegationKey owner receiver lock) moved delta)
    (hpos : 0 ≤ (unlockExpireResource s owner receiver now).amount (delegationKey owner receiver lock) moved + delta)
    (hweight : s'.totalWeight = s.totalWeight) : Kept s s' := by
  have hlookup : ∀ a, s'.accounts.lookup a = if a = receiver then (s.accounts.lookup receiver).map fun dest =>
        { dest with acquiredDelegatedFrozenV2Balance := acquired dest }
      else if a = owner then some account' else s.accounts.lookup a := by
    intro a
    rw [haccounts]
    cases hdest : s.accounts.lookup receiver with
    | none =>
      rw [changeReceiver, lookup_insert_eq]
      by_cases hr : a = receiver
      · rw [if_pos hr, hr, if_neg (Ne.symm hne), hdest]
        rfl
      · rw [if_neg hr]
    | some dest =>
      rw [changeReceiver, lookup_insert_eq, lookup_insert_eq]
      rfl
  have hamount : ∀ key, key.isV2 → ∀ kind, 0 ≤ s'.amount key kind := by
    intro key hkey kind
    have hold := hs.amount_unlock_nonneg hlook receiver now hkey kind
    rw [hmoved.amount]
    split
    · next hsame => rwa [hsame.1, hsame.2]
    · omega
  have hfits := fun kind => (hs.pair_fits hlook receiver kind).1
  have hfrom : ∀ a kind, recorded (·.isFrom a) kind s'.delegatedResource =
      recorded (·.isFrom a) kind s.delegatedResource + if owner = a ∧ kind = moved then delta else 0 := by
    intro a kind
    rw [hmoved.recorded, recorded_unlock kind hfits rfl]
    cases lock <;> simp [delegationKey, isFrom]
  have hdest : ∀ a kind, recorded (·.isTo a) kind s'.delegatedResource =
      recorded (·.isTo a) kind s.delegatedResource + if receiver = a ∧ kind = moved then delta else 0 := by
    intro a kind
    rw [hmoved.recorded, recorded_unlock kind hfits rfl]
    cases lock <;> simp [delegationKey, isTo]
  refine kept_of_accounts hs (fun a => ?_) hamount fun kind => ?_
  · rw [hlookup]
    split_ifs with hr ho
    · subst hr
      cases hto : s.accounts.lookup a with
      | none => exact .none
      | some dest =>
        have hold := hs.sound a dest hto
        exact .some ⟨⟨hold.balance, hold.slots, hold.frozen, hold.pending, hold.delegated, hold.fits⟩, rfl,
          fun kind => by simp [hfrom, hne], fun kind => by simp [hdest, hreceived dest hto]⟩
    · subst ho
      rw [hlook]
      exact .some ⟨hsound, hholdings, fun kind => by simp [hfrom, hdelegated],
        fun kind => by simp [hdest, hacquired, Ne.symm hne]⟩
    · exact kept_other hs (fun kind => by simp [hfrom, Ne.symm ho]) fun kind => by simp [hdest, Ne.symm hr]
  · have hsum : s'.weightSum kind = s.weightSum kind := by
      refine total_ext fun a => ?_
      rw [hlookup]
      split_ifs with hr ho
      · rw [hr]
        cases s.accounts.lookup receiver <;> rfl
      · rw [ho, hlook, elim_some, elim_some, weight, weight, hbasis]
      · rfl
    rw [hweight, hsum]

theorem slot_of_delegatable {owner : Address} (hsound : account.Sound) {kind : ResourceKind} {balance : Int}
    (hpos : 0 < balance) (h : balance ≤ delegatableFrozenV2 chain owner account (code kind) kind) :
    ∃ had, slotAmount account.frozenV2 (code kind) = some had ∧ balance ≤ had := by
  have husage : 0 ≤ v2Usage account kind (chain.outside.usageWeight owner kind) := le_max_right _ _
  have hheld : frozenV2Balance account (code kind) = held account.frozenV2 (code kind) := by
    have hlo := (held_nonneg hsound.frozen (code kind)).1
    have hbasis := hsound.basis_le kind
    have hdelegated := hsound.delegated kind
    have hpending := pendingSum_nonneg hsound.pending
    have hbalance := hsound.balance
    have hfits := hsound.fits
    rw [basis] at hbasis
    exact wrapI64_of_fits (show FitsI64 (held _ _) from ⟨by omega, by omega⟩)
  have hle : balance ≤ held account.frozenV2 (code kind) := by
    rw [delegatableFrozenV2, hheld, satI64] at h
    omega
  cases hslot : slotAmount account.frozenV2 (code kind) with
  | none =>
    rw [held_of_slotAmount_none hslot] at hle
    omega
  | some had =>
    rw [held_of_slotAmount hsound.slots hslot] at hle
    exact ⟨had, rfl, hle⟩

section

variable (hs : s.Consistent)
include hs

theorem kept_delegateResource {c : DelegateResourceContract}
    (h : apply chain s (.delegateResource c) = .ok (s', result)) : Kept s s' := by
  obtain ⟨owner, receiver, kind, account, dest, slots, expiry, hd⟩ := delegated_of_apply h
  have hsound := hs.sound owner account hd.lookup
  have hpos : 0 < c.balance := lt_of_lt_of_le (by decide) hd.minimum
  obtain ⟨had, hslot, hle⟩ := slot_of_delegatable hsound hpos hd.available
  obtain ⟨hmoved, hnonneg⟩ := takeFromSlot_spec hslot hd.taken
  have hdelegated := hsound.delegated kind
  obtain ⟨hsound', hholdings, hbasis, hlent⟩ :=
    lentAccount_spec hsound hmoved (hnonneg hle hsound.frozen) (by omega)
  refine kept_of_pair hs hd.distinct hd.lookup hsound' hholdings hbasis rfl
    (fun other => other.acquiredDelegatedFrozenV2Balance.set kind
      (other.acquiredDelegatedFrozenV2Balance.get kind + c.balance))
    hlent (fun other _ k => get_set_add _ kind k _) (hd.accounts.trans ?_) _ (recordMoved_written (fun k => ?_)
      fun k key => (amount_congr hd.records).trans (amount_putResource _ _ _ k key)) ?_ hd.totalWeight
  · rw [hd.lookup_dest]
    rfl
  · rw [← resourceOrNew_frozenBalance, ← resourceOrNew_frozenBalance, get_set_add]
  · have hkey : (delegationKey owner receiver c.lock).isV2 := by
      unfold delegationKey
      split <;> rfl
    have := hs.amount_unlock_nonneg hd.lookup receiver chain.now hkey kind
    omega

/-- What can be recalled is in the unlocked record, once an expired lock has been folded into it. -/
theorem undelegatable_eq {owner receiver : Address} (hlook : s.accounts.lookup owner = some account)
    (kind : ResourceKind) (now : Int) :
    undelegatableBalance (s.delegatedResource.lookup (.v2Unlocked owner receiver))
        (s.delegatedResource.lookup (.v2Locked owner receiver)) kind now =
      (unlockExpireResource s owner receiver now).amount (.v2Unlocked owner receiver) kind := by
  have hfits := fun kind => (hs.pair_fits hlook receiver kind).1
  have hfree : ((s.delegatedResource.lookup (.v2Unlocked owner receiver)).map (·.frozenBalance.get kind)).getD 0 =
      s.amount (.v2Unlocked owner receiver) kind := by
    rw [amount]
    cases s.delegatedResource.lookup (.v2Unlocked owner receiver) <;> rfl
  rw [amount_unlock kind hfits, if_neg (by simp), if_pos rfl]
  unfold undelegatableBalance
  rw [hfree]
  have hfit := hfits kind
  rw [amount, amount] at hfit
  cases hlock : s.delegatedResource.lookup (.v2Locked owner receiver) with
  | none =>
    have hzero : s.amount (.v2Locked owner receiver) kind = 0 := by
      rw [amount, hlock]
      rfl
    rw [hzero, Int.add_zero, ite_self]
  | some lock =>
    rw [hlock] at hfit
    have hamount : s.amount (.v2Locked owner receiver) kind = lock.frozenBalance.get kind := by
      rw [amount, hlock]
      rfl
    have hexpiry : s.expiry (.v2Locked owner receiver) kind = lock.expireTime.get kind := by
      rw [expiry, hlock]
      rfl
    rw [hamount, hexpiry]
    dsimp only
    split
    · exact wrapI64_of_fits hfit
    · rfl

theorem State.Consistent.pair_le_acquired {receiver : Address} {dest : Account}
    (hlook : s.accounts.lookup receiver = some dest) (owner : Address) (kind : ResourceKind) :
    s.amount (.v2Unlocked owner receiver) kind + s.amount (.v2Locked owner receiver) kind ≤
      dest.acquiredDelegatedFrozenV2Balance.get kind := by
  rw [hs.acquired receiver dest kind hlook]
  refine amount_add_le (fun key hkey => hs.records key ?_ kind) (by simp) (by simp [isTo])
    (by simp [isTo])
  cases key <;> simp_all [isTo, isV2]

theorem kept_undelegateResource {c : UnDelegateResourceContract}
    (h : apply chain s (.undelegateResource c) = .ok (s', result)) : Kept s s' := by
  obtain ⟨owner, receiver, kind, account, slots, row, hr⟩ := recalled_of_apply h
  have hsound := hs.sound owner account hr.lookup
  have hfits := fun kind => (hs.pair_fits hr.lookup receiver kind).1
  have hpos := hr.positive
  have hrow : ∀ k, (unlockExpireResource s owner receiver chain.now).amount (.v2Unlocked owner receiver) k =
      row.frozenBalance.get k := by
    intro k
    rw [amount, hr.unlocked]
    rfl
  have havail := hr.available
  rw [undelegatable_eq hs hr.lookup] at havail
  have hpair := (hs.pair_fits hr.lookup receiver kind).2
  have hlocked := hs.records (.v2Locked owner receiver) rfl kind
  have hfold : (unlockExpireResource s owner receiver chain.now).amount (.v2Unlocked owner receiver) kind = _ :=
    amount_unlock kind hfits _
  obtain ⟨hmoved, hnonneg⟩ := addToSlot_spec hr.returned
  have hmoved' : SlotsMoved account.frozenV2 slots (code kind) (- -c.balance) := by rwa [Int.neg_neg]
  obtain ⟨hsound', hholdings, hbasis, hlent⟩ :=
    lentAccount_spec hsound hmoved' (hnonneg hpos.le hsound.frozen) (by omega)
  refine kept_of_pair hs hr.distinct hr.lookup hsound' hholdings hbasis rfl
    (fun dest => (returnAcquiredV2 dest kind c.balance).acquiredDelegatedFrozenV2Balance)
    hlent (fun dest hdest k => ?_) (hr.accounts.trans ?_) false (recordMoved_written (fun k => ?_) fun k key =>
      (amount_congr hr.records).trans (amount_storeResource _ _ _ k key)) ?_ hr.totalWeight
  · have hacquired := hs.pair_le_acquired hdest owner kind
    rw [returnAcquiredV2]
    rw [if_neg (by omega), get_set]
    split
    · next hk =>
      rw [hk]
      omega
    · omega
  · cases s.accounts.lookup receiver <;> rfl
  · show _ = (unlockExpireResource s owner receiver chain.now).amount (.v2Unlocked owner receiver) k + _
    rw [hrow, Int.sub_eq_add_neg, get_set_add]
  · show 0 ≤ (unlockExpireResource s owner receiver chain.now).amount (.v2Unlocked owner receiver) kind + _
    omega

end

/-! ## Runs -/

theorem kept_of_apply (hs : s.Consistent) {tx : Tx} (hv2 : tx.isV2) (h : apply chain s tx = .ok (s', result)) :
    Kept s s' := by
  cases tx with
  | voteWitness c => cases hv2
  | freezeBalance c => cases hv2
  | unfreezeBalance c => cases hv2
  | freezeBalanceV2 c => exact kept_freezeBalanceV2 hs h
  | unfreezeBalanceV2 c => exact kept_unfreezeBalanceV2 hs h
  | withdrawExpireUnfreeze c => exact kept_withdrawExpireUnfreeze hs h
  | cancelAllUnfreezeV2 c => exact kept_cancelAllUnfreezeV2 hs h
  | delegateResource c => exact kept_delegateResource hs h
  | undelegateResource c => exact kept_undelegateResource hs h

theorem kept_of_run {s₀ : State} (h₀ : s₀.Consistent) {acts : List (Chain × Tx)} (hacts : ∀ a ∈ acts, a.2.isV2) :
    Kept s₀ (after step s₀ acts) :=
  run_keeps (fun _ _ _ _ _ hv2 hkept happly => hkept.trans (kept_of_apply hkept.consistent hv2 happly))
    (Kept.refl h₀) hacts

/-- **Staking conserves TRX, weights and delegation records.** -/
theorem staking_conserves {s₀ : State} (h₀ : s₀.Consistent) {acts : List (Chain × Tx)} (hacts : ∀ a ∈ acts, a.2.isV2) :
    let s := after step s₀ acts
    (∀ a, s.holdings a = s₀.holdings a) ∧
    (∀ kind, s.totalWeight.get kind - s₀.totalWeight.get kind = s.weightSum kind - s₀.weightSum kind) ∧
    (∀ owner account kind, s.accounts.lookup owner = some account →
      account.delegatedFrozenV2Balance.get kind = recorded (·.isFrom owner) kind s.delegatedResource) ∧
    (∀ receiver account kind, s.accounts.lookup receiver = some account →
      account.acquiredDelegatedFrozenV2Balance.get kind = recorded (·.isTo receiver) kind s.delegatedResource) := by
  have hkept := kept_of_run h₀ hacts
  refine ⟨hkept.holdings, fun kind => ?_, hkept.consistent.delegated, hkept.consistent.acquired⟩
  have := hkept.weights kind
  omega

namespace Sample

theorem holdings_unstaked (balance : Int) : Account.holdings { Account.default with balance := balance } = balance := by
  simp [Account.holdings, Account.default, pendingSum, sum, zero]

theorem consistent_unstaked {balance : Int} (hpos : 0 ≤ balance) (hfits : balance ≤ 0x7fffffffffffffff) :
    (unstaked balance).Consistent where
  sound a account h := by
    rcases lookup_unstaked h with rfl | rfl
    · exact ⟨hpos, List.nodup_nil, by simp [Account.default], by simp [Account.default], by simp [Account.default],
        le_of_eq_of_le (holdings_unstaked balance) hfits⟩
    · exact ⟨le_refl 0, List.nodup_nil, by simp [Account.default], by simp [Account.default],
        by simp [Account.default], by decide⟩
  records key _ kind := by
    rw [amount, unstaked]
    simp [AList.lookup_empty]
  delegated _ account kind h := by
    rcases lookup_unstaked h with rfl | rfl <;> cases kind <;> rfl
  acquired _ account kind h := by
    rcases lookup_unstaked h with rfl | rfl <;> cases kind <;> rfl
  weights kind := by
    cases kind <;> exact le_refl 0
  fits kind := by
    rw [weightSum, total_unstaked, total_unstaked]
    have hweight : Account.weight { Account.default with balance := balance } kind = 0 := by cases kind <;> rfl
    have hdefault : Account.default.weight kind = 0 ∧ Account.default.holdings = 0 := by cases kind <;> decide
    have hzero : (unstaked balance).totalWeight.get kind = 0 := by cases kind <;> rfl
    rw [hweight, hdefault.1, hdefault.2, hzero, holdings_unstaked, TRX_PRECISION]
    omega

def frozenThenDelegated : List (Chain × Tx) :=
  [(chainAt 0, .freezeBalanceV2 ⟨owner.val, 5000000, 0⟩),
   (chainAt 3000, .delegateResource ⟨owner.val, receiver.val, 0, 2000000, true, 100⟩),
   (chainAt 6000, .unfreezeBalanceV2 ⟨owner.val, 1000000, 0⟩)]

/-- The laws after an owner has frozen 5 TRX, lent 2 of them under a lock and unfrozen 1. -/
theorem staking_conserves_sample :
    let s := after step (unstaked 10000000) frozenThenDelegated
    s.holdings owner = some 10000000 ∧ s.totalWeight.get .bandwidth = s.weightSum .bandwidth ∧
      s.amount (.v2Locked owner receiver) .bandwidth = 2000000 := by
  have hs : (unstaked 10000000).Consistent := consistent_unstaked (by decide) (by decide)
  have hv2 : ∀ a ∈ frozenThenDelegated, a.2.isV2 := by decide
  obtain ⟨hholdings, hweights, -, -⟩ := staking_conserves hs hv2
  refine ⟨(hholdings owner).trans (by decide), ?_, ?_⟩
  · have := hweights .bandwidth
    have hzero : (unstaked 10000000).weightSum .bandwidth = 0 ∧
        (unstaked 10000000).totalWeight.get .bandwidth = 0 := by decide
    omega
  · decide +kernel

end Sample

end TronGoblin.Stake
