import TronGoblin.Actuator.StakeRecords

/-!
# What legacy staking conserves

`FreezeBalance` and `UnfreezeBalance` move TRX between the balance of an account, its legacy stakes and what it
has delegated.  A freeze for `TRON_POWER` is the exception: it takes the balance and records nothing.

* `LegacyStake`: the parts of an account that legacy staking moves TRX between.
* `LegacyMove`: all that an executed transaction does to the stakes and the records.
* `legacy_conserves`: a run conserves every account's total exactly if no freeze for `TRON_POWER` passes.
* `TronPower.freeze_loses_balance`: such a freeze.
-/

namespace TronGoblin.Stake

open Checked Option State PerKind
open History (after tally Each)
open Resource (ResourceKind)

/-! ## Stakes -/

structure LegacyStake where
  balance : Int
  frozen : List Frozen
  frozenBalanceForEnergy : Option Frozen
  tronPower : Option Frozen
  delegated : PerKind

open LegacyStake

def Account.legacyStake (account : Account) : LegacyStake :=
  ⟨account.balance, account.frozen, account.frozenBalanceForEnergy, account.tronPower, account.delegatedFrozenBalance⟩

def frozenTotal (frozen : List Frozen) : Int := (frozen.map (·.frozenBalance)).sum

namespace LegacyStake

/-- Balance, frozen bandwidth, energy and TRON power, and what is delegated out. -/
def total (st : LegacyStake) : Int :=
  st.balance + frozenTotal st.frozen + frozenTotal st.frozenBalanceForEnergy.toList +
    frozenTotal st.tronPower.toList + st.delegated.sum

structure Sound (st : LegacyStake) : Prop where
  balance : 0 ≤ st.balance
  frozen : ∀ f ∈ st.frozen, 0 ≤ f.frozenBalance
  energy : ∀ f ∈ st.frozenBalanceForEnergy.toList, 0 ≤ f.frozenBalance
  tronPower : ∀ f ∈ st.tronPower.toList, 0 ≤ f.frozenBalance
  delegated : ∀ kind, 0 ≤ st.delegated.get kind
  fits : st.total ≤ 0x7fffffffffffffff

end LegacyStake

@[simp] theorem frozenTotal_nil : frozenTotal [] = 0 := rfl

@[simp] theorem frozenTotal_cons (f : Frozen) (frozen : List Frozen) :
    frozenTotal (f :: frozen) = f.frozenBalance + frozenTotal frozen := List.sum_cons

theorem frozenTotal_nonneg {frozen : List Frozen} (h : ∀ f ∈ frozen, 0 ≤ f.frozenBalance) : 0 ≤ frozenTotal frozen :=
  sum_map_nonneg h

variable {st : LegacyStake}

theorem LegacyStake.Sound.delegatedSum_nonneg (h : st.Sound) : 0 ≤ st.delegated.sum := by
  have hb := h.delegated .bandwidth
  have he := h.delegated .energy
  simp only [PerKind.get] at hb he
  rw [sum]
  omega

theorem LegacyStake.Sound.delegated_le (h : st.Sound) (kind : ResourceKind) :
    st.delegated.get kind ≤ 0x7fffffffffffffff := by
  have hb := h.delegated .bandwidth
  have he := h.delegated .energy
  have hfrozen := frozenTotal_nonneg h.frozen
  have henergy := frozenTotal_nonneg h.energy
  have hpower := frozenTotal_nonneg h.tronPower
  have hbalance := h.balance
  have hfits := h.fits
  rw [total, sum] at hfits
  cases kind <;> simp only [PerKind.get] at hb he ⊢ <;> omega

theorem LegacyStake.Sound.balance_le (h : st.Sound) : st.balance ≤ 0x7fffffffffffffff := by
  have hfrozen := frozenTotal_nonneg h.frozen
  have henergy := frozenTotal_nonneg h.energy
  have hpower := frozenTotal_nonneg h.tronPower
  have hsum := h.delegatedSum_nonneg
  have hfits := h.fits
  rw [total] at hfits
  omega

theorem setSelfFrozen_total (account : Account) (kind : ResourceKind) (amount expire : Int) :
    (setSelfFrozen account ⟨selfFrozen account kind + amount, expire⟩ kind).legacyStake.total =
      account.legacyStake.total + amount := by
  cases kind with
  | bandwidth =>
    cases hfrozen : account.frozen <;>
      simp [setSelfFrozen, selfFrozen, Account.legacyStake, total, hfrozen] <;> omega
  | energy =>
    cases hfrozen : account.frozenBalanceForEnergy <;>
      simp [setSelfFrozen, selfFrozen, Account.legacyStake, total, hfrozen] <;> omega

/-- The owner's account after TRX has gone from the balance to what is delegated, or back. -/
def lentStake (account : Account) (kind : ResourceKind) (amount : Int) : Account :=
  { account with
    delegatedFrozenBalance := account.delegatedFrozenBalance.set kind (account.delegatedFrozenBalance.get kind + amount)
    balance := account.balance - amount }

variable {account : Account}

section

variable (h : account.legacyStake.Sound)
include h

variable (kind : ResourceKind)
include kind

theorem selfFrozen_nonneg : 0 ≤ selfFrozen account kind := by
  cases kind with
  | bandwidth =>
    cases hfrozen : account.frozen with
    | nil => simp [selfFrozen, hfrozen]
    | cons f rest =>
      have := h.frozen f (by simp [Account.legacyStake, hfrozen])
      simpa [selfFrozen, hfrozen] using this
  | energy =>
    cases hfrozen : account.frozenBalanceForEnergy with
    | none => simp [selfFrozen, hfrozen]
    | some f =>
      have := h.energy f (by simp [Account.legacyStake, hfrozen])
      simpa [selfFrozen, hfrozen] using this

theorem frozenSelf_spec {amount : Int} (expire : Int) (hpos : 0 ≤ amount) (hle : amount ≤ account.balance) :
    let account' := { setSelfFrozen account ⟨selfFrozen account kind + amount, expire⟩ kind with
      balance := account.balance - amount }
    account'.legacyStake.Sound ∧ account'.legacyStake.total = account.legacyStake.total := by
  have htotal := setSelfFrozen_total account kind amount expire
  have hself := selfFrozen_nonneg h kind
  have hfits := h.fits
  have hsame : ({ setSelfFrozen account ⟨selfFrozen account kind + amount, expire⟩ kind with
      balance := account.balance - amount } : Account).legacyStake.total = account.legacyStake.total := by
    cases kind <;> simp only [setSelfFrozen, Account.legacyStake, total] at htotal ⊢ <;> omega
  refine ⟨⟨?_, ?_, ?_, ?_, ?_, ?_⟩, hsame⟩
  · show 0 ≤ account.balance - amount
    omega
  · cases kind with
    | bandwidth =>
      rintro f (_ | ⟨_, hf⟩)
      · show 0 ≤ selfFrozen account .bandwidth + amount
        omega
      · exact h.frozen f (List.mem_of_mem_tail hf)
    | energy => exact h.frozen
  · cases kind with
    | bandwidth => exact h.energy
    | energy =>
      rintro f (_ | ⟨_, hf⟩)
      · show 0 ≤ selfFrozen account .energy + amount
        omega
      · cases hf
  · cases kind <;> exact h.tronPower
  · cases kind <;> exact h.delegated
  · exact hsame.trans_le hfits

theorem lentStake_spec {amount : Int} (hpos : 0 ≤ account.delegatedFrozenBalance.get kind + amount)
    (hle : amount ≤ account.balance) : (lentStake account kind amount).legacyStake.Sound ∧
      (lentStake account kind amount).legacyStake.total = account.legacyStake.total := by
  have hsame : (lentStake account kind amount).legacyStake.total = account.legacyStake.total := by
    simp only [lentStake, Account.legacyStake, total, sum_set]
    omega
  refine ⟨⟨Int.sub_nonneg_of_le hle, h.frozen, h.energy, h.tronPower, fun k => ?_, hsame.trans_le h.fits⟩, hsame⟩
  show 0 ≤ (account.delegatedFrozenBalance.set kind _).get k
  rw [get_set]
  split
  · exact hpos
  · exact h.delegated k

end

/-! ## States -/

/-- The keys of the legacy records of an owner. -/
def ResourceKey.isV1From (owner : Address) : ResourceKey → Bool
  | .v1 o _ => o = owner
  | _ => false

def State.legacyStake (s : State) (a : Address) : Option LegacyStake := (s.accounts.lookup a).map (·.legacyStake)

theorem legacyStake_of_lookup {s : State} {a : Address} (h : s.accounts.lookup a = some account) :
    s.legacyStake a = some account.legacyStake := by
  rw [legacyStake, h]
  rfl

/-- The accounts and the records agree, and nothing overflows. -/
structure State.LegacyConsistent (s : State) : Prop where
  sound : ∀ a st, s.legacyStake a = some st → st.Sound
  records : ∀ owner receiver kind, 0 ≤ s.amount (.v1 owner receiver) kind
  delegated : ∀ a st kind, s.legacyStake a = some st →
    st.delegated.get kind = recorded (·.isV1From a) kind s.delegatedResource

/-- All that an executed transaction does to stakes and records: one stake changes, with what it delegates, and
`lost` TRX are gone from it. -/
structure LegacyMove (s s' : State) (owner : Address) (st st' : LegacyStake) (delta : ResourceKind → Int)
    (lost : Int) : Prop where
  lookup : s.legacyStake owner = some st
  stakes : ∀ a, s'.legacyStake a = if a = owner then some st' else s.legacyStake a
  total : st'.total = st.total - lost
  sound : st'.Sound
  delegated : ∀ kind, st'.delegated.get kind = st.delegated.get kind + delta kind
  records : ∀ owner receiver kind, 0 ≤ s'.amount (.v1 owner receiver) kind
  recorded : ∀ a kind, recorded (·.isV1From a) kind s'.delegatedResource =
    recorded (·.isV1From a) kind s.delegatedResource + if a = owner then delta kind else 0

section Moves

variable {s s' : State} {owner : Address} {delta : ResourceKind → Int} {st st' : LegacyStake} {lost : Int}

theorem LegacyMove.consistent (hs : s.LegacyConsistent) (h : LegacyMove s s' owner st st' delta lost) :
    s'.LegacyConsistent where
  sound a new ha := by
    rw [h.stakes] at ha
    split at ha
    · cases ha
      exact h.sound
    · exact hs.sound a new ha
  records := h.records
  delegated a new kind ha := by
    rw [h.stakes] at ha
    rw [h.recorded]
    split at ha
    · next heq =>
      cases ha
      rw [h.delegated, hs.delegated owner st kind h.lookup, heq, if_pos rfl]
    · next hne => rw [if_neg hne, Int.add_zero, hs.delegated a new kind ha]

theorem legacyStake_putAccount (owner a : Address) (account : Account) :
    (s.putAccount owner account).legacyStake a = if a = owner then some account.legacyStake else s.legacyStake a := by
  rw [legacyStake, State.putAccount, Assoc.lookup_insert_eq]
  split <;> rfl

variable {account account' : Account}

theorem legacyMove_self (hs : s.LegacyConsistent) (hlook : s.accounts.lookup owner = some account)
    (hstakes : ∀ a, s'.legacyStake a = if a = owner then some account'.legacyStake else s.legacyStake a)
    (htotal : account'.legacyStake.total = account.legacyStake.total - lost) (hsound : account'.legacyStake.Sound)
    (hdelegated : account'.delegatedFrozenBalance = account.delegatedFrozenBalance)
    (hrecords : s'.delegatedResource = s.delegatedResource) :
    LegacyMove s s' owner account.legacyStake account'.legacyStake (fun _ => 0) lost where
  lookup := legacyStake_of_lookup hlook
  stakes := hstakes
  total := htotal
  sound := hsound
  delegated kind := by
    show account'.delegatedFrozenBalance.get kind = _
    rw [hdelegated, Int.add_zero]
    rfl
  records o r kind := by
    rw [amount, hrecords]
    exact hs.records o r kind
  recorded a kind := by rw [hrecords, ite_self, Int.add_zero]

variable {owner receiver : Address}

/-- What an owner has delegated to one receiver is at most what it has delegated. -/
theorem State.LegacyConsistent.amount_le (hs : s.LegacyConsistent) {account : Account}
    (hlook : s.accounts.lookup owner = some account) (receiver : Address) (kind : ResourceKind) :
    s.amount (.v1 owner receiver) kind ≤ account.delegatedFrozenBalance.get kind := by
  have hdelegated := hs.delegated owner account.legacyStake kind (legacyStake_of_lookup hlook)
  refine le_of_le_of_eq (amount_le_recorded (fun key hkey => ?_) ?_) hdelegated.symm
  · cases key with
    | v1 o r => exact hs.records o r kind
    | _ => cases hkey
  · simp [ResourceKey.isV1From]

theorem legacyMove_lent (hs : s.LegacyConsistent) (hlook : s.accounts.lookup owner = some account) {kind : ResourceKind}
    {amount : Int} {t : State} (ht : ∀ a, t.legacyStake a = s.legacyStake a) (hstakes : ∀ a, s'.legacyStake a =
      if a = owner then some (lentStake account kind amount).legacyStake else t.legacyStake a)
    (hmoved : RecordMoved s s' (.v1 owner receiver) kind amount)
    (hpos : 0 ≤ s.amount (.v1 owner receiver) kind + amount) (hle : amount ≤ account.balance) :
    LegacyMove s s' owner account.legacyStake (lentStake account kind amount).legacyStake
      (fun k => if k = kind then amount else 0) 0 := by
  have hdelegated := hs.amount_le hlook receiver kind
  obtain ⟨hsound, htotal⟩ := lentStake_spec (hs.sound owner _ (legacyStake_of_lookup hlook)) kind (by omega) hle
  refine ⟨legacyStake_of_lookup hlook, fun a => by rw [hstakes, ht], htotal.trans (Int.sub_zero _).symm, hsound,
    fun k => get_set_add _ kind k amount, fun o r k => ?_, fun a k => ?_⟩
  · have hold := hs.records o r k
    rw [hmoved.amount]
    split
    · next hsame => rwa [hsame.1, hsame.2]
    · omega
  · have hfrom : ResourceKey.isV1From a (.v1 owner receiver) = true ↔ a = owner := by
      simp [ResourceKey.isV1From, eq_comm]
    rw [hmoved.recorded]
    simp only [hfrom]
    by_cases ha : a = owner <;> simp [ha]

/-! ## Freezing -/

variable {kind : ResourceKind}

theorem freezeKind_self {balance expire increment : Int}
    (h : freezeKind s owner account kind none balance expire = .ok (s', account', increment)) :
    s' = s ∧ account' = setSelfFrozen account ⟨selfFrozen account kind + balance, expire⟩ kind := by
  simp only [freezeKind, checkAdd, bind_eq_ok, orFail_eq_ok, addI64_eq_some, pure_eq_ok, Prod.mk.injEq] at h
  obtain ⟨-, ⟨-, rfl⟩, rfl, rfl, -⟩ := h
  exact ⟨rfl, rfl⟩

/-- The receiver's account changes, but not its stake. -/
theorem freezeKind_delegated {balance expire increment : Int}
    (h : freezeKind s owner account kind (some receiver) balance expire = .ok (s', account', increment)) :
    (∀ a, s'.legacyStake a = s.legacyStake a) ∧ RecordMoved s s' (.v1 owner receiver) kind balance ∧
      { account' with balance := account.balance - balance } = lentStake account kind balance := by
  simp only [freezeKind, delegateResourceV1, target, checkAdd, bind_eq_ok, orFail_eq_ok,
    addI64_eq_some, pure_eq_ok, Prod.mk.injEq] at h
  obtain ⟨⟨t, inc⟩, ⟨-, ⟨-, rfl⟩, dest, hdest, -, ⟨-, rfl⟩, rfl, rfl⟩, -, ⟨-, rfl⟩, rfl, rfl, -⟩ := h
  refine ⟨Assoc.map_lookup_insert hdest rfl, recordMoved_written (fun k => ?_) (amount_putResource _ _ _), rfl⟩
  rw [← resourceOrNew_frozenBalance, get_set_add]

variable {chain : Chain} {c : FreezeBalanceContract} {result : ExecutionResult}

theorem freeze_move (hs : s.LegacyConsistent) (h : apply chain s (.freezeBalance c) = .ok (s', result)) :
    ∃ owner st st' delta, Market.decodeAddress c.ownerAddress = some owner ∧
      LegacyMove s s' owner st st' delta (if c.resource = TRON_POWER_TYPE then c.frozenBalance else 0) := by
  simp only [apply, validateFreezeBalance, executeFreezeBalance, requireOwner, account, checkSub,
    bind_eq_ok, require_eq_ok, orFail_eq_ok, subI64_eq_some] at h
  obtain ⟨-, ⟨owner, howner, -, hpos, account, hlook, -, henough, -, hcode, -, -, -, -, receiver, hreceiver, -, hvalid, -⟩,
    owner', howner', account', hlook', -, ⟨-, rfl⟩, receiver', hreceiver', hexec⟩ := h
  obtain rfl := some.inj (howner.symm.trans howner')
  obtain rfl := some.inj (hlook.symm.trans hlook')
  obtain rfl := Except.ok.inj (hreceiver.symm.trans hreceiver')
  have hsound : account.legacyStake.Sound := hs.sound owner _ (legacyStake_of_lookup hlook)
  have hfits := hsound.fits
  cases hkind : resourceKind? c.resource with
  | none =>
    have htp : c.resource = TRON_POWER_TYPE := by
      rw [TRON_POWER_TYPE]
      unfold resourceKind? at hkind
      split at hkind
      · cases hkind
      · split at hkind
        · cases hkind
        · omega
    simp only [hkind, pure_eq_ok, Prod.mk.injEq] at hexec
    obtain ⟨rfl, -⟩ := hexec
    have htotal : ({ account with balance := account.balance - c.frozenBalance } : Account).legacyStake.total =
        account.legacyStake.total - c.frozenBalance := by
      simp only [Account.legacyStake, total]
      omega
    have hbalance : 0 ≤ account.balance - c.frozenBalance := by omega
    have hsound' : ({ account with balance := account.balance - c.frozenBalance } : Account).legacyStake.Sound :=
      ⟨hbalance, hsound.frozen, hsound.energy, hsound.tronPower, hsound.delegated, by omega⟩
    rw [if_pos htp]
    exact ⟨owner, _, _, _, howner,
      legacyMove_self hs hlook (fun a => legacyStake_putAccount owner a _) htotal hsound' rfl rfl⟩
  | some kind =>
    have hnot : ¬ c.resource = TRON_POWER_TYPE := by
      rw [resourceKind?_eq_some] at hkind
      rw [hkind, TRON_POWER_TYPE]
      cases kind <;> decide
    simp only [hkind, bind_eq_ok, pure_eq_ok, Prod.mk.injEq] at hexec
    obtain ⟨⟨t, account', increment⟩, hfreeze, rfl, -⟩ := hexec
    rw [if_neg hnot]
    cases receiver with
    | none =>
      obtain ⟨rfl, rfl⟩ := freezeKind_self hfreeze
      obtain ⟨hsound', htotal⟩ := frozenSelf_spec hsound kind _ hpos.1.le henough
      refine ⟨owner, _, _, _, howner, legacyMove_self hs hlook (fun a => legacyStake_putAccount owner a _)
        (htotal.trans (Int.sub_zero _).symm) hsound' ?_ rfl⟩
      cases kind <;> rfl
    | some receiver =>
      obtain ⟨hstakes, hmoved, hlent⟩ := freezeKind_delegated hfreeze
      have hold := hs.records owner receiver kind
      rw [hlent]
      exact ⟨owner, _, _, _, howner, legacyMove_lent hs hlook hstakes (fun a => legacyStake_putAccount owner a _)
        ⟨hmoved.amount, hmoved.recorded⟩ (by omega) henough⟩

/-! ## Unfreezing -/

theorem settled_stakes (chain : Chain) (owner : Address) :
    (∀ a, (s.settled chain owner).legacyStake a = s.legacyStake a) ∧
      (s.settled chain owner).delegatedResource = s.delegatedResource := by
  obtain ⟨d, heq | ⟨account, n, hlook, heq⟩⟩ := settled_cases chain s owner
  · rw [heq]
    exact ⟨fun _ => rfl, rfl⟩
  · rw [heq]
    exact ⟨Assoc.map_lookup_insert hlook rfl, rfl⟩

theorem unfreezeOwn_spec {resource amount decrease : Int} (hsound : account.legacyStake.Sound)
    (h : unfreezeOwn chain account resource = .ok (account', amount, decrease)) :
    account'.legacyStake.Sound ∧ account'.legacyStake.total = account.legacyStake.total ∧
      account'.delegatedFrozenBalance = account.delegatedFrozenBalance := by
  have hbalance : 0 ≤ account.balance := hsound.balance
  have henergy : 0 ≤ frozenTotal account.frozenBalanceForEnergy.toList := frozenTotal_nonneg hsound.energy
  have hpower : 0 ≤ frozenTotal account.tronPower.toList := frozenTotal_nonneg hsound.tronPower
  have hsum : 0 ≤ account.delegatedFrozenBalance.sum := hsound.delegatedSum_nonneg
  have hfits := hsound.fits
  have htotal : account.legacyStake.total = account.balance + frozenTotal account.frozen +
    frozenTotal account.frozenBalanceForEnergy.toList + frozenTotal account.tronPower.toList +
    account.delegatedFrozenBalance.sum := rfl
  unfold unfreezeOwn at h
  simp only [bind_eq_ok, orFail_eq_ok] at h
  obtain ⟨kind, -, h⟩ := h
  cases kind with
  | bandwidth =>
    simp only [checkAdd, bind_eq_ok, orFail_eq_ok, addI64_eq_some, pure_eq_ok, Prod.mk.injEq] at h
    obtain ⟨-, ⟨-, rfl⟩, rfl, -⟩ := h
    have hfrozen : 0 + frozenTotal account.frozen ≤ 0x7fffffffffffffff := by omega
    have hpos : ∀ f ∈ account.frozen, 0 ≤ f.frozenBalance := hsound.frozen
    have hswept : 0 ≤ sweepFrozen chain.now account.frozen ∧ sweepFrozen chain.now account.frozen + frozenTotal _ =
      0 + frozenTotal account.frozen := foldl_swept hpos 0 le_rfl hfrozen
    refine ⟨⟨?_, fun f hf => hsound.frozen f (List.mem_of_mem_filter hf), hsound.energy, hsound.tronPower,
      hsound.delegated, ?_⟩, ?_, rfl⟩
    all_goals
      simp only [Account.legacyStake, total] at htotal hfits ⊢
      omega
  | energy =>
    simp only [checkAdd, bind_eq_ok, orFail_eq_ok, addI64_eq_some, pure_eq_ok, Prod.mk.injEq] at h
    obtain ⟨-, ⟨-, rfl⟩, rfl, -⟩ := h
    have hself : selfFrozen account .energy = frozenTotal account.frozenBalanceForEnergy.toList := by
      cases hfrozen : account.frozenBalanceForEnergy <;> simp [selfFrozen, hfrozen]
    refine ⟨⟨?_, hsound.frozen, by simp [Account.legacyStake], hsound.tronPower, hsound.delegated, ?_⟩, ?_, rfl⟩
    all_goals
      simp only [Account.legacyStake, total, toList_none, frozenTotal_nil] at htotal hfits ⊢
      omega

theorem LegacyMove.of_settled (h : LegacyMove (s.settled chain owner) s' owner st st' delta lost) :
    LegacyMove s s' owner st st' delta lost := by
  obtain ⟨hstakes, hrecords⟩ := settled_stakes (s := s) chain owner
  refine ⟨hstakes owner ▸ h.lookup, fun a => hstakes a ▸ h.stakes a, h.total, h.sound, h.delegated, h.records,
    fun a kind => ?_⟩
  rw [h.recorded, hrecords]

theorem State.LegacyConsistent.settled (hs : s.LegacyConsistent) (chain : Chain) (owner : Address) :
    (s.settled chain owner).LegacyConsistent := by
  obtain ⟨hstakes, hrecords⟩ := settled_stakes (s := s) chain owner
  refine ⟨fun a st h => hs.sound a st (hstakes a ▸ h), fun o r kind => ?_, fun a st kind h => ?_⟩
  · rw [amount, hrecords]
    exact hs.records o r kind
  · rw [hrecords]
    exact hs.delegated a st kind (hstakes a ▸ h)

theorem legacyStake_clearVotes (owner a : Address) (account : Account) :
    (s.clearVotes owner account).legacyStake a = if a = owner then some account.legacyStake else s.legacyStake a :=
  legacyStake_putAccount owner a _

theorem legacyStake_storeResource (key : ResourceKey) (row : DelegatedResource) (a : Address) :
    (s.storeResource key row).legacyStake a = s.legacyStake a := by
  unfold storeResource
  split <;> rfl

/-- What is delegated to a receiver comes back whole. -/
theorem unfreezeDelegated_spec (hs : s.LegacyConsistent) {resource amount decrease : Int}
    (hlook : s.accounts.lookup owner = some account)
    (h : unfreezeDelegated chain s owner receiver account resource = .ok (s', account', amount, decrease)) :
    ∃ kind, amount = s.amount (.v1 owner receiver) kind ∧ (∀ a, s'.legacyStake a = s.legacyStake a) ∧
      RecordMoved s s' (.v1 owner receiver) kind (-amount) ∧
      account' = lentStake account kind (-amount) := by
  simp only [unfreezeDelegated, checkAdd, bind_eq_ok, orFail_eq_ok, addI64_eq_some, pure_eq_ok, Prod.mk.injEq] at h
  obtain ⟨row, hrow, kind, -, ⟨t, decrease'⟩, hreceive, -, ⟨-, rfl⟩, rfl, rfl, rfl, -⟩ := h
  obtain ⟨⟨accounts, rfl⟩, hstakes⟩ := unfreezeReceiver_frame (f := Account.legacyStake) (fun _ _ => rfl) hreceive
  have hread : ∀ k, s.amount (.v1 owner receiver) k = row.frozenBalance.get k := by
    intro k
    rw [amount, hrow]
    rfl
  have hle := hs.amount_le hlook receiver kind
  have hnonneg := hs.records owner receiver kind
  have hsound : account.legacyStake.Sound := hs.sound owner _ (legacyStake_of_lookup hlook)
  have hfits : account.delegatedFrozenBalance.get kind ≤ _ := hsound.delegated_le kind
  rw [hread] at hle hnonneg
  refine ⟨kind, (hread kind).symm, fun a => ?_, ?_, ?_⟩
  · rw [legacyStake_storeResource]
    exact hstakes a
  · refine recordMoved_written (fun k => ?_) (amount_storeResource _ _ _)
    rw [hread, get_set]
    split
    · next hk =>
      rw [hk]
      omega
    · omega
  · rw [satI64_of_fits ⟨by omega, by omega⟩, lentStake, Int.sub_eq_add_neg, Int.sub_neg]

theorem unfreeze_move (hs : s.LegacyConsistent) {c : UnfreezeBalanceContract}
    (h : apply chain s (.unfreezeBalance c) = .ok (s', result)) :
    ∃ owner st st' delta, LegacyMove s s' owner st st' delta 0 := by
  simp only [apply, executeUnfreezeBalance, requireOwner, account, bind_eq_ok, orFail_eq_ok] at h
  obtain ⟨-, -, owner, howner, account, hlook, receiver, hreceiver, hexec⟩ := h
  have ht := hs.settled chain owner
  have hsound : account.legacyStake.Sound := ht.sound owner _ (legacyStake_of_lookup hlook)
  cases receiver with
  | none =>
    simp only [bind_eq_ok, map_eq_ok, orFail_eq_ok, pure_eq_ok, Prod.mk.injEq] at hexec
    obtain ⟨-, ⟨⟨account', amount, decrease⟩, hown, rfl⟩, kind, -, rfl, -⟩ := hexec
    obtain ⟨hsound', htotal, hdelegated⟩ := unfreezeOwn_spec hsound hown
    exact ⟨owner, _, _, _, .of_settled (legacyMove_self ht hlook (fun a => legacyStake_clearVotes owner a _)
      (htotal.trans (Int.sub_zero _).symm) hsound' hdelegated rfl)⟩
  | some receiver =>
    simp only [bind_eq_ok, orFail_eq_ok, pure_eq_ok, Prod.mk.injEq] at hexec
    obtain ⟨⟨t, account', amount, decrease⟩, hdelegated, kind', -, rfl, -⟩ := hexec
    obtain ⟨kind, rfl, hstakes, hmoved, rfl⟩ := unfreezeDelegated_spec ht hlook hdelegated
    have hnonneg := ht.records owner receiver kind
    have hbalance : 0 ≤ account.balance := hsound.balance
    exact ⟨owner, _, _, _, .of_settled (legacyMove_lent ht hlook hstakes (fun a => legacyStake_clearVotes owner a _)
      ⟨hmoved.amount, hmoved.recorded⟩ (by omega) (by omega))⟩

/-! ## Runs -/

variable (a : Address)

/-- What a transaction, if it is executed, takes from an account without recording it. -/
def lostBy (s : State) (act : Chain × Tx) : Int :=
  match act.2, apply act.1 s act.2 with
  | .freezeBalance c, .ok _ =>
    if c.resource = TRON_POWER_TYPE ∧ Market.decodeAddress c.ownerAddress = some a then c.frozenBalance else 0
  | _, _ => 0

def State.legacyTotal (s : State) (a : Address) : Option Int := (s.legacyStake a).map (·.total)

/-- The transaction is not a freeze for `TRON_POWER` that passes validation. -/
def RecordsStake (s : State) (act : Chain × Tx) : Prop :=
  match act.2 with
  | .freezeBalance c => c.resource = TRON_POWER_TYPE → validateFreezeBalance act.1 s c ≠ .ok ()
  | _ => True

theorem LegacyMove.totals (h : LegacyMove s s' owner st st' delta lost) (a : Address) :
    s'.legacyTotal a = (s.legacyTotal a).map (· - if a = owner then lost else 0) := by
  rw [legacyTotal, legacyTotal, h.stakes]
  split
  · next ha => rw [ha, h.lookup, map_some, map_some, map_some, h.total]
  · cases s.legacyStake a <;> simp

theorem legacy_of_apply (hs : s.LegacyConsistent) {tx : Tx} (htx : tx.isLegacy)
    (h : apply chain s tx = .ok (s', result)) :
    s'.LegacyConsistent ∧ ∀ a, s'.legacyTotal a = (s.legacyTotal a).map (· - lostBy a s (chain, tx)) := by
  cases tx with
  | freezeBalance c =>
    obtain ⟨owner, st, st', delta, howner, hmove⟩ := freeze_move hs h
    refine ⟨hmove.consistent hs, fun a => ?_⟩
    rw [hmove.totals]
    simp only [lostBy, h, howner, some.injEq]
    by_cases ha : a = owner
    · subst ha
      by_cases htp : c.resource = TRON_POWER_TYPE <;> simp [htp]
    · simp [ha, Ne.symm ha]
  | unfreezeBalance c =>
    obtain ⟨owner, st, st', delta, hmove⟩ := unfreeze_move hs h
    refine ⟨hmove.consistent hs, fun a => ?_⟩
    rw [hmove.totals]
    simp [lostBy]
  | _ => cases htx

theorem legacy_step (hs : s.LegacyConsistent) {act : Chain × Tx} (htx : act.2.isLegacy) :
    (step s act).LegacyConsistent ∧ ∀ a, (step s act).legacyTotal a = (s.legacyTotal a).map (· - lostBy a s act) := by
  unfold step
  split
  · next s' result happly => exact legacy_of_apply hs htx happly
  · next e happly =>
    refine ⟨hs, fun a => ?_⟩
    have hnone : lostBy a s act = 0 := by
      obtain ⟨chain, tx⟩ := act
      cases tx <;> simp only [lostBy, happly]
    simp [hnone]

/-- **A run loses exactly what freezes for `TRON_POWER` take.** -/
theorem legacy_run {s₀ : State} (h₀ : s₀.LegacyConsistent) {acts : List (Chain × Tx)}
    (hacts : ∀ a ∈ acts, a.2.isLegacy) :
    (after step s₀ acts).LegacyConsistent ∧ ∀ a, (after step s₀ acts).legacyTotal a =
      (s₀.legacyTotal a).map (· - tally step (lostBy a) s₀ acts) := by
  induction acts using List.reverseRecOn with
  | nil => exact ⟨h₀, fun a => by simp [after, tally]⟩
  | append_singleton acts act ih =>
    obtain ⟨hs, htotals⟩ := ih fun b hb => hacts b (List.mem_append_left _ hb)
    obtain ⟨hs', htotals'⟩ := legacy_step hs (hacts act (by simp))
    rw [History.after_concat]
    refine ⟨hs', fun a => ?_⟩
    rw [htotals', htotals, History.tally_concat, map_map]
    congr 1
    funext n
    simp only [Function.comp_apply]
    omega

theorem validateFreezeBalance_ok (h : validateFreezeBalance chain s c = .ok ()) :
    ∃ owner account receiver, Market.decodeAddress c.ownerAddress = some owner ∧ 0 < c.frozenBalance ∧
      s.accounts.lookup owner = some account ∧ c.frozenBalance ≤ account.balance ∧
      receiverOf chain c.receiverAddress = .ok receiver := by
  simp only [validateFreezeBalance, requireOwner, account, bind_eq_ok, require_eq_ok, orFail_eq_ok] at h
  obtain ⟨owner, howner, -, hpos, account, hlook, -, henough, -, -, -, -, -, -, receiver, hreceiver, -⟩ := h
  exact ⟨owner, account, receiver, howner, hpos.1, hlook, henough, hreceiver⟩

theorem lostBy_cases (s : State) (act : Chain × Tx) :
    lostBy a s act = 0 ∨ ∃ c, act.2 = .freezeBalance c ∧ c.resource = TRON_POWER_TYPE ∧
      validateFreezeBalance act.1 s c = .ok () ∧ lostBy a s act = c.frozenBalance := by
  obtain ⟨chain, tx⟩ := act
  cases tx with
  | freezeBalance c =>
    cases happly : apply chain s (.freezeBalance c) with
    | error e => exact .inl (by simp only [lostBy, happly])
    | ok out =>
      have hdone := happly
      simp only [apply, bind_eq_ok] at hdone
      obtain ⟨⟨⟩, hvalid, -⟩ := hdone
      by_cases hlost : c.resource = TRON_POWER_TYPE ∧ Market.decodeAddress c.ownerAddress = some a
      · exact .inr ⟨c, rfl, hlost.1, hvalid, by simp only [lostBy, happly, hlost, and_self, if_true]⟩
      · exact .inl (by simp only [lostBy, happly, hlost, if_false])
  | _ => exact .inl (by simp only [lostBy])

theorem lostBy_nonneg (s : State) (act : Chain × Tx) : 0 ≤ lostBy a s act := by
  rcases lostBy_cases a s act with hzero | ⟨c, -, -, hvalid, heq⟩
  · omega
  · obtain ⟨-, -, -, -, hpos, -⟩ := validateFreezeBalance_ok hvalid
    omega

/-- A freeze for `TRON_POWER` that passes validation is executed. -/
theorem lostBy_pos (hs : s.LegacyConsistent) (htp : c.resource = TRON_POWER_TYPE)
    (hvalid : validateFreezeBalance chain s c = .ok ()) :
    ∃ owner account, s.accounts.lookup owner = some account ∧ 0 < lostBy owner s (chain, .freezeBalance c) := by
  obtain ⟨owner, account, receiver, howner, hpos, hlook, henough, hreceiver⟩ := validateFreezeBalance_ok hvalid
  have hsound : account.legacyStake.Sound := hs.sound owner _ (legacyStake_of_lookup hlook)
  have hbalance : account.balance ≤ 0x7fffffffffffffff := hsound.balance_le
  have hkind : resourceKind? c.resource = none := by
    rw [htp]
    rfl
  have happly : apply chain s (.freezeBalance c) =
      .ok (s.putAccount owner { account with balance := account.balance - c.frozenBalance }, .default) := by
    simp only [apply, executeFreezeBalance, requireOwner, State.account, checkSub, hkind, bind_eq_ok,
      orFail_eq_ok, subI64_eq_some, pure_eq_ok]
    exact ⟨(), hvalid, owner, howner, account, hlook, _, ⟨⟨by omega, by omega⟩, rfl⟩, receiver, hreceiver, rfl⟩
  refine ⟨owner, account, hlook, ?_⟩
  simp only [lostBy, happly, htp, howner, and_self, if_true]
  exact hpos

end Moves

/-- **Legacy staking conserves every account's total exactly if no freeze for `TRON_POWER` passes.** -/
theorem legacy_conserves {s₀ : State} (h₀ : s₀.LegacyConsistent) {acts : List (Chain × Tx)}
    (hacts : ∀ a ∈ acts, a.2.isLegacy) :
    let s := after step s₀ acts
    ((∀ a, s.legacyTotal a = s₀.legacyTotal a) ∧ ∀ owner account kind, s.accounts.lookup owner = some account →
        account.delegatedFrozenBalance.get kind = recorded (·.isV1From owner) kind s.delegatedResource) ↔
    Each step s₀ RecordsStake acts := by
  obtain ⟨hconsistent, htotals⟩ := legacy_run h₀ hacts
  constructor
  · rintro ⟨hsame, -⟩ earlier ⟨chain, tx⟩ later heq
    cases tx with
    | freezeBalance c =>
      intro htp hvalid
      obtain ⟨hs, hearlier⟩ := legacy_run h₀ fun b hb => hacts b (heq ▸ List.mem_append_left _ hb)
      obtain ⟨owner, account, hlook, hlost⟩ := lostBy_pos hs htp hvalid
      dsimp only at hlost
      -- the owner had its account from the start, and its total has shrunk
      have hthen := hearlier owner
      have hend := (hsame owner).symm.trans (htotals owner)
      have hle := History.le_tally step s₀ (lostBy_nonneg owner) earlier (chain, .freezeBalance c) later
      rw [legacyTotal, legacyStake, hlook] at hthen
      rw [← heq] at hle
      cases hstart : s₀.legacyTotal owner with
      | none =>
        rw [hstart] at hthen
        cases hthen
      | some n =>
        rw [hstart, map_some, some.injEq] at hend
        omega
    | _ => trivial
  · intro heach
    refine ⟨fun a => ?_, fun owner account kind hlook => ?_⟩
    · have hzero : tally step (lostBy a) s₀ acts = 0 := by
        refine History.tally_eq_zero fun earlier act later heq => ?_
        have hrecords := heach earlier act later heq
        rcases lostBy_cases a (after step s₀ earlier) act with hzero | ⟨c, hact, htp, hvalid, -⟩
        · exact hzero
        · rw [RecordsStake, hact] at hrecords
          exact absurd hvalid (hrecords htp)
      rw [htotals, hzero]
      simp
    · exact hconsistent.delegated owner account.legacyStake kind (legacyStake_of_lookup hlook)

namespace Sample

theorem legacyConsistent_unstaked {balance : Int} (hpos : 0 ≤ balance) (hfits : balance ≤ 0x7fffffffffffffff) :
    (unstaked balance).LegacyConsistent := by
  have hstake : ∀ {a st}, (unstaked balance).legacyStake a = some st →
      st = ⟨balance, [], none, none, .zero⟩ ∨ st = ⟨0, [], none, none, .zero⟩ := by
    intro a st h
    obtain ⟨account, hlook, rfl⟩ := map_eq_some_iff.1 h
    rcases lookup_unstaked hlook with rfl | rfl
    · exact .inl rfl
    · exact .inr rfl
  have hsound : ∀ b : Int, 0 ≤ b → b ≤ 0x7fffffffffffffff → Sound ⟨b, [], none, none, .zero⟩ :=
    fun b hpos hfits => ⟨hpos, by simp, by simp, by simp, by simp, by simpa [total, sum, zero]⟩
  refine ⟨fun a st h => ?_, fun o r kind => ?_, fun a st kind h => ?_⟩
  · rcases hstake h with rfl | rfl
    · exact hsound balance hpos hfits
    · exact hsound 0 le_rfl (by decide)
  · cases kind <;> exact le_rfl
  · rcases hstake h with rfl | rfl <;> cases kind <;> rfl

/-- A chain on which the first form of staking is still open. -/
def legacyChain (now : Int) : Chain := { chainAt now with unfreezeDelayDays := none }

/-- 2 TRX are frozen for bandwidth, 3 for the receiver's energy, and the first are unfrozen. -/
def frozenThenUnfrozen : List (Chain × Tx) :=
  [(legacyChain 0, .freezeBalance ⟨owner.val, 2000000, 3, 0, []⟩),
   (legacyChain 3000, .freezeBalance ⟨owner.val, 3000000, 3, 1, receiver.val⟩),
   (legacyChain 259200000, .unfreezeBalance ⟨owner.val, 0, []⟩)]

theorem legacy_conserves_sample :
    (after step (unstaked 10000000) frozenThenUnfrozen).legacyTotal owner = some 10000000 ∧
      (after step (unstaked 10000000) frozenThenUnfrozen).amount (.v1 owner receiver) .energy = 3000000 := by
  have hs : (unstaked 10000000).LegacyConsistent := legacyConsistent_unstaked (by decide) (by decide)
  have hlegacy : ∀ a ∈ frozenThenUnfrozen, a.2.isLegacy := by decide
  have hrecords : Each step (unstaked 10000000) RecordsStake frozenThenUnfrozen :=
    .cons (fun h => by cases h) (.cons (fun h => by cases h) (.cons trivial (History.each_nil _)))
  have htotal := ((legacy_conserves hs hlegacy).2 hrecords).1 owner
  refine ⟨htotal.trans (by decide), by decide +kernel⟩

end Sample

namespace TronPower

open TronGoblin.Stake.Sample

def frozenForTronPower : List (Chain × Tx) := [(legacyChain 0, .freezeBalance ⟨owner.val, 4000000, 3, 2, []⟩)]

/-- **A freeze for `TRON_POWER` loses the balance.** -/
theorem freeze_loses_balance :
    (unstaked 10000000).LegacyConsistent ∧ (∀ a ∈ frozenForTronPower, a.2.isLegacy) ∧
      (unstaked 10000000).legacyTotal owner = some 10000000 ∧
      (after step (unstaked 10000000) frozenForTronPower).legacyTotal owner = some 6000000 :=
  ⟨legacyConsistent_unstaked (by decide) (by decide), by decide, by decide, by decide +kernel⟩

end TronPower

end TronGoblin.Stake
