import Mathlib.Algebra.Order.BigOperators.Group.List
import TronGoblin.Actuator.StakeTx

/-!
# What an account holds

The TRX of an account that staking moves around, and the parts of the staking operations that change one
account only.

* `Account.holdings`: balance, frozen, pending and delegated out; `Account.Sound`: no part is negative and
  the sum fits an `i64`.
* `addToSlot_spec`, `takeFromSlot_spec`: the slots of an account.
* `foldl_swept`: a sweep over pending entries: what is swept and what is left are the whole.
* `Account.Shifted`: the account after its holdings have been shifted; `frozenAccount_spec` and its kin.
* `settled_cases`: a settlement changes nothing but an allowance and the marks of the voter.
-/

namespace TronGoblin.Stake

open Checked List Option Account
open BigEndian (wrapI64)
open Resource (ResourceKind)

/-! ## Holdings -/

def held (slots : List FreezeV2) (resource : Int) : Int :=
  ((slots.filter fun f => f.resource = resource).map (·.amount)).sum

def frozenSum (slots : List FreezeV2) : Int := (slots.map (·.amount)).sum

def pendingSum (entries : List UnFreezeV2) : Int := (entries.map (·.unfreezeAmount)).sum

namespace Account

/-- The balance, and what is frozen, pending and delegated out. -/
def holdings (account : Account) : Int :=
  account.balance + frozenSum account.frozenV2 + pendingSum account.unfrozenV2 + account.delegatedFrozenV2Balance.sum

/-- No part of the holdings is negative, and their sum does not overflow. -/
structure Sound (account : Account) : Prop where
  balance : 0 ≤ account.balance
  /-- There is one slot for each resource. -/
  slots : (account.frozenV2.map (·.resource)).Nodup
  frozen : ∀ f ∈ account.frozenV2, 0 ≤ f.amount
  pending : ∀ u ∈ account.unfrozenV2, 0 ≤ u.unfreezeAmount
  delegated : ∀ kind, 0 ≤ account.delegatedFrozenV2Balance.get kind
  fits : account.holdings ≤ 0x7fffffffffffffff

end Account

/-! ## Slots -/

@[simp] theorem held_nil (r : Int) : held [] r = 0 := rfl

variable (f : FreezeV2)

theorem held_cons (slots : List FreezeV2) (r : Int) :
    held (f :: slots) r = (if f.resource = r then f.amount else 0) + held slots r := by
  by_cases h : f.resource = r <;> simp [held, h]

@[simp] theorem frozenSum_nil : frozenSum [] = 0 := rfl

@[simp] theorem frozenSum_cons (slots : List FreezeV2) :
    frozenSum (f :: slots) = f.amount + frozenSum slots := sum_cons

@[simp] theorem pendingSum_nil : pendingSum [] = 0 := rfl

@[simp] theorem pendingSum_cons (u : UnFreezeV2) (entries : List UnFreezeV2) :
    pendingSum (u :: entries) = u.unfreezeAmount + pendingSum entries := sum_cons

theorem slotAmount_cons (slots : List FreezeV2) (r : Int) :
    slotAmount (f :: slots) r = if f.resource = r then some f.amount else slotAmount slots r := by
  by_cases h : f.resource = r <;> simp [slotAmount, h]

variable {slots : List FreezeV2}

theorem held_nonneg (h : ∀ f ∈ slots, 0 ≤ f.amount) (r : Int) : 0 ≤ held slots r ∧ held slots r ≤ frozenSum slots := by
  induction slots with
  | nil => simp
  | cons f slots ih =>
    have hf := h f mem_cons_self
    obtain ⟨hlo, hhi⟩ := ih fun g hg => h g (mem_cons_of_mem f hg)
    rw [held_cons, frozenSum_cons]
    split <;> omega

variable {entries : List UnFreezeV2}

theorem sum_map_nonneg {α : Type} {amount : α → Int} {l : List α} (h : ∀ a ∈ l, 0 ≤ amount a) :
    0 ≤ (l.map amount).sum :=
  List.sum_nonneg (by simpa using h)

theorem pendingSum_nonneg (h : ∀ u ∈ entries, 0 ≤ u.unfreezeAmount) : 0 ≤ pendingSum entries := sum_map_nonneg h

variable {r : Int}

theorem slotAmount_eq_none (h : slotAmount slots r = none) : r ∉ slots.map (·.resource) := by
  simp only [slotAmount, map_eq_none_iff, List.find?_eq_none, decide_eq_true_eq] at h
  simpa using h

theorem held_of_slotAmount_none (h : slotAmount slots r = none) : held slots r = 0 := by
  induction slots with
  | nil => rfl
  | cons f slots ih =>
    rw [slotAmount_cons] at h
    split at h
    · cases h
    · next hne =>
      rw [held_cons, if_neg hne, ih h]
      rfl

variable {r amount : Int}

theorem held_of_slotAmount (hnodup : (slots.map (·.resource)).Nodup) (h : slotAmount slots r = some amount) :
    held slots r = amount := by
  induction slots with
  | nil => cases h
  | cons f slots ih =>
    rw [map_cons, nodup_cons] at hnodup
    rw [slotAmount_cons] at h
    rw [held_cons]
    split at h
    · next heq =>
      obtain rfl := some.inj h
      have hrest : slotAmount slots r = none := by
        rw [slotAmount, map_eq_none_iff, List.find?_eq_none]
        intro g hg hres
        refine hnodup.1 (mem_map.2 ⟨g, hg, ?_⟩)
        rw [heq]
        exact of_decide_eq_true hres
      rw [if_pos heq, held_of_slotAmount_none hrest]
      omega
    · next hne =>
      rw [if_neg hne, ih hnodup.2 h]
      omega

theorem setSlot_spec (h : slotAmount slots r = some amount) (x : Int) :
    (∀ r', held (setSlot r x slots) r' = held slots r' + if r' = r then x - amount else 0) ∧
      frozenSum (setSlot r x slots) = frozenSum slots + (x - amount) ∧
      (setSlot r x slots).map (·.resource) = slots.map (·.resource) ∧
      ∀ f ∈ setSlot r x slots, f ∈ slots ∨ f.amount = x := by
  induction slots with
  | nil => cases h
  | cons f slots ih =>
    rw [slotAmount_cons] at h
    split at h
    · next heq =>
      obtain rfl := some.inj h
      rw [setSlot, if_pos heq]
      refine ⟨fun r' => ?_, ?_, by simp, ?_⟩
      · rw [held_cons, held_cons]
        dsimp only
        by_cases hr : f.resource = r'
        · omega
        · omega
      · rw [frozenSum_cons, frozenSum_cons]
        dsimp only
        omega
      · intro g hg
        rcases mem_cons.1 hg with rfl | hg
        · exact .inr rfl
        · exact .inl (mem_cons_of_mem f hg)
    · next hne =>
      obtain ⟨hheld, hsum, hres, hmem⟩ := ih h
      rw [setSlot, if_neg hne]
      refine ⟨fun r' => ?_, ?_, ?_, ?_⟩
      · rw [held_cons, held_cons, hheld r']
        omega
      · rw [frozenSum_cons, frozenSum_cons, hsum]
        omega
      · rw [map_cons, map_cons, hres]
      · intro g hg
        rcases mem_cons.1 hg with rfl | hg
        · exact .inl mem_cons_self
        · rcases hmem g hg with hg | hg
          · exact .inl (mem_cons_of_mem f hg)
          · exact .inr hg

/-- `slots'` are the slots after `delta` has gone to the resource. -/
structure SlotsMoved (slots slots' : List FreezeV2) (resource delta : Int) : Prop where
  held : ∀ r, held slots' r = held slots r + if r = resource then delta else 0
  sum : frozenSum slots' = frozenSum slots + delta
  nodup : (slots.map (·.resource)).Nodup → (slots'.map (·.resource)).Nodup

theorem addToSlot_spec {slots slots' : List FreezeV2} (h : addToSlot slots r amount = .ok slots') :
    SlotsMoved slots slots' r amount ∧ (0 ≤ amount → (∀ f ∈ slots, 0 ≤ f.amount) → ∀ f ∈ slots', 0 ≤ f.amount) := by
  rw [addToSlot] at h
  split at h
  · next had hslot =>
    simp only [map_eq_ok, checkAdd, orFail_eq_ok, addI64_eq_some] at h
    obtain ⟨sum, ⟨-, rfl⟩, rfl⟩ := h
    obtain ⟨hheld, hsum, hres, hmem⟩ := setSlot_spec hslot (had + amount)
    refine ⟨⟨fun r' => ?_, ?_, fun hnodup => by rwa [hres]⟩, fun hpos hslots f hf => ?_⟩
    · rw [hheld r', show had + amount - had = amount by omega]
    · omega
    · have hhad : 0 ≤ had := by
        obtain ⟨g, hg, rfl⟩ := map_eq_some_iff.1 hslot
        exact hslots g (mem_of_find?_eq_some hg)
      rcases hmem f hf with hf | hf
      · exact hslots f hf
      · omega
  · next hslot =>
    obtain rfl := Except.ok.inj h
    refine ⟨⟨fun r' => ?_, ?_, fun hnodup => ?_⟩, fun hpos hslots f hf => ?_⟩
    · by_cases hr : r = r'
      · subst hr
        simp [Stake.held]
      · simp [Stake.held, hr, Ne.symm hr]
    · simp [frozenSum]
    · rw [map_append, nodup_append]
      refine ⟨hnodup, by simp, fun a ha b hb => ?_⟩
      rintro rfl
      have hb' : a = r := by simpa using hb
      exact slotAmount_eq_none hslot (hb' ▸ ha)
    · rcases mem_append.1 hf with hf | hf
      · exact hslots f hf
      · obtain rfl := mem_singleton.1 hf
        exact hpos

theorem takeFromSlot_spec {slots slots' : List FreezeV2} {r amount had : Int} (hslot : slotAmount slots r = some had)
    (h : takeFromSlot slots r amount = .ok slots') :
    SlotsMoved slots slots' r (-amount) ∧
      (amount ≤ had → (∀ f ∈ slots, 0 ≤ f.amount) → ∀ f ∈ slots', 0 ≤ f.amount) := by
  rw [takeFromSlot, hslot] at h
  simp only [map_eq_ok, checkSub, orFail_eq_ok, subI64_eq_some] at h
  obtain ⟨rest, ⟨-, rfl⟩, rfl⟩ := h
  obtain ⟨hheld, hsum, hres, hmem⟩ := setSlot_spec hslot (had - amount)
  refine ⟨⟨fun r' => ?_, ?_, fun hnodup => by rwa [hres]⟩, fun hle hslots f hf => ?_⟩
  · rw [hheld r', show had - amount - had = -amount by omega]
  · omega
  · rcases hmem f hf with hf | hf
    · exact hslots f hf
    · omega

/-! ## Pending entries -/

theorem pendingSum_append (l l' : List UnFreezeV2) : pendingSum (l ++ l') = pendingSum l + pendingSum l' := by
  simp [pendingSum]

theorem foldl_swept {α : Type} {p : α → Prop} [DecidablePred p] {amount : α → Int} {l : List α}
    (h : ∀ a ∈ l, 0 ≤ amount a) (acc : Int) (hacc : 0 ≤ acc) (hfits : acc + (l.map amount).sum ≤ 0x7fffffffffffffff) :
    let swept := l.foldl (fun acc a => if p a then satI64 (acc + amount a) else acc) acc
    acc ≤ swept ∧ swept + ((l.filter fun a => ¬ p a).map amount).sum = acc + (l.map amount).sum := by
  induction l generalizing acc with
  | nil => simp
  | cons a l ih =>
    have ha := h a mem_cons_self
    have htail := fun b hb => h b (mem_cons_of_mem a hb)
    have hrest := sum_map_nonneg htail
    rw [map_cons, sum_cons] at hfits ⊢
    dsimp only
    rw [foldl_cons]
    by_cases hp : p a
    · obtain ⟨hle, hsum⟩ := ih htail (acc + amount a) (by omega) (by omega)
      rw [if_pos hp, satI64_of_fits ⟨by omega, by omega⟩, filter_cons_of_neg (by simpa using hp), hsum]
      exact ⟨by omega, by omega⟩
    · obtain ⟨hle, hsum⟩ := ih htail acc hacc (by omega)
      rw [if_neg hp, filter_cons_of_pos (by simpa using hp), map_cons, sum_cons]
      exact ⟨hle, by omega⟩

variable {now : Int}

theorem mem_unexpired {u : UnFreezeV2} (h : u ∈ unexpired now entries) : u ∈ entries :=
  (mem_filter.1 h).1

/-! ## Sound accounts -/

def code : ResourceKind → Int
  | .bandwidth => 0
  | .energy => 1

theorem resourceKind?_eq_some {kind : ResourceKind} : resourceKind? r = some kind ↔ r = code kind := by
  unfold resourceKind?
  cases kind <;> split_ifs <;> simp_all [code]

@[simp] theorem resourceKind_code (kind : ResourceKind) : resourceKind (code kind) = kind := by
  cases kind <;> rfl

theorem code_injective : Function.Injective code := by
  intro kind kind' h
  cases kind <;> cases kind' <;> first | rfl | cases h

@[simp] theorem delegatedV2_code (account : Account) (kind : ResourceKind) :
    delegatedV2 account (code kind) = account.delegatedFrozenV2Balance.get kind := by
  rw [delegatedV2, resourceKind?_eq_some.2 rfl]

namespace Account

variable {account : Account}

theorem Sound.sum_nonneg (h : account.Sound) : 0 ≤ account.delegatedFrozenV2Balance.sum := by
  have hbandwidth := h.delegated .bandwidth
  have henergy := h.delegated .energy
  simp only [PerKind.get] at hbandwidth henergy
  rw [PerKind.sum]
  omega

theorem Sound.get_le_sum (h : account.Sound) (kind : ResourceKind) :
    account.delegatedFrozenV2Balance.get kind ≤ account.delegatedFrozenV2Balance.sum := by
  have hbandwidth := h.delegated .bandwidth
  have henergy := h.delegated .energy
  simp only [PerKind.get] at hbandwidth henergy
  cases kind <;> simp only [PerKind.sum, PerKind.get] <;> omega

/-- What of a resource is frozen or delegated out. -/
def basis (account : Account) (kind : ResourceKind) : Int :=
  held account.frozenV2 (code kind) + account.delegatedFrozenV2Balance.get kind

/-- What the account adds to the total weight of a resource. -/
def weight (account : Account) (kind : ResourceKind) : Int := account.basis kind / TRX_PRECISION

section

variable (h : account.Sound)
include h

variable (kind : ResourceKind)
include kind

theorem Sound.basis_nonneg : 0 ≤ account.basis kind := by
  have hheld := held_nonneg h.frozen (code kind)
  have hdelegated := h.delegated kind
  rw [basis]
  omega

theorem Sound.basis_le : account.basis kind + pendingSum account.unfrozenV2 + account.balance ≤ account.holdings := by
  have hheld := held_nonneg h.frozen (code kind)
  have hdelegated := h.get_le_sum kind
  rw [basis, holdings]
  omega

theorem Sound.basis_fits : FitsI64 (account.basis kind) := by
  have hpos := h.basis_nonneg kind
  have hbasis := h.basis_le kind
  have hpending := pendingSum_nonneg h.pending
  have hbalance := h.balance
  have hfits := h.fits
  constructor <;> omega

end

theorem basis_of_slotsMoved {account' : Account} {delta : Int} {kind : ResourceKind}
    (hslots : SlotsMoved account.frozenV2 account'.frozenV2 (code kind) delta)
    (hdelegated : account'.delegatedFrozenV2Balance = account.delegatedFrozenV2Balance) :
    account'.basis kind = account.basis kind + delta := by
  rw [basis, basis, hslots.held, if_pos rfl, hdelegated]
  omega

variable (h : account.Sound)
include h

theorem Sound.expiredAmount_add (now : Int) : 0 ≤ expiredAmount now account.unfrozenV2 ∧
    expiredAmount now account.unfrozenV2 + pendingSum (unexpired now account.unfrozenV2) =
      0 + pendingSum account.unfrozenV2 := by
  have hbasis := h.basis_le .bandwidth
  have hpos := h.basis_nonneg .bandwidth
  have hbalance := h.balance
  have hfits := h.fits
  exact foldl_swept h.pending 0 le_rfl (by rw [← pendingSum]; omega)

variable (kind : ResourceKind)
include kind

theorem Sound.weight_nonneg : 0 ≤ account.weight kind :=
  Int.ediv_nonneg (h.basis_nonneg kind) (by decide)

theorem Sound.weight_le : account.weight kind ≤ account.holdings / TRX_PRECISION := by
  have hpending := pendingSum_nonneg h.pending
  have hbalance := h.balance
  have hbasis := h.basis_le kind
  exact Int.ediv_le_ediv (by decide) (by omega)

theorem Sound.frozenV2WithDelegated_eq : frozenV2WithDelegated account (code kind) = account.basis kind := by
  have hheld := held_nonneg h.frozen (code kind)
  have hbasis := h.basis_le kind
  have hdelegated := h.delegated kind
  have hpending := pendingSum_nonneg h.pending
  have hbalance := h.balance
  have hfits := h.fits
  rw [basis] at hbasis
  have hsum : sumI64 ((account.frozenV2.filter fun f => f.resource = code kind).map (·.amount)) =
      held account.frozenV2 (code kind) := wrapI64_of_fits (show FitsI64 (held _ _) from ⟨by omega, by omega⟩)
  rw [frozenV2WithDelegated, hsum, delegatedV2_code, satI64_of_fits ⟨by omega, by omega⟩, basis]

end Account

theorem weightDelta_eq {old new : Int} (hold : 0 ≤ old) (hnew : 0 ≤ new) :
    weightDelta old new = new / TRX_PRECISION - old / TRX_PRECISION := by
  rw [weightDelta, Int.tdiv_eq_ediv_of_nonneg hold, Int.tdiv_eq_ediv_of_nonneg hnew]

/-! ## Shifts within an account -/

/-- The holdings of the account are shifted, and none of its delegations changes. -/
structure Account.Shifted (account account' : Account) : Prop where
  sound : account'.Sound
  holdings : account'.holdings = account.holdings
  delegated : account'.delegatedFrozenV2Balance = account.delegatedFrozenV2Balance
  acquired : account'.acquiredDelegatedFrozenV2Balance = account.acquiredDelegatedFrozenV2Balance

variable {account account' : Account}

theorem Account.Shifted.withVotes (h : account.Shifted account') (votes : List Vote) (n : Int) :
    account.Shifted { account' with votes := votes, allowance := n } :=
  ⟨⟨h.sound.balance, h.sound.slots, h.sound.frozen, h.sound.pending, h.sound.delegated, h.sound.fits⟩, h.holdings,
    h.delegated, h.acquired⟩

variable {account : Account}

theorem Account.Sound.shifted (h : account.Sound) : account.Shifted account := ⟨h, rfl, rfl, rfl⟩

theorem frozenAccount_spec {c : FreezeBalanceV2Contract} (hsound : account.Sound) (hpos : 0 < c.frozenBalance)
    (hbalance : c.frozenBalance ≤ account.balance) (h : frozenAccount account c = .ok account') :
    account.Shifted account' ∧ SlotsMoved account.frozenV2 account'.frozenV2 c.resource c.frozenBalance := by
  simp only [frozenAccount, checkSub, bind_eq_ok, orFail_eq_ok, subI64_eq_some, pure_eq_ok] at h
  obtain ⟨-, ⟨-, rfl⟩, slots, hslots, rfl⟩ := h
  obtain ⟨hmoved, hnonneg⟩ := addToSlot_spec hslots
  have hholdings : holdings { account with balance := account.balance - c.frozenBalance, frozenV2 := slots } =
      account.holdings := by
    simp only [holdings, hmoved.sum]
    omega
  have hfits := hsound.fits
  exact ⟨⟨⟨by dsimp only; omega, hmoved.nodup hsound.slots, hnonneg (by omega) hsound.frozen, hsound.pending,
    hsound.delegated, by rwa [hholdings]⟩, hholdings, rfl, rfl⟩, hmoved⟩

variable {chain : Chain}

/-- **An unfreeze shifts a slot into a pending entry, and expired entries into the balance.** -/
theorem unfrozenAccount_spec {c : UnfreezeBalanceV2Contract} (hsound : account.Sound) (hpos : 0 < c.unfreezeBalance)
    {had : Int} (hhad : slotAmount account.frozenV2 c.resource = some had) (hle : c.unfreezeBalance ≤ had)
    (h : unfrozenAccount chain account c = .ok account') :
    account.Shifted account' ∧ SlotsMoved account.frozenV2 account'.frozenV2 c.resource (-c.unfreezeBalance) := by
  simp only [unfrozenAccount, checkAdd, bind_eq_ok, orFail_eq_ok, addI64_eq_some, pure_eq_ok] at h
  obtain ⟨-, ⟨-, rfl⟩, slots, hslots, rfl⟩ := h
  obtain ⟨hmoved, hnonneg⟩ := takeFromSlot_spec hhad hslots
  have hswept := hsound.expiredAmount_add chain.now
  have hbalance := hsound.balance
  have hfits := hsound.fits
  refine ⟨⟨⟨?_, hmoved.nodup hsound.slots, hnonneg hle hsound.frozen, ?_, hsound.delegated, ?_⟩, ?_, rfl, rfl⟩, hmoved⟩
  · dsimp only
    omega
  · intro u hu
    rcases mem_append.1 hu with hu | hu
    · exact hsound.pending u (mem_unexpired hu)
    · obtain rfl := mem_singleton.1 hu
      exact hpos.le
  all_goals
    simp only [holdings, hmoved.sum, pendingSum_append, pendingSum_cons, pendingSum_nil] at hfits ⊢
    omega

theorem withdrawnAccount_spec (hsound : account.Sound) (h : withdrawnAccount chain account = .ok account') :
    account.Shifted account' ∧ account'.frozenV2 = account.frozenV2 := by
  simp only [withdrawnAccount, checkAdd, bind_eq_ok, orFail_eq_ok, addI64_eq_some, pure_eq_ok] at h
  obtain ⟨-, ⟨-, rfl⟩, rfl⟩ := h
  have hswept := hsound.expiredAmount_add chain.now
  have hbalance := hsound.balance
  have hfits := hsound.fits
  refine ⟨⟨⟨?_, hsound.slots, hsound.frozen, fun u hu => hsound.pending u (mem_unexpired hu), hsound.delegated, ?_⟩,
    ?_, rfl, rfl⟩, rfl⟩
  · dsimp only
    omega
  all_goals
    simp only [holdings] at hfits ⊢
    omega

/-- The owner's account after `delta` has gone from a slot to what is delegated out. -/
def lentAccount (account : Account) (slots : List FreezeV2) (kind : ResourceKind) (delta : Int) : Account :=
  { account with
    frozenV2 := slots
    delegatedFrozenV2Balance :=
      account.delegatedFrozenV2Balance.set kind (account.delegatedFrozenV2Balance.get kind + delta) }

theorem lentAccount_spec {kind : ResourceKind} {delta : Int} (hsound : account.Sound)
    (hmoved : SlotsMoved account.frozenV2 slots (code kind) (-delta)) (hnonneg : ∀ f ∈ slots, 0 ≤ f.amount)
    (hpos : 0 ≤ account.delegatedFrozenV2Balance.get kind + delta) :
    (lentAccount account slots kind delta).Sound ∧ (lentAccount account slots kind delta).holdings = account.holdings ∧
      (∀ k, (lentAccount account slots kind delta).basis k = account.basis k) ∧
      ∀ k, (lentAccount account slots kind delta).delegatedFrozenV2Balance.get k =
        account.delegatedFrozenV2Balance.get k + if k = kind then delta else 0 := by
  have hdelegated : ∀ k, (lentAccount account slots kind delta).delegatedFrozenV2Balance.get k =
      account.delegatedFrozenV2Balance.get k + if k = kind then delta else 0 :=
    fun k => PerKind.get_set_add _ kind k delta
  have hholdings : (lentAccount account slots kind delta).holdings = account.holdings := by
    simp only [lentAccount, holdings, hmoved.sum, PerKind.sum_set]
    omega
  refine ⟨⟨hsound.balance, hmoved.nodup hsound.slots, hnonneg, hsound.pending, fun k => ?_, ?_⟩, hholdings, fun k => ?_,
    hdelegated⟩
  · rw [hdelegated]
    split
    · next hk => rwa [hk]
    · have := hsound.delegated k
      omega
  · rw [hholdings]
    exact hsound.fits
  · have hheld : held (lentAccount account slots kind delta).frozenV2 (code k) =
        held account.frozenV2 (code k) + if code k = code kind then -delta else 0 := hmoved.held (code k)
    rw [basis, basis, hdelegated, hheld]
    by_cases hk : k = kind
    · rw [if_pos hk, if_pos (congrArg code hk)]
      omega
    · rw [if_neg hk, if_neg fun h => hk (code_injective h)]
      omega

/-! ## Cancelling pending entries -/

/-- What the loop of a cancel keeps, with the entries that are left to go through: the sum `whole` of balance,
frozen and pending, and in `restored` what has gone back to the slots. -/
structure Cancelling.Inv (slots : List FreezeV2) (whole : Int) (x : Cancelling) (rest : List UnFreezeV2) : Prop where
  balance : 0 ≤ x.balance
  nodup : (x.frozenV2.map (·.resource)).Nodup
  frozen : ∀ f ∈ x.frozenV2, 0 ≤ f.amount
  pending : ∀ u ∈ rest, 0 ≤ u.unfreezeAmount
  sum : x.balance + frozenSum x.frozenV2 + pendingSum rest = whole
  held : ∀ kind, held x.frozenV2 (code kind) = held slots (code kind) + x.restored.get kind
  restored : ∀ kind, 0 ≤ x.restored.get kind

section

variable (hslots : ∀ f ∈ slots, 0 ≤ f.amount)
include hslots

theorem cancelEntry_inv {whole : Int} (hwhole : whole ≤ 0x7fffffffffffffff) {x x' : Cancelling} {u : UnFreezeV2}
    {rest : List UnFreezeV2} (h : x.Inv slots whole (u :: rest)) (hx : cancelEntry now x u = .ok x')
    : x'.Inv slots whole rest := by
  have hu := h.pending u mem_cons_self
  have hrest : ∀ v ∈ rest, 0 ≤ v.unfreezeAmount := fun v hv => h.pending v (mem_cons_of_mem u hv)
  have hsum := h.sum
  have hbalance := h.balance
  rw [pendingSum_cons] at hsum
  unfold cancelEntry at hx
  split at hx
  · simp only [checkAdd, bind_eq_ok, orFail_eq_ok, addI64_eq_some, pure_eq_ok] at hx
    obtain ⟨-, ⟨-, rfl⟩, rfl⟩ := hx
    exact ⟨by dsimp only; omega, h.nodup, h.frozen, hrest, by dsimp only; omega, h.held, h.restored⟩
  · simp only [bind_eq_ok] at hx
    obtain ⟨slots', hadd, hx⟩ := hx
    obtain ⟨hmoved, hnonneg⟩ := addToSlot_spec hadd
    have hslots' := hnonneg hu h.frozen
    have hsum' := hmoved.sum
    split at hx
    · next kind hkind =>
      rw [resourceKind?_eq_some] at hkind
      obtain rfl := pure_eq_ok.1 hx
      have hheld := hmoved.held (code kind)
      rw [if_pos hkind.symm, h.held kind] at hheld
      have hold := (held_nonneg hslots (code kind)).1
      have hle := (held_nonneg hslots' (code kind)).2
      have hpending := pendingSum_nonneg hrest
      have hpos := h.restored kind
      have hsat : satI64 (x.restored.get kind + u.unfreezeAmount) = x.restored.get kind + u.unfreezeAmount :=
        satI64_of_fits ⟨by omega, by omega⟩
      refine ⟨hbalance, hmoved.nodup h.nodup, hslots', hrest, by dsimp only; omega, fun other => ?_, fun other => ?_⟩
      · rw [hmoved.held, h.held, PerKind.get_set, hsat, hkind]
        by_cases hother : other = kind
        · subst hother
          rw [if_pos rfl, if_pos rfl]
          omega
        · rw [if_neg fun heq => hother (code_injective heq), if_neg hother]
          omega
      · rw [PerKind.get_set, hsat]
        split
        · omega
        · exact h.restored other
    · next hkind =>
      obtain rfl := pure_eq_ok.1 hx
      refine ⟨hbalance, hmoved.nodup h.nodup, hslots', hrest, by dsimp only; omega, fun kind => ?_, h.restored⟩
      have hne : code kind ≠ u.resource := fun heq => by
        rw [resourceKind?_eq_some.2 heq.symm] at hkind
        cases hkind
      dsimp only
      rw [hmoved.held, h.held, if_neg hne]
      omega

theorem foldlM_cancelEntry_inv {whole : Int} (hwhole : whole ≤ 0x7fffffffffffffff) {x x' : Cancelling}
    (h : x.Inv slots whole entries) (hx : entries.foldlM (cancelEntry now) x = .ok x') : x'.Inv slots whole [] := by
  induction entries generalizing x with
  | nil =>
    obtain rfl := pure_eq_ok.1 hx
    exact h
  | cons u entries ih =>
    rw [foldlM_cons, bind_eq_ok] at hx
    obtain ⟨y, hy, hx⟩ := hx
    exact ih (cancelEntry_inv hslots hwhole h hy) hx

end

def cancelledAccount (account : Account) (x : Cancelling) : Account :=
  { account with balance := x.balance, frozenV2 := x.frozenV2, unfrozenV2 := [] }

theorem cancelledAccount_spec {x : Cancelling} (hsound : account.Sound)
    (hx : account.unfrozenV2.foldlM (cancelEntry now) ⟨account.balance, account.frozenV2, .zero, 0, 0⟩ = .ok x) :
    account.Shifted (cancelledAccount account x) ∧
      ∀ kind, (cancelledAccount account x).basis kind = account.basis kind + x.restored.get kind := by
  have hfits := hsound.fits
  have hdelegated := hsound.sum_nonneg
  rw [holdings] at hfits
  have hstart : Cancelling.Inv account.frozenV2
      (account.balance + frozenSum account.frozenV2 + pendingSum account.unfrozenV2)
      ⟨account.balance, account.frozenV2, .zero, 0, 0⟩ account.unfrozenV2 :=
    ⟨hsound.balance, hsound.slots, hsound.frozen, hsound.pending, rfl, fun kind => by simp, fun kind => by simp⟩
  have hend := foldlM_cancelEntry_inv hsound.frozen (by omega) hstart hx
  have hwhole := hend.sum
  rw [pendingSum_nil] at hwhole
  have hholdings : (cancelledAccount account x).holdings = account.holdings := by
    simp only [cancelledAccount, holdings, pendingSum_nil]
    omega
  refine ⟨⟨⟨hend.balance, hend.nodup, hend.frozen, by simp [cancelledAccount], hsound.delegated, ?_⟩, hholdings, rfl,
    rfl⟩, fun kind => ?_⟩
  · rw [hholdings, holdings]
    omega
  · show held x.frozenV2 (code kind) + account.delegatedFrozenV2Balance.get kind = _
    rw [hend.held kind, basis]
    omega

/-! ## What leaves the holdings alone -/

theorem payAllowance_cases (s : State) (owner : Address) (account : Account) (paid : Int) :
    s.payAllowance owner account paid = s ∨ ∃ n, s.payAllowance owner account paid =
        { s with accounts := s.accounts.insert owner { account with allowance := n } } := by
  unfold State.payAllowance
  split
  · exact .inr ⟨_, rfl⟩
  · exact .inl rfl

/-- A claim writes the voter's marks, and at most an allowance. -/
theorem withdrawReward_cases (chain : Chain) (s : State) (owner : Address) :
    ∃ d, (withdrawReward chain s owner).1 = { s with delegation := d } ∨
      ∃ account n, s.accounts.lookup owner = some account ∧ (withdrawReward chain s owner).1 =
          { s with accounts := s.accounts.insert owner { account with allowance := n }, delegation := d } := by
  unfold withdrawReward
  split
  · exact ⟨s.delegation, .inl rfl⟩
  · next account hlook =>
    let marked := s.delegation.setBeginCycle owner (s.currentCycleNumber + 1)
    let paidUp := ((s.delegation.setBeginCycle owner s.currentCycleNumber).setEndCycle owner
      (s.currentCycleNumber + 1)).setAccountVote owner s.currentCycleNumber account.votes
    dsimp only
    split_ifs
    · exact ⟨s.delegation, .inl rfl⟩
    · exact ⟨s.delegation, .inl rfl⟩
    · rcases payAllowance_cases { s with delegation := marked } owner account
        (catchUp chain s owner).1 with heq | ⟨n, heq⟩
      · exact ⟨marked, .inl heq⟩
      · exact ⟨marked, .inr ⟨account, n, hlook, heq⟩⟩
    all_goals
      refine ⟨paidUp, ?_⟩
      rcases payAllowance_cases s owner account _ with heq | ⟨n, heq⟩
      · left
        rw [heq]
      · right
        refine ⟨account, n, hlook, ?_⟩
        rw [heq]

theorem settled_cases (chain : Chain) (s : State) (owner : Address) :
    ∃ d, s.settled chain owner = { s with delegation := d } ∨ ∃ account n, s.accounts.lookup owner = some account ∧
        s.settled chain owner =
          { s with accounts := s.accounts.insert owner { account with allowance := n }, delegation := d } := by
  unfold State.settled withdrawRewardActuator
  split
  · exact ⟨s.delegation, .inl rfl⟩
  · exact withdrawReward_cases chain s owner

theorem settled_lookup {s : State} {owner a : Address} (h : (s.settled chain owner).accounts.lookup a = some account) :
    ∃ before, s.accounts.lookup a = some before ∧ account = { before with allowance := account.allowance } := by
  obtain ⟨d, heq | ⟨before, n, hlook, heq⟩⟩ := settled_cases chain s owner
  · rw [heq] at h
    exact ⟨account, h, rfl⟩
  · rw [heq] at h
    rw [Assoc.lookup_insert_eq] at h
    split at h
    · next ha =>
      obtain rfl := some.inj h
      exact ⟨before, ha ▸ hlook, rfl⟩
    · exact ⟨account, h, rfl⟩

/-- What is returned to a receiver changes no more than what its account has acquired. -/
theorem unfreezeReceiver_frame {γ : Type} {f : Account → γ} {s s' : State} {receiver : Address} {kind : ResourceKind}
    {amount decrease : Int} (hf : ∀ account p, f { account with acquiredDelegatedFrozenBalance := p } = f account)
    (h : unfreezeReceiver chain s receiver kind amount = .ok (s', decrease)) :
    (∃ accounts, s' = { s with accounts := accounts }) ∧
      ∀ a, (s'.accounts.lookup a).map f = (s.accounts.lookup a).map f := by
  unfold unfreezeReceiver at h
  split at h
  · split at h
    · cases h
    · cases h
      exact ⟨⟨s.accounts, rfl⟩, fun _ => rfl⟩
  · next dest hdest =>
    split at h
    · cases h
      exact ⟨⟨_, rfl⟩, Assoc.map_lookup_insert hdest (hf dest _)⟩
    · cases h
      exact ⟨⟨s.accounts, rfl⟩, fun _ => rfl⟩

theorem updateVoteAfterUnstake_account (chain : Chain) (votesStore : Assoc.Table Address Votes) (owner : Address)
    (account : Account) :
    ∃ votes, (updateVoteAfterUnstake chain votesStore owner account).2 = { account with votes := votes } := by
  unfold updateVoteAfterUnstake
  dsimp only
  split_ifs
  · exact ⟨account.votes, rfl⟩
  · exact ⟨_, rfl⟩

end TronGoblin.Stake
