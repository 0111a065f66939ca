import TronGoblin.Actuator.StakeConserve

/-!
# Delegation locks

What is delegated under a lock is pooled, for each pair and resource, in one record with one expiry.  A delegation
that is still locked stays with the receiver as long as no later one shortens that expiry.

* `State.lockedUntil`: what the record of a pair holds until a time; folding expired locks does not change it.
* `KeepsLock`: a transaction does not bring the expiry of a live lock forward.
* `locks_honoured`: what has been locked until a time is still delegated at that time.
* `Shortened.lock_is_not_honoured`: a small delegation with a short lock frees a large one.
-/

namespace TronGoblin.Stake

open DelegatedResource Option

open History (after tally Each)
open Resource (ResourceKind)

/-! ## What a record holds -/

/-- What a record holds of a resource until a time. -/
def DelegatedResource.lockedUntil (r : DelegatedResource) (kind : ResourceKind) (t : Int) : Int :=
  if t ≤ r.expireTime.get kind then r.frozenBalance.get kind else 0

def State.lockedUntil (s : State) (owner receiver : Address) (kind : ResourceKind) (t : Int) : Int :=
  (s.delegatedResource.lookup (.v2Locked owner receiver)).elim 0 (·.lockedUntil kind t)

section Pair

variable {s s' : State} {owner receiver : Address} {kind : ResourceKind} {t : Int}

theorem lockedUntil_putResource (key : ResourceKey) (r : DelegatedResource) :
    (s.putResource key r).lockedUntil owner receiver kind t =
      if key = .v2Locked owner receiver then r.lockedUntil kind t else s.lockedUntil owner receiver kind t := by
  rw [State.lockedUntil, State.putResource, Assoc.lookup_insert_eq]
  by_cases hkey : key = .v2Locked owner receiver
  · simp [hkey]
  · simp [hkey, Ne.symm hkey, State.lockedUntil]

theorem lockedUntil_storeResource (key : ResourceKey) (r : DelegatedResource) :
    (s.storeResource key r).lockedUntil owner receiver kind t =
      if key = .v2Locked owner receiver then r.lockedUntil kind t else s.lockedUntil owner receiver kind t := by
  unfold State.storeResource
  split
  · next hzero =>
    have hget : r.lockedUntil kind t = 0 := by
      rw [lockedUntil]
      cases kind <;> simp [PerKind.get, hzero]
    rw [State.lockedUntil, State.deleteResource, Assoc.lookup_erase_eq, hget]
    by_cases hkey : key = .v2Locked owner receiver
    · simp [hkey]
    · simp [hkey, Ne.symm hkey, State.lockedUntil]
  · exact lockedUntil_putResource key r

theorem lockedUntil_resourceOrNew :
    (s.resourceOrNew (.v2Locked owner receiver)).lockedUntil kind t = s.lockedUntil owner receiver kind t := by
  rw [State.resourceOrNew, State.lockedUntil]
  cases s.delegatedResource.lookup (.v2Locked owner receiver) <;>
    simp [DelegatedResource.lockedUntil, DelegatedResource.default]

theorem lockedUntil_unlock (o r : Address) {now : Int} (hnow : now ≤ t) :
    (unlockExpireResource s o r now).lockedUntil owner receiver kind t = s.lockedUntil owner receiver kind t := by
  unfold unlockExpireResource
  split
  · rfl
  · next lock hlock =>
    split
    · rfl
    · obtain ⟨hamount, -, hexpiry⟩ := unlockBoth_spec kind now (lock, s.resourceOrNew (.v2Unlocked o r))
      rw [lockedUntil_putResource, if_neg (by simp), lockedUntil_storeResource]
      split
      · next hkey =>
        rw [State.lockedUntil, ← hkey, hlock]
        rw [lockedUntil, hamount]
        by_cases hlive : lock.expireTime.get kind < now
        · rw [if_pos hlive, ite_self]
          exact (if_neg (by omega)).symm
        · rw [if_neg hlive, hexpiry hlive]
          rfl
      · rfl

theorem lockedUntil_bounds (hpos : 0 ≤ s.amount (.v2Locked owner receiver) kind) :
    0 ≤ s.lockedUntil owner receiver kind t ∧
      s.lockedUntil owner receiver kind t ≤ s.amount (.v2Locked owner receiver) kind := by
  rw [State.amount] at hpos ⊢
  rw [State.lockedUntil]
  cases hlook : s.delegatedResource.lookup (.v2Locked owner receiver) with
  | none => exact ⟨le_refl 0, le_refl 0⟩
  | some r =>
    rw [hlook] at hpos
    simp only [Option.elim, lockedUntil] at hpos ⊢
    split <;> omega

theorem lockedUntil_of_expired (hexp : s.expiry (.v2Locked owner receiver) kind < t) :
    s.lockedUntil owner receiver kind t = 0 := by
  rw [State.expiry] at hexp
  rw [State.lockedUntil]
  cases hlook : s.delegatedResource.lookup (.v2Locked owner receiver) with
  | none => rfl
  | some r =>
    rw [hlook] at hexp
    exact if_neg (by simpa using hexp)

/-! ## Transactions -/

def Tx.isDelegation : Tx → Bool
  | .delegateResource _ | .undelegateResource _ => true
  | _ => false

/-- The last moment at which what a contract delegates under a lock is locked. -/
def lockEnd (chain : Chain) (c : DelegateResourceContract) : Int :=
  chain.now + BLOCK_PRODUCED_INTERVAL * resolvedLockPeriod chain c.lockPeriod

/-- A contract delegates a resource from an owner to a receiver under a lock. -/
def DelegateResourceContract.Locks (c : DelegateResourceContract) (owner receiver : Address) (kind : ResourceKind) : Prop :=
  c.lock = true ∧ Market.decodeAddress c.ownerAddress = some owner ∧
    Market.decodeAddress c.receiverAddress = some receiver ∧ resourceKind? c.resource = some kind

instance (c : DelegateResourceContract) (owner receiver : Address) (kind : ResourceKind) :
    Decidable (c.Locks owner receiver kind) := inferInstanceAs (Decidable (_ ∧ _))

/-- What a transaction, if it is executed, delegates under a lock that lasts until a time. -/
def lockedBy (owner receiver : Address) (kind : ResourceKind) (t : Int) (s : State) (a : Chain × Tx) : Int :=
  match a.2, apply a.1 s a.2 with
  | .delegateResource c, .ok _ => if c.Locks owner receiver kind ∧ t ≤ lockEnd a.1 c then c.balance else 0
  | _, _ => 0

def KeepsLock (s : State) (a : Chain × Tx) : Prop :=
  match a.2 with
  | .delegateResource c => ∀ owner receiver kind, c.Locks owner receiver kind →
      a.1.now ≤ s.expiry (.v2Locked owner receiver) kind → s.expiry (.v2Locked owner receiver) kind ≤ lockEnd a.1 c
  | _ => True

variable {chain : Chain}

theorem expiry_eq_lockEnd {c : DelegateResourceContract} {expiry : Int} (hlock : c.lock = true)
    (h : delegationExpiry chain c = .ok expiry) : expiry = lockEnd chain c := by
  simp only [delegationExpiry, hlock, if_true, checkMul, checkAdd, Checked.bind_eq_ok, Checked.orFail_eq_ok,
    Checked.addI64_eq_some] at h
  obtain ⟨period, hperiod, -, rfl⟩ := h
  split at hperiod
  · cases hperiod
    rw [lockEnd, Int.mul_comm]
  · cases hperiod

/-- **A delegation adds what it locks, and leaves what was locked.** -/
theorem lockedUntil_delegate (hs : s.Consistent) {c : DelegateResourceContract} {result : ExecutionResult}
    (h : apply chain s (.delegateResource c) = .ok (s', result)) (hkeeps : KeepsLock s (chain, .delegateResource c))
    (ht : chain.now ≤ t) :
    lockedBy owner receiver kind t s (chain, .delegateResource c) + s.lockedUntil owner receiver kind t ≤
      s'.lockedUntil owner receiver kind t := by
  obtain ⟨o, r, k, account, dest, slots, expiry, hd⟩ := delegated_of_apply h
  have hfold : (unlockExpireResource s o r chain.now).lockedUntil owner receiver kind t =
      s.lockedUntil owner receiver kind t := lockedUntil_unlock o r ht
  have hrecord := hd.records
  have hputs : s'.lockedUntil owner receiver kind t = _ :=
    (show _ = ((unlockExpireResource s o r chain.now).putResource _ _).lockedUntil owner receiver kind t by
      rw [State.lockedUntil, hrecord, State.lockedUntil]).trans (lockedUntil_putResource _ _)
  have hby : lockedBy owner receiver kind t s (chain, .delegateResource c) =
      if c.Locks owner receiver kind ∧ t ≤ lockEnd chain c then c.balance else 0 := by
    simp [lockedBy, h]
  rw [hputs, hby, ← hfold]
  by_cases hlocks : c.Locks owner receiver kind
  · -- the lock is put on this pair: what was locked longer than the new lock lasts would be freed
    obtain ⟨hlock, ho, hr, hk⟩ := id hlocks
    obtain rfl := some.inj (ho.symm.trans hd.ownerAddress)
    obtain rfl := some.inj (hr.symm.trans hd.receiverAddress)
    rw [resourceKind?_eq_some, hd.resource] at hk
    obtain rfl := code_injective hk
    have hexpiry := expiry_eq_lockEnd hlock hd.expires
    have hnonneg : 0 ≤ (unlockExpireResource s owner receiver chain.now).amount (.v2Locked owner receiver) k :=
      hs.amount_unlock_nonneg hd.lookup receiver chain.now rfl k
    have hle := (lockedUntil_bounds (t := t) hnonneg).2
    simp only [hlock, delegationKey, if_true, lockedUntil, PerKind.get_set_self, hlocks, true_and, hexpiry]
    split
    · omega
    · next hended =>
      have hlate : s.expiry (.v2Locked owner receiver) k < t := by
        by_contra hlive
        have := hkeeps owner receiver k hlocks (by dsimp only; omega)
        dsimp only at this
        omega
      rw [hfold, lockedUntil_of_expired hlate]
      omega
  · rw [if_neg fun hboth => hlocks hboth.1]
    split
    · next hkey =>
      have hlock : c.lock = true := by
        by_contra hno
        rw [delegationKey, if_neg hno] at hkey
        cases hkey
      rw [delegationKey, if_pos hlock] at hkey ⊢
      injection hkey with howner hreceiver
      subst howner hreceiver
      have hother : kind ≠ k := by
        rintro rfl
        exact hlocks ⟨hlock, hd.ownerAddress, hd.receiverAddress, resourceKind?_eq_some.2 hd.resource⟩
      rw [← lockedUntil_resourceOrNew]
      simp [lockedUntil, PerKind.get_set, hother]
    · omega

theorem lockedUntil_undelegate {c : UnDelegateResourceContract} {result : ExecutionResult}
    (h : apply chain s (.undelegateResource c) = .ok (s', result)) (ht : chain.now ≤ t) :
    s'.lockedUntil owner receiver kind t = s.lockedUntil owner receiver kind t := by
  obtain ⟨o, r, k, account, slots, row, hr⟩ := recalled_of_apply h
  have hstores : s'.lockedUntil owner receiver kind t = _ :=
    (show _ = ((unlockExpireResource s o r chain.now).storeResource _ _).lockedUntil owner receiver kind t by
      rw [State.lockedUntil, hr.records, State.lockedUntil]).trans (lockedUntil_storeResource _ _)
  rw [hstores, if_neg (by simp), lockedUntil_unlock o r ht]

/-! ## Runs -/

theorem lockedUntil_step (hs : s.Consistent) {a : Chain × Tx} (ha : a.2.isDelegation) (hkeeps : KeepsLock s a)
    (ht : a.1.now ≤ t) :
    lockedBy owner receiver kind t s a + s.lockedUntil owner receiver kind t ≤
      (step s a).lockedUntil owner receiver kind t := by
  obtain ⟨chain, tx⟩ := a
  unfold step
  cases happly : apply chain s tx with
  | error e =>
    have hby : lockedBy owner receiver kind t s (chain, tx) = 0 := by
      cases tx <;> simp only [lockedBy, happly]
    rw [hby]
    dsimp only
    omega
  | ok out =>
    obtain ⟨s', result⟩ := out
    cases tx with
    | delegateResource c => exact lockedUntil_delegate hs happly hkeeps ht
    | undelegateResource c =>
      have hby : lockedBy owner receiver kind t s (chain, .undelegateResource c) = 0 := by
        simp [lockedBy]
      have hsame : s'.lockedUntil owner receiver kind t = _ := lockedUntil_undelegate happly ht
      dsimp only
      omega
    | _ => cases ha

theorem isV2_of_isDelegation {tx : Tx} (h : tx.isDelegation) : tx.isV2 := by
  cases tx <;> first | rfl | cases h

/-- What has been locked until a time is in the locked record of the pair. -/
theorem tally_le_lockedUntil {s₀ : State} (h₀ : s₀.Consistent) {acts : List (Chain × Tx)}
    (hacts : ∀ a ∈ acts, a.2.isDelegation) (hkeeps : Each step s₀ KeepsLock acts) (ht : ∀ a ∈ acts, a.1.now ≤ t) :
    tally step (lockedBy owner receiver kind t) s₀ acts ≤ (after step s₀ acts).lockedUntil owner receiver kind t := by
  induction acts using List.reverseRecOn with
  | nil =>
    exact (lockedUntil_bounds (h₀.records (.v2Locked owner receiver) rfl kind)).1
  | append_singleton acts a ih =>
    obtain ⟨hearlier, hlast⟩ := hkeeps.of_concat
    have hold := ih (fun b hb => hacts b (List.mem_append_left _ hb)) hearlier
      fun b hb => ht b (List.mem_append_left _ hb)
    have hconsistent := (kept_of_run h₀ fun b hb =>
      isV2_of_isDelegation (hacts b (List.mem_append_left [a] hb))).consistent
    have hstep : lockedBy owner receiver kind t (after step s₀ acts) a + _ ≤ _ :=
      lockedUntil_step hconsistent (hacts a (by simp)) hlast (ht a (by simp))
    rw [History.tally_concat, History.after_concat]
    omega

end Pair

/-- **Locks are honoured, as long as no later delegation shortens them.** -/
theorem locks_honoured {s₀ : State} (h₀ : s₀.Consistent) {acts : List (Chain × Tx)}
    (hacts : ∀ a ∈ acts, a.2.isDelegation) (hkeeps : Each step s₀ KeepsLock acts) {t : Int}
    (ht : ∀ a ∈ acts, a.1.now ≤ t) (owner receiver : Address) (kind : ResourceKind) :
    let s := after step s₀ acts
    tally step (lockedBy owner receiver kind t) s₀ acts ≤
      s.amount (.v2Unlocked owner receiver) kind + s.amount (.v2Locked owner receiver) kind := by
  have htally : tally step (lockedBy owner receiver kind t) s₀ acts ≤ _ := tally_le_lockedUntil h₀ hacts hkeeps ht
  have hconsistent := (kept_of_run h₀ fun b hb => isV2_of_isDelegation (hacts b hb)).consistent
  have hunlocked := hconsistent.records (.v2Unlocked owner receiver) rfl kind
  have hlocked : (after step s₀ acts).lockedUntil owner receiver kind t ≤ _ :=
    (lockedUntil_bounds (hconsistent.records (.v2Locked owner receiver) rfl kind)).2
  omega

namespace Sample

/-- 5 TRX of bandwidth are frozen. -/
def staked : State := step (unstaked 10000000) (chainAt 0, .freezeBalanceV2 ⟨owner.val, 5000000, 0⟩)

theorem consistent_staked : staked.Consistent := by
  have hs : (unstaked 10000000).Consistent := consistent_unstaked (by decide) (by decide)
  have hv2 : ∀ a ∈ [(chainAt 0, Tx.freezeBalanceV2 ⟨owner.val, 5000000, 0⟩)], a.2.isV2 := by decide
  exact (kept_of_run hs hv2).consistent

theorem keepsLock_of {s : State} {chain : Chain} {c : DelegateResourceContract} {o r : Address} {k : ResourceKind}
    (ho : Market.decodeAddress c.ownerAddress = some o) (hr : Market.decodeAddress c.receiverAddress = some r)
    (hk : resourceKind? c.resource = some k) (h : s.expiry (.v2Locked o r) k ≤ lockEnd chain c) :
    KeepsLock s (chain, .delegateResource c) := by
  rintro o' r' k' ⟨-, ho', hr', hk'⟩ -
  obtain rfl := some.inj (ho.symm.trans ho')
  obtain rfl := some.inj (hr.symm.trans hr')
  obtain rfl := some.inj (hk.symm.trans hk')
  exact h

/-- 2 TRX for a hundred blocks, and in the next block 1 TRX for as many. -/
def prolonged : List (Chain × Tx) :=
  [(chainAt 0, .delegateResource ⟨owner.val, receiver.val, 0, 2000000, true, 100⟩),
   (chainAt 3000, .delegateResource ⟨owner.val, receiver.val, 0, 1000000, true, 100⟩),
   (chainAt 9000, .undelegateResource ⟨owner.val, receiver.val, 0, 3000000⟩)]

/-- Both locks are live in the third block, and nothing can be recalled. -/
theorem locks_honoured_prolonged :
    (3000000 : Int) ≤ (after step staked prolonged).amount (.v2Unlocked owner receiver) .bandwidth +
      (after step staked prolonged).amount (.v2Locked owner receiver) .bandwidth := by
  have hkeeps : Each step staked KeepsLock prolonged := by
    refine .cons ?_ (.cons ?_ (.cons ?_ (History.each_nil _)))
    · exact keepsLock_of (o := owner) (r := receiver) (k := .bandwidth) rfl rfl rfl (by decide +kernel)
    · exact keepsLock_of (o := owner) (r := receiver) (k := .bandwidth) rfl rfl rfl (by decide +kernel)
    · trivial
  have hdelegations : ∀ a ∈ prolonged, a.2.isDelegation := by decide
  have htimes : ∀ a ∈ prolonged, a.1.now ≤ 9000 := by decide
  have htally : tally step (lockedBy owner receiver .bandwidth 9000) staked prolonged = 3000000 := by decide +kernel
  have := locks_honoured consistent_staked hdelegations hkeeps htimes owner receiver .bandwidth
  rwa [htally] at this

end Sample

namespace Shortened

open TronGoblin.Stake.Sample

/-- 2 TRX for a hundred blocks, in the next block 1 TRX for one block, and two blocks later a recall of both. -/
def shortened : List (Chain × Tx) :=
  [(chainAt 0, .delegateResource ⟨owner.val, receiver.val, 0, 2000000, true, 100⟩),
   (chainAt 3000, .delegateResource ⟨owner.val, receiver.val, 0, 1000000, true, 1⟩),
   (chainAt 9000, .undelegateResource ⟨owner.val, receiver.val, 0, 3000000⟩)]

/-- **A short lock frees what is locked for longer.**  2 TRX are locked until 300000, and at 9000 nothing is left
with the receiver. -/
theorem lock_is_not_honoured :
    staked.Consistent ∧ (∀ a ∈ shortened, a.2.isDelegation ∧ a.1.now ≤ 9000) ∧
      tally step (lockedBy owner receiver .bandwidth 9000) staked shortened = 2000000 ∧
      (after step staked shortened).amount (.v2Unlocked owner receiver) .bandwidth = 0 ∧
      (after step staked shortened).amount (.v2Locked owner receiver) .bandwidth = 0 :=
  ⟨consistent_staked, by decide, by decide +kernel, by decide +kernel, by decide +kernel⟩

end Shortened

end TronGoblin.Stake
