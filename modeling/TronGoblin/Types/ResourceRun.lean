import TronGoblin.Types.ResourceWindow

/-!
# Resource windows over sequences of calls

* `Proper`: a call with proper arguments, at a slot that is not before the one of an earlier call,
  whose usage fits in 64 bits.
* `Forward`: the call does not go back to windows in blocks.
* `windows_bounded`: over every sequence of proper calls on default accounts usage is never negative,
  a charge is never lost and nothing is divided by zero; windows stay in their range if every call is
  a forward one.
* `window_below_range`: and otherwise they do not.
-/

namespace TronGoblin.Resource

open TronGoblin.Resource.World TronGoblin.Resource.Call

open BigEndian (wrapI64)
open Checked (FitsI64 wrapI64_of_fits)
open History (Each after)

section Calls

variable {ι : Type}

def Call.lastUsage (w : World ι) (c : Call ι) : Int :=
  match c.op with
  | .increaseAccount lastUsage _ _ => lastUsage
  | _ => usage (w.accounts c.account) c.kind

/-- The time of that usage. -/
def Call.lastTime (w : World ι) (c : Call ι) : Int :=
  match c.op with
  | .increaseAccount _ _ lastTime => lastTime
  | _ => lastConsumeTime (w.accounts c.account) c.kind

/-- The amount charged by `increase_account`. -/
def Call.usageAmt (c : Call ι) : Int :=
  match c.op with
  | .increaseAccount _ usageAmt _ => usageAmt
  | _ => 0

/-- The amount given back by `undelegate_increase`. -/
def Call.transferUsage (c : Call ι) : Int :=
  match c.op with
  | .undelegateIncrease _ transferUsage => transferUsage
  | _ => 0

/-- The usage after the call, before it is cast to 64 bits. -/
def Call.trueUsage (decay : Decay) (w : World ι) (c : Call ι) : Except Fault Int := do
  let r ← charge decay (windowSize (w.accounts c.account) c.kind) (c.lastUsage w) c.usageAmt
    (c.lastTime w) c.now
  return r.newUsage + c.transferUsage

/-- The usages that are passed are not negative, and times are 64-bit times up to now. -/
def Call.ArgsOk (c : Call ι) : Prop :=
  match c.op with
  | .increaseAccount lastUsage usageAmt lastTime => Args lastUsage usageAmt lastTime c.now
  | .updateUsage => True
  | .undelegateIncrease _ transferUsage => 0 ≤ transferUsage

/-- The arguments are as they should be, slots do not decrease, and the usage fits. -/
structure Proper (decay : Decay) (w : World ι) (c : Call ι) : Prop where
  args : c.ArgsOk
  fits : FitsI64 c.now
  le : w.now ≤ c.now
  noOverflow : ∀ u ∈ (c.trueUsage decay w).toOption, FitsI64 u

/-- The call has the cancel-all proposal, or the window has never been stored with it. -/
def Forward (w : World ι) (c : Call ι) : Prop :=
  c.gates.supportAllowCancelAllUnfreezeV2 = true ∨ windowOptimized (w.accounts c.account) c.kind = false

instance (lastUsage usageAmt lastTime now : Int) : Decidable (Args lastUsage usageAmt lastTime now) :=
  decidable_of_iff (0 ≤ lastUsage ∧ 0 ≤ usageAmt ∧ FitsI64 lastTime ∧ lastTime ≤ now)
    ⟨fun ⟨h₁, h₂, h₃, h₄⟩ => ⟨h₁, h₂, h₃, h₄⟩, fun ⟨h₁, h₂, h₃, h₄⟩ => ⟨h₁, h₂, h₃, h₄⟩⟩

instance (c : Call ι) : Decidable c.ArgsOk :=
  match h : c.op with
  | .increaseAccount lastUsage usageAmt lastTime =>
    decidable_of_iff (Args lastUsage usageAmt lastTime c.now) (by simp only [ArgsOk, h])
  | .updateUsage => .isTrue (by simp only [ArgsOk, h])
  | .undelegateIncrease _ transferUsage =>
    decidable_of_iff (0 ≤ transferUsage) (by simp only [ArgsOk, h])

instance (decay : Decay) (w : World ι) (c : Call ι) : Decidable (Proper decay w c) :=
  decidable_of_iff (c.ArgsOk ∧ FitsI64 c.now ∧ w.now ≤ c.now ∧ ∀ u ∈ (c.trueUsage decay w).toOption, FitsI64 u)
    ⟨fun ⟨h₁, h₂, h₃, h₄⟩ => ⟨h₁, h₂, h₃, h₄⟩, fun ⟨h₁, h₂, h₃, h₄⟩ => ⟨h₁, h₂, h₃, h₄⟩⟩

instance (w : World ι) (c : Call ι) : Decidable (Forward w c) := inferInstanceAs (Decidable (_ ∨ _))

/-! ## One call -/

variable {decay : Decay} {w : World ι} {c : Call ι}

/-- What holds of every slot after proper calls. -/
structure Slot.Sane (now : Int) (s : Slot) : Prop where
  usage : 0 ≤ s.usage
  latest_nonneg : 0 ≤ s.latest
  latest_le : s.latest ≤ now
  window : s.WindowSane

structure World.Sane (w : World ι) : Prop where
  fits : FitsI64 w.now
  nonneg : 0 ≤ w.now
  slots : ∀ who kind, (slot (w.accounts who) kind).Sane w.now

theorem Updated.mono {gates : ResourceGates} {C : Prop} {kind : ResourceKind}
    {account account' : Account} {u l : Int} (h : Updated gates True kind account account' u l) :
    Updated gates C kind account account' u l :=
  ⟨h.other, h.usage, h.latest, h.kept.sane, h.kept.flag, fun _ => h.kept.bounded trivial⟩

/-- A call succeeds, returns at least what it charges, and replaces one slot. -/
structure Served (w : World ι) (c : Call ι) (account' : Account) (returned : Int) : Prop where
  charged : c.usageAmt + c.transferUsage ≤ returned
  updated : ∃ u l, 0 ≤ u ∧ 0 ≤ l ∧ l ≤ c.now ∧
    Updated c.gates (∀ who, (slot (w.accounts who) c.kind).Bounded) c.kind (w.accounts c.account)
      account' u l

theorem Proper.fits_newUsage (hc : Proper decay w c) {r : Charge}
    (h : charge decay (windowSize (w.accounts c.account) c.kind) (c.lastUsage w) c.usageAmt (c.lastTime w) c.now = .ok r) :
    FitsI64 (r.newUsage + c.transferUsage) := by
  apply hc.noOverflow
  rw [Call.trueUsage, h]
  rfl

theorem Call.result_spec (hw : w.Sane) (hc : Proper decay w c) :
    ∃ account' returned, c.result decay w = .ok (account', returned) ∧ Served w c account' returned := by
  obtain ⟨who, kind, now, gates, op⟩ := c
  have hover (r : Charge) := hc.fits_newUsage (r := r)
  obtain ⟨hargs, hfits, hle, -⟩ := hc
  obtain ⟨husage, hlatest, hlatest', hsane⟩ := hw.slots who kind
  have hstored : Args (usage (w.accounts who) kind) 0 (lastConsumeTime (w.accounts who) kind) now := by
    obtain ⟨-, hhi⟩ := hw.fits
    refine ⟨husage, Int.le_refl _, ⟨?_, ?_⟩, Int.le_trans hlatest' hle⟩
    · exact Int.le_trans (by decide) hlatest
    · exact Int.le_trans hlatest' hhi
  cases op with
  | increaseAccount lastUsage usageAmt lastTime =>
    obtain ⟨account', c, hcharge, hcharged, hok, hupdated⟩ :=
      increaseAccount_spec decay gates hsane hargs
    have hfit : FitsI64 c.newUsage := Int.add_zero c.newUsage ▸ hover c hcharge
    rw [wrapI64_of_fits hfit] at hok
    refine ⟨account', c.newUsage, hok, ?_, _, _, husage, hlatest, Int.le_trans hlatest' hle, hupdated.mono⟩
    have hle := hcharged.le_newUsage
    simp only [Call.usageAmt, Call.transferUsage]
    omega
  | updateUsage =>
    obtain ⟨account', c, hcharge, hcharged, hok, hupdated⟩ :=
      updateUsage_spec decay gates hsane hstored
    have hfit : FitsI64 c.newUsage := Int.add_zero c.newUsage ▸ hover c hcharge
    rw [wrapI64_of_fits hfit] at hupdated
    have hnew : 0 ≤ c.newUsage := hcharged.le_newUsage
    refine ⟨account', usage account' kind, ?_, ?_, c.newUsage, _, hnew, hlatest,
      Int.le_trans hlatest' hle, hupdated.mono⟩
    · simp only [Call.result, hok]
      rfl
    · have husage' : usage account' kind = c.newUsage := hupdated.usage
      rw [husage']
      exact hnew
  | undelegateIncrease receiver transferUsage =>
    have hamount : 0 ≤ transferUsage := hargs
    obtain ⟨account', c, hcharged, hok, hupdated⟩ :=
      undelegateIncrease_spec decay gates hsane (hw.slots receiver kind).window hstored hamount
        hover
    have hnew : 0 ≤ c.newUsage := hcharged.le_newUsage
    refine ⟨account', usage account' kind, ?_, ?_, c.newUsage + transferUsage, now, by omega,
      Int.le_trans hw.nonneg hle, Int.le_refl _, hupdated.other, hupdated.usage, hupdated.latest,
      hupdated.kept.sane, hupdated.kept.flag, fun h => hupdated.kept.bounded (h receiver)⟩
    · simp only [Call.result, hok]
      rfl
    · have husage' : usage account' kind = c.newUsage + transferUsage := hupdated.usage
      simp only [Call.usageAmt, Call.transferUsage, husage']
      omega

/-! ## Every sequence -/

variable [DecidableEq ι]

theorem slot_step {account' : Account} {returned : Int}
    (hok : c.result decay w = .ok (account', returned)) (who : ι) (kind : ResourceKind) :
    slot ((step decay w c).accounts who) kind =
      if who = c.account then slot account' kind else slot (w.accounts who) kind := by
  unfold step
  rw [hok]
  by_cases h : who = c.account
  · subst h
    simp
  · simp [h]

theorem now_step {account' : Account} {returned : Int}
    (hok : c.result decay w = .ok (account', returned)) : (step decay w c).now = c.now := by
  unfold step
  rw [hok]

omit [DecidableEq ι] in
theorem slot_start (who : ι) (kind : ResourceKind) : slot ((start ι).accounts who) kind = ⟨0, 0, 0, false⟩ := by
  cases kind <;> rfl

omit [DecidableEq ι] in
theorem World.Sane.start : (start ι).Sane := by
  refine ⟨⟨Int.neg_nonpos_of_nonneg (by decide), by simp [World.start]⟩, Int.le_refl _, fun who kind => ?_⟩
  rw [slot_start]
  exact ⟨Int.le_refl _, Int.le_refl _, Int.le_refl _, ⟨by decide, by decide⟩, fun _ => Int.le_refl _⟩

theorem World.Sane.step (hw : w.Sane) (hc : Proper decay w c) : (step decay w c).Sane := by
  obtain ⟨account', returned, hok, -, u, l, hu, hl, hl', hupdated⟩ := result_spec hw hc
  have hlater : ∀ {s : Slot}, s.Sane w.now → s.Sane c.now := fun h =>
    ⟨h.usage, h.latest_nonneg, Int.le_trans h.latest_le hc.le, h.window⟩
  refine ⟨by rw [now_step hok]; exact hc.fits, by rw [now_step hok]; exact Int.le_trans hw.nonneg hc.le,
    fun who kind => ?_⟩
  rw [slot_step hok, now_step hok]
  by_cases hwho : who = c.account
  · rw [if_pos hwho]
    by_cases hkind : kind = c.kind
    · subst hkind
      exact ⟨hupdated.usage ▸ hu, hupdated.latest ▸ hl, hupdated.latest ▸ hl', hupdated.kept.sane⟩
    · rw [hupdated.other kind hkind]
      exact hlater (hw.slots c.account kind)
  · rw [if_neg hwho]
    exact hlater (hw.slots who kind)

def World.Bounded (w : World ι) : Prop := ∀ who kind, (slot (w.accounts who) kind).Bounded

theorem World.Bounded.step (hw : w.Sane) (hb : w.Bounded) (hc : Proper decay w c)
    (hforward : Forward w c) : Bounded (step decay w c) := by
  obtain ⟨account', returned, hok, -, u, l, -, -, -, hupdated⟩ := result_spec hw hc
  intro who kind
  rw [slot_step hok]
  by_cases hwho : who = c.account
  · rw [if_pos hwho]
    by_cases hkind : kind = c.kind
    · subst hkind
      exact hupdated.kept.bounded (fun who => hb who c.kind) (hb c.account c.kind) hforward
    · rw [hupdated.other kind hkind]
      exact hb c.account kind
  · rw [if_neg hwho]
    exact hb who kind

end Calls

/-- **Resource windows.**  After proper calls on default accounts usage is not negative and windows can be read as at
least one block; every further proper call succeeds, so that nothing is divided by zero, and gives at least the usage
that it charges; and windows are in their range if every call was a forward one. -/
theorem windows_bounded (decay : Decay) {ι : Type} [DecidableEq ι] (calls : List (Call ι))
    (hcalls : Each (step decay) (start ι) (Proper decay) calls) :
    let w := after (step decay) (start ι) calls
    (∀ who kind, 0 ≤ usage (w.accounts who) kind ∧ 1 ≤ windowSize (w.accounts who) kind) ∧
    (∀ c, Proper decay w c → ∃ account returned, c.result decay w = .ok (account, returned) ∧
      c.usageAmt + c.transferUsage ≤ returned) ∧
    (Each (step decay) (start ι) Forward calls → ∀ who kind,
      windowSize (w.accounts who) kind ≤ 28800 ∧ 1 ≤ windowSizeV2 (w.accounts who) kind ∧
        windowSizeV2 (w.accounts who) kind ≤ 28800000) := by
  have hsane := History.invariant_each Sane.start (fun _ _ hw hc => hw.step hc) hcalls
  refine ⟨fun who kind => ?_, fun c hc => ?_, fun hforward who kind => ?_⟩
  · have hslot := hsane.slots who kind
    exact ⟨hslot.usage, hslot.window.size.1⟩
  · obtain ⟨account', returned, hok, hserved⟩ := result_spec hsane hc
    exact ⟨account', returned, hok, hserved.charged⟩
  · have hboth : Each (step decay) (start ι) (fun w c => Proper decay w c ∧ Forward w c) calls :=
      fun earlier c later heq => ⟨hcalls earlier c later heq, hforward earlier c later heq⟩
    have hstart : Bounded (start ι) := by
      intro who kind
      rw [slot_start]
      exact ⟨Int.le_refl _, by decide⟩
    have hw := History.invariant_each (I := fun w => Sane w ∧ Bounded w)
      ⟨Sane.start, hstart⟩
      (fun _ _ hw hc => ⟨hw.1.step hc.1, Bounded.step hw.1 hw.2 hc.1 hc.2⟩) hboth
    have hbounded := hw.2 who kind
    have hone := hbounded.sane.size.1
    obtain ⟨hlow, hup⟩ := hbounded.sizeV2
    exact ⟨hbounded.size_le, Int.le_trans (show (1 : Int) ≤ _ by omega) hlow, hup⟩

/-! ## Two sequences -/

namespace Sample

/-- Linear decay, rounded down. -/
def linear : Decay where
  decayed window delta average :=
    if 0 ≤ delta ∧ delta ≤ window then average * (window - delta) / window else 0
  nonneg := by
    intro window delta average h
    split
    · rename_i hd
      exact Int.ediv_nonneg (Int.mul_nonneg h (by omega)) (by omega)
    · exact Int.le_refl 0
  le := by
    intro window delta average h
    split
    · rename_i hd
      rcases Int.lt_or_eq_of_le (show 0 ≤ window by omega) with hpos | hzero
      · apply Int.ediv_le_of_le_mul hpos
        exact Int.mul_le_mul_of_nonneg_left (by omega) h
      · rw [← hzero, Int.ediv_zero]
        exact h
    · exact h

def blocks : ResourceGates := ⟨true, false⟩

def cancelAll : ResourceGates := ⟨true, true⟩

/-- A charge in blocks, one with the cancel-all proposal, a decay, and usage given back. -/
def calls : List (Call Bool) :=
  [⟨true, .energy, 10, blocks, .increaseAccount 0 5000 0⟩, ⟨true, .energy, 40, cancelAll, .increaseAccount 5000 700 10⟩,
    ⟨false, .energy, 50, cancelAll, .undelegateIncrease true 900⟩,
    ⟨false, .energy, 14450, cancelAll, .updateUsage⟩]

/-- The cancel-all proposal is on, off for one call that leaves a window of one block, and on again. -/
def back : List (Call Unit) :=
  [⟨(), .bandwidth, 0, cancelAll, .increaseAccount 0 0 0⟩,
    ⟨(), .bandwidth, 28799, blocks, .increaseAccount 1000000000 0 0⟩,
    ⟨(), .bandwidth, 28800, cancelAll, .increaseAccount 1000000000 0 28799⟩]

end Sample

open TronGoblin.Resource.Sample

theorem windows_bounded_sample :
    let w := after (step linear) (start Bool) calls
    usage (w.accounts false) .energy = 449 ∧ 1 ≤ windowSizeV2 (w.accounts false) .energy := by
  have hproper : Each (step linear) (start Bool) (Proper linear) calls := by
    refine .cons ?_ (.cons ?_ (.cons ?_ (.cons ?_ (History.each_nil _))))
    all_goals decide +kernel
  have hforward : Each (step linear) (start Bool) Forward calls := by
    refine .cons ?_ (.cons ?_ (.cons ?_ (.cons ?_ (History.each_nil _))))
    all_goals decide +kernel
  obtain ⟨-, -, hbounded⟩ := windows_bounded linear calls hproper
  exact ⟨by decide +kernel, (hbounded hforward false .energy).2.1⟩

/-- **A window in blocks, read in the V2 form.**  A call without the cancel-all proposal stores blocks
and leaves the mark of the V2 form; the next call with it takes them for thousandths of a block and
stores a negative window. -/
theorem window_below_range :
    Each (step linear) (start Unit) (Proper linear) back ∧
    windowSizeV2 ((after (step linear) (start Unit) back).accounts ()) .bandwidth = -999 := by
  constructor
  · refine .cons ?_ (.cons ?_ (.cons ?_ (History.each_nil _)))
    all_goals decide +kernel
  · decide +kernel

end TronGoblin.Resource
