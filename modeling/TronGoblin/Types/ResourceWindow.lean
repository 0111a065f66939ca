import TronGoblin.Lib.History
import TronGoblin.Lib.Rounding
import TronGoblin.Types.Resource

/-!
# Resource windows

* `Slot`: what an account stores for one resource; every mutator is an update of one slot.
* `charge_spec`: the usage after a charge against what was left and what was added.
* `Slot.WindowSane`, `Slot.Bounded`: a window that can be read, and one in the range of its form.
* `increaseAccount_spec`, `updateUsage_spec`, `undelegateIncrease_spec`: what each call does to a slot.
-/

namespace TronGoblin.Resource

open Rounding

open BigEndian (wrapI64)
open Checked (FitsI64 wrapI64_of_fits fits_wrapI64)

/-! ## Slots -/

structure Slot where
  usage : Int
  latest : Int
  window : Int
  optimized : Bool
  deriving DecidableEq

open Slot

def slot (account : Account) (kind : ResourceKind) : Slot :=
  ⟨usage account kind, lastConsumeTime account kind, (rawWindow account kind).1, (rawWindow account kind).2⟩

section Updates

variable (account : Account) (kind k : ResourceKind)

theorem slot_setNewWindowSize (v : Int) :
    slot (setNewWindowSize account kind v) k =
      if k = kind then { slot account kind with window := v } else slot account k := by
  obtain ⟨_, _, _, _, r⟩ := account
  cases r <;> cases kind <;> cases k <;> rfl

theorem slot_setWindowOptimized (b : Bool) :
    slot (setWindowOptimized account kind b) k =
      if k = kind then { slot account kind with optimized := b } else slot account k := by
  obtain ⟨_, _, _, _, r⟩ := account
  cases r <;> cases kind <;> cases k <;> rfl

theorem slot_setNewWindowSizeV2 (v : Int) :
    slot (setNewWindowSizeV2 account kind v) k =
      if k = kind then { slot account kind with window := v, optimized := true }
      else slot account k := by
  have hflag : windowOptimized (setNewWindowSize account kind v) kind =
      (slot (setNewWindowSize account kind v) kind).optimized := rfl
  rw [slot_setNewWindowSize, if_pos rfl] at hflag
  unfold setNewWindowSizeV2
  simp only [hflag]
  cases hopt : (slot account kind).optimized with
  | false =>
    rw [if_pos (by simp), slot_setWindowOptimized, slot_setNewWindowSize, slot_setNewWindowSize]
    split <;> simp_all
  | true =>
    rw [if_neg (by simp), slot_setNewWindowSize]
    split
    · rw [← hopt]
    · rfl

theorem slot_setUsageAt (newUsage now : Int) :
    slot (setUsageAt account kind newUsage now) k =
      if k = kind then { slot account kind with usage := newUsage, latest := now }
      else slot account k := by
  obtain ⟨_, _, _, _, r⟩ := account
  cases r <;> cases kind <;> cases k <;> rfl

theorem slot_setUsage (newUsage : Int) :
    slot (setUsage account kind newUsage) k =
      if k = kind then { slot account kind with usage := newUsage } else slot account k := by
  obtain ⟨_, _, _, _, r⟩ := account
  cases r <;> cases kind <;> cases k <;> rfl

end Updates

/-- The window can be read: a number that was not stored in the V2 form is not negative. -/
structure Slot.WindowSane (s : Slot) : Prop where
  fits : FitsI64 s.window
  nonneg : s.optimized = false → 0 ≤ s.window

/-- The window is in the range of its form; zero stands for the default. -/
def Slot.Bounded (s : Slot) : Prop :=
  if s.optimized then 1000 ≤ s.window ∧ s.window ≤ 28800000 else 0 ≤ s.window ∧ s.window ≤ 28800

variable {s : Slot}

theorem Slot.Bounded.sane (h : s.Bounded) : s.WindowSane := by
  unfold Bounded at h
  constructor
  · unfold FitsI64
    split at h <;> omega
  · intro hopt
    rw [if_neg (by simp [hopt])] at h
    exact h.1

/-! ## The two readings of a window -/

def Slot.size (s : Slot) : Int :=
  if s.window = 0 then 28800
  else if s.optimized then if s.window < 1000 then 28800 else s.window.tdiv 1000
  else s.window

def Slot.sizeV2 (s : Slot) : Int :=
  if s.window = 0 then 28800000 else if s.optimized then s.window else wrapI64 (s.window * 1000)

theorem windowSize_eq (account : Account) (kind : ResourceKind) :
    windowSize account kind = (slot account kind).size := rfl

theorem windowSizeV2_eq (account : Account) (kind : ResourceKind) :
    windowSizeV2 account kind = (slot account kind).sizeV2 := rfl

theorem tdiv_thousand {n : Int} (h : 0 ≤ n) : 1000 * n.tdiv 1000 ≤ n ∧ n < 1000 * n.tdiv 1000 + 1000 := by
  have hdiv := Int.mul_tdiv_add_tmod n 1000
  have hmod := Int.tmod_nonneg 1000 h
  have hlt := Int.tmod_lt_of_pos n (show (0 : Int) < 1000 by decide)
  omega

theorem Slot.WindowSane.size (h : s.WindowSane) : 1 ≤ s.size ∧ FitsI64 s.size := by
  obtain ⟨usage, latest, window, optimized⟩ := s
  obtain ⟨⟨hlo, hhi⟩, hnonneg⟩ := h
  simp only [size, FitsI64] at *
  cases optimized with
  | false =>
    have hwindow := hnonneg rfl
    simp only [Bool.false_eq_true, if_false]
    split <;> omega
  | true =>
    simp only [if_true]
    split
    · omega
    · split
      · omega
      · have hdiv := tdiv_thousand (show 0 ≤ window by omega)
        omega

theorem Slot.Bounded.sizeV2 (h : s.Bounded) : 1000 * s.size ≤ s.sizeV2 ∧ s.sizeV2 ≤ 28800000 := by
  obtain ⟨usage, latest, window, optimized⟩ := s
  simp only [Bounded, size, sizeV2] at *
  cases optimized with
  | false =>
    simp only [Bool.false_eq_true, if_false] at *
    have hwrap : wrapI64 (window * 1000) = window * 1000 := wrapI64_of_fits ⟨by omega, by omega⟩
    split <;> omega
  | true =>
    simp only [if_true] at *
    have hdiv := tdiv_thousand (show 0 ≤ window by omega)
    omega

theorem Slot.Bounded.size_le (h : s.Bounded) : s.size ≤ 28800 := by
  have := h.sizeV2
  omega

/-! ## Charges -/

theorem quot_pos {a b : Int} (hb : 0 < b) : quot a b = .ok (a.tdiv b) := by
  unfold quot
  rw [if_neg (by omega)]

theorem divCeil_pos {a b : Int} (hb : 0 < b) : divCeil a b = .ok (ceil a b) := by
  unfold divCeil
  rw [if_neg (by omega), quot_pos hb]
  rfl

/-- The time that has passed is less than the window. -/
structure Running (oldWindow lastTime now : Int) : Prop where
  nonneg : 0 ≤ now - lastTime
  lt : now - lastTime < oldWindow

theorem Running.wrap_eq {oldWindow lastTime now : Int} (h : Running oldWindow lastTime now)
    (hfits : FitsI64 oldWindow) : wrapI64 (now - lastTime) = now - lastTime := by
  obtain ⟨hnonneg, hlt⟩ := h
  obtain ⟨-, hhi⟩ := hfits
  exact wrapI64_of_fits ⟨by omega, by omega⟩

/-- The sum that the code compares `now` with may wrap, to a number below `now`. -/
theorem running_of_lt_wrap {oldWindow lastTime now : Int} (hw : 1 ≤ oldWindow)
    (hfits : FitsI64 oldWindow) (hlast : FitsI64 lastTime) (hle : lastTime ≤ now)
    (h : now < wrapI64 (lastTime + oldWindow)) : Running oldWindow lastTime now := by
  obtain ⟨hwlo, hwhi⟩ := hfits
  obtain ⟨hllo, hlhi⟩ := hlast
  refine ⟨by omega, ?_⟩
  by_cases hsum : lastTime + oldWindow ≤ 0x7fffffffffffffff
  · rw [wrapI64_of_fits ⟨by omega, hsum⟩] at h
    omega
  · exfalso
    have hwrap : wrapI64 (lastTime + oldWindow) = wrapI64 (lastTime + oldWindow - 0x10000000000000000) := by
      exact (Int.sub_bmod_right _ _).symm
    rw [hwrap, wrapI64_of_fits ⟨by omega, by omega⟩] at h
    omega

variable (decay : Decay) {oldWindow lastUsage usageAmt lastTime now : Int}

theorem averageLast_spec (hw : 1 ≤ oldWindow) (hfits : FitsI64 oldWindow) (hlast : FitsI64 lastTime)
    (hle : lastTime ≤ now) (husage : 0 ≤ lastUsage) :
    ∃ average, averageLast decay oldWindow lastUsage lastTime now = .ok average ∧ 0 ≤ average ∧
      (average ≠ 0 → Running oldWindow lastTime now) := by
  have hmul : 0 ≤ lastUsage * PRECISION := Int.mul_nonneg husage (by decide)
  have hceil : 0 ≤ ceil (lastUsage * PRECISION) oldWindow :=
    le_ceil (by omega) hmul (by omega)
  unfold averageLast
  rw [divCeil_pos (by omega)]
  by_cases heq : lastTime = now
  · refine ⟨_, by simp [heq, pure, Except.pure, bind, Except.bind], hceil, ?_⟩
    intro _
    exact ⟨by omega, by omega⟩
  · by_cases hlt : now < wrapI64 (lastTime + oldWindow)
    · refine ⟨decay.decayed oldWindow (wrapI64 (now - lastTime)) _, ?_, decay.nonneg _ _ _ hceil, ?_⟩
      · simp [heq, hlt, bind, Except.bind, applyDecay, show oldWindow ≠ 0 by omega]
      · intro _
        exact running_of_lt_wrap hw hfits hlast hle hlt
    · exact ⟨0, by simp [heq, hlt, pure, Except.pure, bind, Except.bind], by omega, by simp⟩

/-- What is left of the usage so far and what is added make the new usage, up to rounding. -/
structure Charged (oldWindow usageAmt lastTime now : Int) (c : Charge) : Prop where
  remain_nonneg : 0 ≤ c.remainUsage
  low : c.remainUsage + usageAmt ≤ c.newUsage
  high : c.newUsage ≤ c.remainUsage + usageAmt + 1
  idle : usageAmt = 0 → c.newUsage = c.remainUsage
  running : c.remainUsage ≠ 0 → Running oldWindow lastTime now

section

variable {c : Charge} (h : Charged oldWindow usageAmt lastTime now c)
include h

theorem Charged.le_newUsage : usageAmt ≤ c.newUsage :=
  Int.le_trans (Int.le_add_of_nonneg_left h.remain_nonneg) h.low

theorem Charged.newUsage_pos (hamount : 0 ≤ usageAmt) (hremain : c.remainUsage ≠ 0) : 0 < c.newUsage := by
  have hnonneg := h.remain_nonneg
  have hlow := h.low
  omega

end

theorem charge_spec (hw : 1 ≤ oldWindow) (hfits : FitsI64 oldWindow) (hlast : FitsI64 lastTime)
    (hle : lastTime ≤ now) (husage : 0 ≤ lastUsage) (hamt : 0 ≤ usageAmt) :
    ∃ c, charge decay oldWindow lastUsage usageAmt lastTime now = .ok c ∧
      Charged oldWindow usageAmt lastTime now c := by
  obtain ⟨last, hlast', hnonneg, hrunning⟩ := averageLast_spec decay hw hfits hlast hle husage
  have hmul : 0 ≤ usageAmt * PRECISION := Int.mul_nonneg hamt (by decide)
  have hceil := le_ceil_mul (b := WINDOW_SIZE_BLOCKS) (by decide) hmul
  have hprod : 0 ≤ last * oldWindow := Int.mul_nonneg hnonneg (by omega)
  have hprec : (0 : Int) < PRECISION := by decide
  refine ⟨⟨(last * oldWindow + ceil (usageAmt * PRECISION) WINDOW_SIZE_BLOCKS *
    WINDOW_SIZE_BLOCKS).tdiv PRECISION, (last * oldWindow).tdiv PRECISION⟩, ?_, ?_⟩
  · simp only [charge, getUsage2, getUsage, hlast', quot_pos hprec, divCeil_pos (show 0 < WINDOW_SIZE_BLOCKS by decide)]
    rfl
  · rw [Int.tdiv_eq_ediv_of_nonneg hprod, Int.tdiv_eq_ediv_of_nonneg (by omega)]
    simp only [PRECISION, WINDOW_SIZE_BLOCKS] at *
    constructor
    case running =>
      intro h
      apply hrunning
      rintro rfl
      simp at h
    all_goals
      dsimp only
      omega

/-- The new window is a mean of what is left of the old one and of a whole one, but for the rounding
of the new usage. -/
theorem Charged.mean {c : Charge} (h : Charged oldWindow usageAmt lastTime now c) (hamt : 0 ≤ usageAmt)
    (m M rest whole : Int) (hm : 0 ≤ m) (hrest : m ≤ rest ∧ rest ≤ M) (hwhole : 2 * m ≤ whole) (hM : whole ≤ M) :
    m * c.newUsage ≤ c.remainUsage * rest + usageAmt * whole ∧
      c.remainUsage * rest + usageAmt * whole ≤ M * c.newUsage := by
  constructor
  · have hlow := le_mean h.remain_nonneg hamt (show m ≤ rest from hrest.1)
      (show m ≤ whole by omega)
    by_cases hidle : usageAmt = 0
    · rw [h.idle hidle, hidle]
      rw [hidle] at hlow
      simpa using hlow
    · -- the amount is large enough to make up for the rounding
      have hdouble : usageAmt * (2 * m) ≤ usageAmt * whole :=
        Int.mul_le_mul_of_nonneg_left hwhole hamt
      have hrest' : c.remainUsage * m ≤ c.remainUsage * rest :=
        Int.mul_le_mul_of_nonneg_left hrest.1 h.remain_nonneg
      have hone : 1 * m ≤ usageAmt * m := Int.mul_le_mul_of_nonneg_right (by omega) hm
      have hnew : c.newUsage * m ≤ (c.remainUsage + usageAmt + 1) * m :=
        Int.mul_le_mul_of_nonneg_right h.high hm
      have htwo : usageAmt * (2 * m) = usageAmt * m + usageAmt * m := by
        rw [Int.two_mul, Int.mul_add]
      rw [Int.add_mul, Int.add_mul] at hnew
      rw [Int.mul_comm m]
      omega
  · have hup := mean_le h.remain_nonneg hamt hrest.2 hM
    have hlow : M * (c.remainUsage + usageAmt) ≤ M * c.newUsage :=
      Int.mul_le_mul_of_nonneg_left h.low (by omega)
    omega

/-! ## What a call does to a slot -/

/-- What a call keeps of the window: that it can be read; and its range, on a condition `C`, unless a
call without the cancel-all proposal has met a window that was stored with it. -/
structure Kept (gates : ResourceGates) (C : Prop) (s s' : Slot) : Prop where
  sane : s'.WindowSane
  flag : gates.supportAllowCancelAllUnfreezeV2 = false → s'.optimized = s.optimized
  bounded : C → s.Bounded → (gates.supportAllowCancelAllUnfreezeV2 = true ∨ s.optimized = false) → s'.Bounded

variable {gates : ResourceGates} {C : Prop}

theorem Kept.trans {s s' s'' : Slot} (h : Kept gates True s s') (h' : Kept gates C s' s'') : Kept gates C s s'' := by
  refine ⟨h'.sane, fun hgate => (h'.flag hgate).trans (h.flag hgate), fun hC hs hcase => ?_⟩
  apply h'.bounded hC (h.bounded trivial hs hcase)
  rcases hcase with hgate | hplain
  · exact .inl hgate
  · cases hgate : gates.supportAllowCancelAllUnfreezeV2 with
    | true => exact .inl rfl
    | false => exact .inr ((h.flag hgate).trans hplain)

/-- A call replaces one slot: its usage, its time, and a window that is kept. -/
structure Updated (gates : ResourceGates) (C : Prop) (kind : ResourceKind) (account account' : Account)
    (newUsage latest : Int) : Prop where
  other : ∀ k, k ≠ kind → slot account' k = slot account k
  usage : (slot account' kind).usage = newUsage
  latest : (slot account' kind).latest = latest
  kept : Kept gates C (slot account kind) (slot account' kind)

variable {account account' : Account} {kind : ResourceKind} {u l v : Int}

theorem Updated.trans {a₁ a₂ a₃ : Account} {u₁ l₁ : Int} (h : Updated gates True kind a₁ a₂ u₁ l₁)
    (h' : Updated gates C kind a₂ a₃ u l) : Updated gates C kind a₁ a₃ u l :=
  ⟨fun k hk => (h'.other k hk).trans (h.other k hk), h'.usage, h'.latest, h.kept.trans h'.kept⟩

theorem updated_of_slot {s' : Slot} (hslot : ∀ k, slot account' k = if k = kind then s' else slot account k)
    (h : Kept gates C (slot account kind) s') :
    Updated gates C kind account account' s'.usage s'.latest := by
  have hkind := hslot kind
  rw [if_pos rfl] at hkind
  refine ⟨fun k hk => ?_, by rw [hkind], by rw [hkind], by rwa [hkind]⟩
  rw [hslot, if_neg hk]

theorem kept_v2 (hgate : gates.supportAllowCancelAllUnfreezeV2 = true) (h : C → s.Bounded → 1000 ≤ v ∧ v ≤ 28800000) :
    Kept gates C s ⟨u, l, wrapI64 v, true⟩ := by
  refine ⟨⟨fits_wrapI64 v, fun hfalse => nomatch hfalse⟩, ?_, ?_⟩
  · intro hfalse
    rw [hgate] at hfalse
    cases hfalse
  · intro hC hs _
    obtain ⟨hlo, hhi⟩ := h hC hs
    rw [wrapI64_of_fits ⟨by omega, by omega⟩]
    exact ⟨hlo, hhi⟩

theorem kept_v1 (hgate : gates.supportAllowCancelAllUnfreezeV2 = false) (hpos : 0 ≤ v) (hfits : FitsI64 v)
    (h : C → s.Bounded → v ≤ 28800) : Kept gates C s ⟨u, l, wrapI64 v, s.optimized⟩ := by
  rw [wrapI64_of_fits hfits]
  refine ⟨⟨hfits, fun _ => hpos⟩, fun _ => rfl, ?_⟩
  intro hC hs hcase
  have hplain : s.optimized = false := by
    rcases hcase with htrue | hplain
    · rw [hgate] at htrue
      cases htrue
    · exact hplain
  rw [Bounded, if_neg (by simp [hplain])]
  exact ⟨hpos, h hC hs⟩

/-- The arguments of `increase_account`. -/
structure Args (lastUsage usageAmt lastTime now : Int) : Prop where
  usage : 0 ≤ lastUsage
  amount : 0 ≤ usageAmt
  fits : FitsI64 lastTime
  le : lastTime ≤ now

/-- The call has returned the new usage and has replaced the window. -/
def Increased (decay : Decay) (gates : ResourceGates) (account : Account) (kind : ResourceKind)
    (lastUsage usageAmt lastTime now : Int) (result : Except Fault (Account × Int)) : Prop :=
  ∃ account' c, charge decay (windowSize account kind) lastUsage usageAmt lastTime now = .ok c ∧
    Charged (windowSize account kind) usageAmt lastTime now c ∧
    result = .ok (account', wrapI64 c.newUsage) ∧
    Updated gates True kind account account' (usage account kind) (lastConsumeTime account kind)

theorem wrapI64_cap : WINDOW_SIZE_BLOCKS * WINDOW_SIZE_PRECISION = wrapI64 28800000 := by decide

theorem wrapI64_blocks : WINDOW_SIZE_BLOCKS = wrapI64 28800 := by decide

theorem increaseV2Account_spec (hgate : gates.supportAllowCancelAllUnfreezeV2 = true)
    (hs : (slot account kind).WindowSane) (ha : Args lastUsage usageAmt lastTime now) :
    Increased decay gates account kind lastUsage usageAmt lastTime now
      (increaseV2Account account kind decay lastUsage usageAmt lastTime now) := by
  obtain ⟨hpos, hfits⟩ := hs.size
  rw [← windowSize_eq] at hpos hfits
  obtain ⟨c, hc, hcharged⟩ := charge_spec decay hpos hfits ha.fits ha.le ha.usage ha.amount
  unfold increaseV2Account
  rw [hc]
  by_cases hremain : c.remainUsage = 0
  · refine ⟨_, c, hc, hcharged, by simp [hremain, bind, Except.bind, pure, Except.pure]; rfl, ?_⟩
    rw [wrapI64_cap]
    exact updated_of_slot (slot_setNewWindowSizeV2 account kind · _)
      (kept_v2 hgate fun _ _ => ⟨by omega, by omega⟩)
  · have hnew := hcharged.newUsage_pos ha.amount hremain
    refine ⟨_, c, hc, hcharged, by
      simp [hremain, bind, Except.bind, pure, Except.pure, divCeil_pos hnew]; rfl, ?_⟩
    refine updated_of_slot (slot_setNewWindowSizeV2 account kind · _)
      (kept_v2 hgate fun _ hbounded => ?_)
    have hrunning := hcharged.running hremain
    have hsize := hbounded.sizeV2
    have hle := hbounded.size_le
    rw [← windowSize_eq] at hsize hle
    rw [← windowSizeV2_eq] at hsize
    rw [hrunning.wrap_eq hfits]
    obtain ⟨hdelta, hlt⟩ := hrunning
    have hmean := hcharged.mean ha.amount 1000 28800000
      (windowSizeV2 account kind - (now - lastTime) * 1000) 28800000 (by omega) (by omega) (by omega) (by omega)
    have hmul : usageAmt * WINDOW_SIZE_BLOCKS * WINDOW_SIZE_PRECISION = usageAmt * 28800000 := by
      rw [Int.mul_assoc]
      rfl
    have hcap : WINDOW_SIZE_BLOCKS * WINDOW_SIZE_PRECISION = 28800000 := rfl
    have hprec : WINDOW_SIZE_PRECISION = 1000 := rfl
    rw [hmul, hcap, hprec]
    have hnum := Int.le_trans (Int.mul_nonneg (by omega) (Int.le_of_lt hnew)) hmean.1
    have hlow := le_ceil hnew hnum hmean.1
    split <;> omega

theorem increaseV1Account_spec (hgate : gates.supportAllowCancelAllUnfreezeV2 = false)
    (hs : (slot account kind).WindowSane) (ha : Args lastUsage usageAmt lastTime now) :
    Increased decay gates account kind lastUsage usageAmt lastTime now
      (increaseV1Account account kind decay lastUsage usageAmt lastTime now gates) := by
  obtain ⟨hpos, hfits⟩ := hs.size
  rw [← windowSize_eq] at hpos hfits
  obtain ⟨c, hc, hcharged⟩ := charge_spec decay hpos hfits ha.fits ha.le ha.usage ha.amount
  unfold increaseV1Account
  dsimp only
  rw [hc]
  by_cases hdelay : gates.supportUnfreezeDelay = false
  · exact ⟨account, c, hc, hcharged, by simp [hdelay, bind, Except.bind, pure, Except.pure],
      fun _ _ => rfl, rfl, rfl, hs, fun _ => rfl, fun _ h _ => h⟩
  · by_cases hremain : c.remainUsage = 0
    · refine ⟨_, c, hc, hcharged, by simp [hdelay, hremain, bind, Except.bind, pure, Except.pure]; rfl, ?_⟩
      rw [wrapI64_blocks]
      exact updated_of_slot (slot_setNewWindowSize account kind · _)
        (kept_v1 hgate (by omega) ⟨by omega, by omega⟩ fun _ _ => by omega)
    · have hnew := hcharged.newUsage_pos ha.amount hremain
      refine ⟨_, c, hc, hcharged, by
        simp [hdelay, hremain, bind, Except.bind, pure, Except.pure, getNewWindowSize,
          show c.newUsage ≠ 0 by omega, quot_pos hnew]; rfl, ?_⟩
      have hrunning := hcharged.running hremain
      rw [hrunning.wrap_eq hfits]
      obtain ⟨hdelta, hlt⟩ := hrunning
      obtain ⟨-, hhi⟩ := hfits
      rw [wrapI64_of_fits (n := windowSize account kind - (now - lastTime)) ⟨by omega, by omega⟩]
      have hmean := fun M hw hM => hcharged.mean ha.amount 1 M
        (windowSize account kind - (now - lastTime)) 28800 (by omega)
        ⟨by omega, hw⟩ (by omega) hM
      have hnum : 0 ≤ c.remainUsage * (windowSize account kind - (now - lastTime)) + usageAmt * WINDOW_SIZE_BLOCKS :=
        Int.le_trans (by omega) (hmean 0x7fffffffffffffff (by omega) (by omega)).1
      have hlow := le_tdiv (m := 0) hnew hnum (by omega)
      have hup := fun M hw hM => tdiv_le hnew hnum (hmean M hw hM).2
      have hup' := hup 0x7fffffffffffffff (by omega) (by omega)
      refine updated_of_slot (slot_setNewWindowSize account kind · _)
        (kept_v1 hgate hlow ⟨by omega, hup'⟩ fun _ hbounded => ?_)
      have hle := hbounded.size_le
      rw [← windowSize_eq] at hle
      exact hup 28800 (by omega) (by omega)

theorem increaseAccount_spec (gates : ResourceGates) (hs : (slot account kind).WindowSane)
    (ha : Args lastUsage usageAmt lastTime now) :
    Increased decay gates account kind lastUsage usageAmt lastTime now
      (increaseAccount account kind decay lastUsage usageAmt lastTime now gates) := by
  unfold increaseAccount
  cases hgate : gates.supportAllowCancelAllUnfreezeV2 with
  | true => exact increaseV2Account_spec decay hgate hs ha
  | false => exact increaseV1Account_spec decay hgate hs ha

/-! ## The other calls -/

theorem updateUsage_spec (gates : ResourceGates) (hs : (slot account kind).WindowSane)
    (ha : Args (usage account kind) 0 (lastConsumeTime account kind) now) :
    ∃ account' c, charge decay (windowSize account kind) (usage account kind) 0
        (lastConsumeTime account kind) now = .ok c ∧
      Charged (windowSize account kind) 0 (lastConsumeTime account kind) now c ∧
      updateUsage account kind decay now gates = .ok account' ∧
      Updated gates True kind account account' (wrapI64 c.newUsage) (lastConsumeTime account kind) := by
  obtain ⟨account₁, c, hc, hcharged, hok, hupdated⟩ := increaseAccount_spec decay gates hs ha
  refine ⟨setUsage account₁ kind (wrapI64 c.newUsage), c, hc, hcharged, ?_, ?_⟩
  · unfold updateUsage
    rw [hok]
    rfl
  · refine ⟨fun k hk => ?_, ?_, ?_, ?_⟩
    · rw [slot_setUsage, if_neg hk, hupdated.other k hk]
    · rw [slot_setUsage, if_pos rfl]
    · rw [slot_setUsage, if_pos rfl, hupdated.latest]
    · rw [slot_setUsage, if_pos rfl]
      obtain ⟨⟨hfits, hnonneg⟩, hflag, hbounded⟩ := hupdated.kept
      exact ⟨⟨hfits, hnonneg⟩, hflag, hbounded⟩

theorem slot_setV2_setUsageAt (v newUsage : Int) (k : ResourceKind) :
    slot (setUsageAt (setNewWindowSizeV2 account kind v) kind newUsage now) k =
      if k = kind then ⟨newUsage, now, v, true⟩ else slot account k := by
  rw [slot_setUsageAt, slot_setNewWindowSizeV2, slot_setNewWindowSizeV2, if_pos rfl]
  split <;> rfl

theorem slot_setV1_setUsageAt (v newUsage : Int) (k : ResourceKind) :
    slot (setUsageAt (setNewWindowSize account kind v) kind newUsage now) k =
      if k = kind then ⟨newUsage, now, v, (slot account kind).optimized⟩ else slot account k := by
  rw [slot_setUsageAt, slot_setNewWindowSize, slot_setNewWindowSize, if_pos rfl]
  split <;> rfl

variable {owner receiver : Account} {ownerUsage transferUsage : Int}

/-- The V2 window of an owner that gets usage back is a mean of the owner's and the receiver's. -/
theorem giveBackV2_spec (kind : ResourceKind) (owner receiver : Account) (now : Int)
    (hgate : gates.supportAllowCancelAllUnfreezeV2 = true) (hown : 0 ≤ ownerUsage) (ht : 0 ≤ transferUsage)
    (hfits : FitsI64 (ownerUsage + transferUsage)) :
    ∃ owner', giveBackV2 kind owner receiver ownerUsage transferUsage now = .ok owner' ∧
      Updated gates (slot receiver kind).Bounded kind owner owner' (ownerUsage + transferUsage)
        now := by
  unfold giveBackV2
  rw [wrapI64_of_fits hfits]
  by_cases hzero : ownerUsage + transferUsage = 0
  · rw [hzero, wrapI64_cap]
    exact ⟨_, rfl, updated_of_slot (slot_setV2_setUsageAt _ _ ·) (kept_v2 hgate fun _ _ => ⟨by omega, by omega⟩)⟩
  · have hpos : 0 < ownerUsage + transferUsage := by omega
    simp only [if_neg hzero, divCeil_pos hpos]
    refine ⟨_, rfl, updated_of_slot (slot_setV2_setUsageAt _ _ ·) (kept_v2 hgate fun hr ho => ?_)⟩
    have hsize := ho.sizeV2
    have hsize' := hr.sizeV2
    have hone := ho.sane.size.1
    have hone' := hr.sane.size.1
    rw [← windowSizeV2_eq] at hsize hsize'
    have hcap : WINDOW_SIZE_BLOCKS * WINDOW_SIZE_PRECISION = 28800000 := rfl
    rw [hcap, Int.max_eq_left (by omega), Int.max_eq_left (by omega)]
    have hlow := le_mean hown ht (show 1000 ≤ windowSizeV2 owner kind by omega)
      (show 1000 ≤ windowSizeV2 receiver kind by omega)
    have hnum := Int.le_trans (Int.mul_nonneg (by omega) (Int.le_of_lt hpos)) hlow
    have hge := le_ceil hpos hnum hlow
    split <;> omega

/-- The window in blocks is a mean as well. -/
theorem giveBackV1_spec (kind : ResourceKind) (owner receiver : Account) (now : Int)
    (hgate : gates.supportAllowCancelAllUnfreezeV2 = false)
    (ho : (slot owner kind).WindowSane) (hr : (slot receiver kind).WindowSane) (hown : 0 ≤ ownerUsage)
    (ht : 0 ≤ transferUsage) (hfits : FitsI64 (ownerUsage + transferUsage)) :
    ∃ owner', giveBackV1 kind owner receiver ownerUsage transferUsage now = .ok owner' ∧
      Updated gates (slot receiver kind).Bounded kind owner owner' (ownerUsage + transferUsage)
        now := by
  unfold giveBackV1
  rw [wrapI64_of_fits hfits]
  by_cases hzero : ownerUsage + transferUsage = 0
  · rw [hzero, wrapI64_blocks]
    exact ⟨_, rfl, updated_of_slot (slot_setV1_setUsageAt _ _ ·)
      (kept_v1 hgate (by omega) ⟨by omega, by omega⟩ fun _ _ => by omega)⟩
  · have hpos : 0 < ownerUsage + transferUsage := by omega
    obtain ⟨hone, -, hhi⟩ := ho.size
    obtain ⟨hone', -, hhi'⟩ := hr.size
    simp only [if_neg hzero, getNewWindowSize, quot_pos hpos, windowSize_eq]
    rw [Int.max_eq_left (by omega), Int.max_eq_left (by omega)]
    have hlow := le_mean hown ht hone hone'
    have hnum := Int.le_trans (Int.mul_nonneg (by omega) (Int.le_of_lt hpos)) hlow
    have hge := le_tdiv (m := 0) hpos hnum (by omega)
    have hup := tdiv_le hpos hnum (mean_le hown ht hhi hhi')
    refine ⟨_, rfl, updated_of_slot (slot_setV1_setUsageAt _ _ ·) (kept_v1 hgate hge ⟨by omega, hup⟩ fun hr' ho' => ?_)⟩
    exact tdiv_le hpos hnum (mean_le hown ht ho'.size_le hr'.size_le)

/-- **Usage that is given back is added to the owner's, and keeps the window.** -/
theorem undelegateIncrease_spec (gates : ResourceGates) (ho : (slot owner kind).WindowSane)
    (hr : (slot receiver kind).WindowSane)
    (ha : Args (usage owner kind) 0 (lastConsumeTime owner kind) now) (ht : 0 ≤ transferUsage)
    (hfits : ∀ c, charge decay (windowSize owner kind) (usage owner kind) 0
      (lastConsumeTime owner kind) now = .ok c → FitsI64 (c.newUsage + transferUsage)) :
    ∃ owner' c, Charged (windowSize owner kind) 0 (lastConsumeTime owner kind) now c ∧
      undelegateIncrease kind decay owner receiver transferUsage now gates = .ok owner' ∧
      Updated gates (slot receiver kind).Bounded kind owner owner' (c.newUsage + transferUsage)
        now := by
  obtain ⟨owner₁, c, hc, hcharged, hok, hupdated⟩ := increaseAccount_spec decay gates ho ha
  have hown : 0 ≤ c.newUsage := hcharged.le_newUsage
  have hfit := hfits c hc
  have hwrap : wrapI64 c.newUsage = c.newUsage := by
    obtain ⟨-, hhi⟩ := hfit
    exact wrapI64_of_fits ⟨by omega, by omega⟩
  rw [hwrap] at hok
  unfold undelegateIncrease ownerIncrease
  rw [hok]
  cases hgate : gates.supportAllowCancelAllUnfreezeV2 with
  | true =>
    obtain ⟨owner', hok', hupdated'⟩ := giveBackV2_spec kind owner₁ receiver now hgate hown ht hfit
    exact ⟨owner', c, hcharged, hok', hupdated.trans hupdated'⟩
  | false =>
    obtain ⟨owner', hok', hupdated'⟩ := giveBackV1_spec kind owner₁ receiver now hgate
      hupdated.kept.sane hr hown ht hfit
    exact ⟨owner', c, hcharged, hok', hupdated.trans hupdated'⟩

end TronGoblin.Resource
