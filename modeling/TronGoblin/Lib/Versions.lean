import Mathlib.Data.Nat.Init
import Mathlib.Order.Nat

/-!
# Versioned values

A value `v h` that changes with the height `h`, and a table `f` of versions: `f r = some w` says that
`w` was recorded at height `r`.  A read at `H` returns the newest version at or below `H`, and the
current value where there is none.

* `newest`: the newest version at or below a height.
* `Serves f b n v`: every read at a height from `b` to `n` is right.
* `Records f b n v`: how a table that is written as the value changes looks like: right versions, one
  for every change, and one at `b` as soon as there is any.  `Records.serves` reads it.
* `Serves.repin`, `Serves.pin`, `Serves.push`, `Serves.idle`: what keeps reads right.
* `Records.extend`, `Records.restrict`, `Records.rebase`: the value goes on, is taken back, and its old
  versions are dropped.
-/

namespace Versions

open Option

variable {V : Type}

def newest (f : Nat → Option V) : Nat → Option V
  | 0 => f 0
  | H + 1 => (f (H + 1)).or (newest f H)

variable {f f' : Nat → Option V} {b c n H r : Nat} {v v' : Nat → V} {w : V}

theorem newest_of_some (h : f H = some w) : newest f H = some w := by
  cases H with
  | zero => exact h
  | succ H => rw [newest, h, some_or]

theorem newest_eq_none : newest f H = none ↔ ∀ r, r ≤ H → f r = none := by
  induction H with
  | zero =>
    constructor
    · rintro h r hr
      rwa [Nat.le_zero.1 hr]
    · exact fun h => h 0 le_rfl
  | succ H ih =>
    rw [newest, or_eq_none_iff, ih]
    constructor
    · rintro ⟨htop, hlow⟩ r hr
      rcases Nat.le_succ_iff.1 hr with hr | rfl
      · exact hlow r hr
      · exact htop
    · exact fun h => ⟨h _ le_rfl, fun r hr => h r (Nat.le_succ_of_le hr)⟩

theorem newest_of_gap (hr : r ≤ H) (h : ∀ g, r < g → g ≤ H → f g = none) : newest f H = newest f r := by
  induction H, hr using Nat.le_induction with
  | base => rfl
  | succ H hr ih =>
    rw [newest, h (H + 1) (Nat.lt_succ_of_le hr) le_rfl, none_or]
    exact ih fun g hg hgH => h g hg (Nat.le_succ_of_le hgH)

theorem newest_of_last (hr : r ≤ H) (hf : f r = some w) (h : ∀ g, r < g → g ≤ H → f g = none) :
    newest f H = some w := by
  rw [newest_of_gap hr h, newest_of_some hf]

theorem newest_congr (h : ∀ r, r ≤ H → f r = f' r) : newest f H = newest f' H := by
  induction H with
  | zero => exact h 0 le_rfl
  | succ H ih => rw [newest, newest, h _ le_rfl, ih fun r hr => h r (Nat.le_succ_of_le hr)]

theorem exists_of_newest (h : newest f H = some w) : ∃ r, r ≤ H ∧ f r = some w ∧ ∀ g, r < g → g ≤ H → f g = none := by
  induction H with
  | zero => exact ⟨0, le_rfl, h, fun g hg hgH => absurd hgH (Nat.not_le_of_lt hg)⟩
  | succ H ih =>
    cases htop : f (H + 1) with
    | some u =>
      rw [newest_of_some htop] at h
      exact ⟨H + 1, le_rfl, by rw [htop, h], fun g hg hgH => absurd hgH (Nat.not_le_of_lt hg)⟩
    | none =>
      rw [newest, htop, none_or] at h
      obtain ⟨r, hr, hf, hgap⟩ := ih h
      refine ⟨r, Nat.le_succ_of_le hr, hf, fun g hg hgH => ?_⟩
      rcases Nat.le_succ_iff.1 hgH with hgH | rfl
      · exact hgap g hg hgH
      · exact htop

/-- Versions at or below `c` do not matter once they agree on what is newest there. -/
theorem newest_of_above (hc : c ≤ H) (habove : ∀ g, c < g → f' g = f g) :
    newest f' H = newest f H ∨ newest f' H = newest f' c ∧ newest f H = newest f c := by
  induction H, hc using Nat.le_induction with
  | base => exact .inr ⟨rfl, rfl⟩
  | succ H hc ih =>
    rw [newest, newest, habove (H + 1) (Nat.lt_succ_of_le hc)]
    cases htop : f (H + 1) with
    | some u => exact .inl rfl
    | none => simpa only [none_or] using ih

/-! ## Right reads -/

/-- Every read from `b` to `n` is right. -/
def Serves (f : Nat → Option V) (b n : Nat) (v : Nat → V) : Prop :=
  ∀ H, b ≤ H → H ≤ n → (newest f H).getD (v n) = v H

theorem Serves.mono (h : Serves f b n v) (hbc : b ≤ c) : Serves f c n v :=
  fun H hH hHn => h H (hbc.trans hH) hHn

/-- A version found at or below `c`, with none between, is the value at `c`. -/
theorem Serves.eq_of_last (h : Serves f c n v) (hcn : c ≤ n) (hr : r ≤ c) (hf : f r = some w)
    (hgap : ∀ g, r < g → g ≤ c → f g = none) : w = v c := by
  have hread := h c le_rfl hcn
  rwa [newest_of_last hr hf hgap] at hread

/-- **A version at the lowest height read stands for all older ones.** -/
theorem Serves.repin (h : Serves f c n v) (hcn : c ≤ n) (habove : ∀ g, c < g → f' g = f g)
    (hpin : f' c = some (v c)) : Serves f' c n v := by
  intro H hcH hHn
  rcases newest_of_above hcH habove with hsame | ⟨hnew, hold⟩
  · rw [hsame]
    exact h H hcH hHn
  · -- nothing was written from `c` to `H`, so both reads are the read at `c`
    rw [hnew, newest_of_some hpin, getD_some, ← h c le_rfl hcn, ← hold]
    exact h H hcH hHn

theorem Serves.push (h : Serves f b n v) (hb : f b ≠ none) (hold : ∀ g, g ≤ n → f' g = f g)
    (hnew : f' (n + 1) = some (v' (n + 1))) (hv : ∀ g, g ≤ n → v' g = v g) : Serves f' b (n + 1) v' := by
  intro H hbH hHn
  rcases Nat.le_succ_iff.1 hHn with hHn | rfl
  · have hread := h H hbH hHn
    rw [newest_congr fun g hg => hold g (hg.trans hHn), hv H hHn]
    cases hnewest : newest f H with
    | some w =>
      rw [hnewest] at hread
      exact hread
    | none => exact absurd (newest_eq_none.1 hnewest b hbH) hb
  · rw [newest_of_some hnew, getD_some]

theorem Serves.idle (h : Serves f b n v) (hbn : b ≤ n) (hf : f (n + 1) = none)
    (hv : ∀ g, g ≤ n → v' g = v g) (hstay : v' (n + 1) = v n) : Serves f b (n + 1) v' := by
  intro H hbH hHn
  rw [hstay]
  rcases Nat.le_succ_iff.1 hHn with hHn | rfl
  · rw [hv H hHn]
    exact h H hbH hHn
  · rw [newest, hf, none_or, hstay]
    exact h n hbn le_rfl

/-! ## Tables written as the value changes -/

/-- The versions from `b` on are right, every change has one, and there is one at `b` as soon as there
is any. -/
structure Records (f : Nat → Option V) (b n : Nat) (v : Nat → V) : Prop where
  value : ∀ r w, b ≤ r → f r = some w → r ≤ n ∧ w = v r
  steady : ∀ H, b ≤ H → H < n → f (H + 1) = none → v (H + 1) = v H
  based : ∀ r, f r ≠ none → f b ≠ none

/-- Without a version from `a` to `H` the value does not change. -/
theorem Records.eq_of_gap (h : Records f b n v) {a : Nat} (hba : b ≤ a) (haH : a ≤ H) (hHn : H ≤ n)
    (hgap : ∀ g, a < g → g ≤ H → f g = none) : v H = v a := by
  induction H, haH using Nat.le_induction with
  | base => rfl
  | succ H haH ih =>
    rw [h.steady H (hba.trans haH) hHn (hgap (H + 1) (Nat.lt_succ_of_le haH) le_rfl)]
    exact ih (Nat.le_of_succ_le hHn) fun g hg hgH => hgap g hg (Nat.le_succ_of_le hgH)

theorem Records.serves (h : Records f b n v) : Serves f b n v := by
  intro H hbH hHn
  cases hnewest : newest f H with
  | some w =>
    obtain ⟨r, hr, hf, hgap⟩ := exists_of_newest hnewest
    have hbr : b ≤ r := by
      by_contra hlt
      exact h.based r (by simp [hf]) (hgap b (Nat.lt_of_not_le hlt) hbH)
    rw [getD_some, (h.value r w hbr hf).2, h.eq_of_gap hbr hr hHn hgap]
  | none =>
    have hb : f b = none := newest_eq_none.1 hnewest b hbH
    have hnone : ∀ g, f g = none := fun g => by
      by_contra hg
      exact h.based g hg hb
    rw [getD_none, h.eq_of_gap hbH hHn le_rfl fun g _ _ => hnone g]

theorem Records.start (hf : ∀ r, f r = none) : Records f b b v where
  value r w _ hr := by rw [hf r] at hr; cases hr
  steady H hbH hH := absurd hH (Nat.not_lt_of_le hbH)
  based r hr := absurd (hf r) hr

variable (h : Records f b n v)
include h

/-- **The value goes on to `n'`, with right versions for its changes.** -/
theorem Records.extend {n' : Nat} (hnn : n ≤ n') (hv : ∀ g, b ≤ g → g ≤ n → v' g = v g)
    (hold : ∀ g, f g ≠ none → f' g = f g ∨ g = b)
    (hnew : ∀ g w, b ≤ g → f' g = some w → f g = some w ∨ g ≤ n' ∧ w = v' g)
    (hchange : ∀ g, b ≤ g → n ≤ g → g < n' → f' (g + 1) = none → v' (g + 1) = v' g)
    (hbase : ∀ g, f' g ≠ none → f' b ≠ none) : Records f' b n' v' where
  value r w hbr hr := by
    rcases hnew r w hbr hr with hf | hw
    · obtain ⟨hrn, rfl⟩ := h.value r w hbr hf
      exact ⟨hrn.trans hnn, (hv r hbr hrn).symm⟩
    · exact hw
  steady H hbH hHn hH := by
    rcases Nat.lt_or_ge H n with hlt | hge
    · have hf : f (H + 1) = none := by
        by_contra hne
        rcases hold _ hne with heq | heq
        · exact hne (heq ▸ hH)
        · omega
      rw [hv _ (Nat.le_succ_of_le hbH) hlt, hv _ hbH hlt.le]
      exact h.steady H hbH hlt hf
    · exact hchange H hbH hge hHn hH
  based := hbase

/-- **The value is taken back to `a`, with the versions above it.** -/
theorem Records.restrict {a : Nat} (han : a ≤ n) (hkeep : ∀ r, b < r → r ≤ a → f' r = f r)
    (hdrop : ∀ r, a < r → f' r = none) (hsub : ∀ r w, f' r = some w → f r = some w)
    (hbase : ∀ r, f' r ≠ none → f' b ≠ none) : Records f' b a v where
  value r w hbr hr := by
    refine ⟨Nat.le_of_not_lt fun har => ?_, (h.value r w hbr (hsub r w hr)).2⟩
    rw [hdrop r har] at hr
    cases hr
  steady H hbH hHa hH := by
    rw [hkeep (H + 1) (Nat.lt_succ_of_le hbH) hHa] at hH
    exact h.steady H hbH (Nat.lt_of_lt_of_le hHa han) hH
  based := hbase

/-- **The versions older than `c` are dropped, all but the value at `c`.** -/
theorem Records.rebase (hbc : b ≤ c) (hcn : c ≤ n) (habove : ∀ r, c < r → f' r = f r)
    (hpin : ∀ w, f' c = some w → w = v c) (hbase : ∀ r, f' r ≠ none → f' c ≠ none) : Records f' c n v where
  value r w hcr hr := by
    rcases Nat.lt_or_eq_of_le hcr with hlt | rfl
    · rw [habove r hlt] at hr
      exact h.value r w (hbc.trans hcr) hr
    · exact ⟨hcn, hpin w hr⟩
  steady H hcH hHn hH := by
    rw [habove (H + 1) (Nat.lt_succ_of_le hcH)] at hH
    exact h.steady H (hbc.trans hcH) hHn hH
  based := hbase

end Versions
