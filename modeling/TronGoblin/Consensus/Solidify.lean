import Mathlib.Data.List.Sort

/-!
# The solidified number

Model of `tron-consensus/src/solidify.rs`.  The number that has become final is an order statistic of the numbers of
the blocks that the active witnesses have produced last.

* `solidBlockFromWitnesses`: the pick.
* `length_sub_le_countP`, `countP_le_length_sub`: how many entries are at least the one at a position of a sorted
  list.
* `solid_has_majority`: the pick is the greatest number with the majority, does not depend on the order of the
  witnesses and does not fall.
-/

namespace TronGoblin

open List

def SOLIDIFIED_THRESHOLD_PCT : Nat := 70

def solidBlockFromWitnesses (latestBlockNums : List Int) : Option Int :=
  (latestBlockNums.mergeSort (· ≤ ·))[latestBlockNums.length * (100 - SOLIDIFIED_THRESHOLD_PCT) / 100]?

/-! ## Positions of a sorted list -/

section Sorted

variable {l : List Int} {k : Nat} {r : Int}

variable (hl : l.Pairwise (· ≤ ·))
include hl

variable (h : l[k]? = some r)
include h

/-- What stands before and after a position. -/
theorem exists_split :
    ∃ front back, l = front ++ r :: back ∧ front.length = k ∧ (∀ x ∈ front, x ≤ r) ∧ ∀ x ∈ back, r ≤ x := by
  obtain ⟨hk, rfl⟩ := List.getElem?_eq_some_iff.1 h
  have hsplit : l = l.take k ++ l[k] :: l.drop (k + 1) := by
    rw [← drop_eq_getElem_cons hk, take_append_drop]
  refine ⟨l.take k, l.drop (k + 1), hsplit, length_take_of_le (Nat.le_of_lt hk), ?_⟩
  rw [hsplit, pairwise_append, pairwise_cons] at hl
  obtain ⟨-, ⟨hback, -⟩, hfront⟩ := hl
  exact ⟨fun x hx => hfront x hx _ mem_cons_self, hback⟩

theorem length_sub_le_countP : l.length - k ≤ l.countP (r ≤ ·) := by
  obtain ⟨front, back, rfl, rfl, -, hback⟩ := exists_split hl h
  have hall : (r :: back).countP (r ≤ ·) = (r :: back).length := by
    rw [countP_eq_length]
    intro x hx
    rcases mem_cons.1 hx with rfl | hx
    · simp
    · simpa using hback x hx
  rw [countP_append, hall, length_append]
  omega

theorem countP_le_length_sub {x : Int} (hx : r < x) : l.countP (x ≤ ·) ≤ l.length - (k + 1) := by
  obtain ⟨front, back, rfl, rfl, hfront, -⟩ := exists_split hl h
  have hnone : front.countP (x ≤ ·) = 0 := by
    rw [countP_eq_zero]
    intro y hy
    have := hfront y hy
    simpa using by omega
  have hback : back.countP (x ≤ ·) ≤ back.length := countP_le_length
  have hr : decide (x ≤ r) = false := by simpa using hx
  rw [countP_append, hnone, countP_cons, hr, length_append, length_cons]
  simp only [Bool.false_eq_true, if_false]
  omega

end Sorted

/-! ## The pick -/

/-- At least 70 percent of the witnesses, rounded up, have reached the number. -/
def HasMajority (latestBlockNums : List Int) (r : Int) : Prop :=
  (latestBlockNums.length * SOLIDIFIED_THRESHOLD_PCT + 99) / 100 ≤ latestBlockNums.countP (r ≤ ·)

section Pick

variable {nums : List Int} {r : Int}

theorem sorted_pairwise (nums : List Int) : (nums.mergeSort (· ≤ ·)).Pairwise (· ≤ ·) := by
  have h : (nums.mergeSort fun a b => decide (a ≤ b)).Pairwise fun a b => decide (a ≤ b) = true := by
    refine pairwise_mergeSort (fun a b c hab hbc => ?_) (fun a b => ?_) nums
    · simp only [decide_eq_true_eq] at *
      omega
    · simpa using Int.le_total a b
  exact h.imp fun hab => of_decide_eq_true hab

theorem countP_sorted (nums : List Int) (x : Int) : (nums.mergeSort (· ≤ ·)).countP (x ≤ ·) = nums.countP (x ≤ ·) :=
  (mergeSort_perm nums _).countP_eq _

theorem exists_solid (h : nums ≠ []) : ∃ r, solidBlockFromWitnesses nums = some r := by
  have hpos : 0 < nums.length := length_pos_iff.2 h
  refine ⟨_, List.getElem?_eq_getElem ?_⟩
  rw [length_mergeSort]
  unfold SOLIDIFIED_THRESHOLD_PCT
  omega

section

variable (h : solidBlockFromWitnesses nums = some r)
include h

theorem hasMajority_of_solid : HasMajority nums r := by
  have hcount := length_sub_le_countP (sorted_pairwise nums) h
  rw [length_mergeSort, countP_sorted] at hcount
  unfold HasMajority SOLIDIFIED_THRESHOLD_PCT
  unfold SOLIDIFIED_THRESHOLD_PCT at hcount
  omega

theorem le_of_hasMajority {x : Int} (hx : HasMajority nums x) (hne : nums ≠ []) : x ≤ r := by
  by_contra hlt
  have hpos : 0 < nums.length := length_pos_iff.2 hne
  have hcount := countP_le_length_sub (sorted_pairwise nums) h (Int.not_le.1 hlt)
  rw [length_mergeSort, countP_sorted] at hcount
  unfold HasMajority SOLIDIFIED_THRESHOLD_PCT at hx
  unfold SOLIDIFIED_THRESHOLD_PCT at hcount
  omega

end

theorem HasMajority.mono {nums' : List Int} (h : HasMajority nums r) (hle : List.Forall₂ (· ≤ ·) nums nums') :
    HasMajority nums' r := by
  have hcount : nums.countP (r ≤ ·) ≤ nums'.countP (r ≤ ·) := by
    clear h
    induction hle with
    | nil => exact Nat.le_refl 0
    | @cons a b l l' hab hle ih =>
      rw [countP_cons, countP_cons]
      have hhead : (if decide (r ≤ a) = true then 1 else 0) ≤ if decide (r ≤ b) = true then 1 else 0 := by
        simp only [decide_eq_true_eq]
        split <;> split <;> omega
      omega
  unfold HasMajority at *
  rw [← hle.length_eq]
  omega

end Pick

/-- **The solidified number.**  It is the greatest of the numbers that 70 percent of the witnesses have reached; it
does not depend on the order of the witnesses, and does not fall when some of them go on. -/
theorem solid_has_majority (nums : List Int) (hne : nums ≠ []) :
    ∃ r, solidBlockFromWitnesses nums = some r ∧ r ∈ nums ∧ HasMajority nums r ∧
      (∀ x ∈ nums, r < x → ¬ HasMajority nums x) ∧
      (∀ nums' : List Int, nums'.Perm nums → solidBlockFromWitnesses nums' = some r) ∧
      ∀ nums' : List Int, List.Forall₂ (· ≤ ·) nums nums' → ∃ r', solidBlockFromWitnesses nums' = some r' ∧ r ≤ r' := by
  obtain ⟨r, hr⟩ := exists_solid hne
  have hmajority := hasMajority_of_solid hr
  refine ⟨r, hr, ?_, hmajority, fun x _ hlt hx => ?_, fun nums' hperm => ?_, fun nums' hle => ?_⟩
  · exact mem_mergeSort.1 (mem_of_getElem? hr)
  · exact absurd (le_of_hasMajority hr hx hne) (Int.not_le.2 hlt)
  · have hsorted : nums'.mergeSort (· ≤ ·) = nums.mergeSort (· ≤ ·) :=
      (((mergeSort_perm nums' _).trans hperm).trans (mergeSort_perm nums _).symm).eq_of_pairwise
        (fun a b _ _ hab hba => Int.le_antisymm hab hba) (sorted_pairwise nums') (sorted_pairwise nums)
    rw [solidBlockFromWitnesses, hsorted, hperm.length_eq]
    exact hr
  · have hne' : nums' ≠ [] := by
      rintro rfl
      cases hle
      exact hne rfl
    obtain ⟨r', hr'⟩ := exists_solid hne'
    exact ⟨r', hr', le_of_hasMajority hr' (hmajority.mono hle) hne'⟩

theorem solid_has_majority_three : solidBlockFromWitnesses [5, 9, 7] = some 5 := by
  obtain ⟨r, hr, hmem, hmajority, -⟩ := solid_has_majority [5, 9, 7] (by decide)
  have hfive : r = 5 := by
    unfold HasMajority at hmajority
    simp only [mem_cons, not_mem_nil, or_false] at hmem
    rcases hmem with rfl | rfl | rfl
    · rfl
    · exact absurd hmajority (by decide)
    · exact absurd hmajority (by decide)
  rw [hr, hfive]

end TronGoblin
