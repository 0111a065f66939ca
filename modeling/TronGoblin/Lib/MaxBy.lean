import Mathlib.Order.Compare

/-!
# The greatest of a list

`maxBy` takes the last of the greatest things of a list, under a comparison that is given as a function.

* `maxBy_spec`: it is in the list, and nothing in the list is greater.
* `maxBy_eq_of_mem_iff`: where only equal things compare equal, it depends on what is in the list, not on the order.
-/

namespace MaxBy

open List

variable {α : Type} (cmp : α → α → Ordering)

/-- The one that is kept; the later one unless the earlier one is greater. -/
def later (a b : α) : α :=
  match cmp a b with
  | .gt => a
  | _ => b

def maxBy : List α → Option α
  | [] => none
  | a :: l => some (l.foldl (later cmp) a)

structure Greatest (l : List α) (m : α) : Prop where
  mem : m ∈ l
  le : ∀ a ∈ l, (cmp a m).isLE

variable [Std.TransCmp cmp]

theorem le_self (a : α) : (cmp a a).isLE := by
  have heq : cmp a a = .eq := Std.ReflCmp.compare_self
  rw [heq]
  rfl

theorem le_later (a b : α) : (cmp a (later cmp a b)).isLE ∧ (cmp b (later cmp a b)).isLE := by
  unfold later
  cases h : cmp a b with
  | gt => exact ⟨le_self cmp a, by rw [Std.OrientedCmp.gt_iff_lt.1 h]; rfl⟩
  | lt => exact ⟨by rw [h]; rfl, le_self cmp b⟩
  | eq => exact ⟨by rw [h]; rfl, le_self cmp b⟩

omit [Std.TransCmp cmp] in
theorem later_mem (a b : α) : later cmp a b = a ∨ later cmp a b = b := by
  unfold later
  split
  · exact .inl rfl
  · exact .inr rfl

theorem greatest_foldl (l : List α) (a : α) : Greatest cmp (a :: l) (l.foldl (later cmp) a) := by
  induction l generalizing a with
  | nil =>
    refine ⟨mem_singleton.2 rfl, fun b hb => ?_⟩
    rw [mem_singleton.1 hb]
    exact le_self cmp a
  | cons b l ih =>
    obtain ⟨hmem, hle⟩ := ih (later cmp a b)
    have hkept := hle _ mem_cons_self
    obtain ⟨ha, hb⟩ := le_later cmp a b
    rw [foldl_cons]
    refine ⟨?_, fun c hc => ?_⟩
    · rcases mem_cons.1 hmem with heq | hmem
      · rw [heq]
        rcases later_mem cmp a b with h | h <;> simp [h]
      · exact mem_cons_of_mem _ (mem_cons_of_mem _ hmem)
    · rcases mem_cons.1 hc with rfl | hc
      · exact Std.TransCmp.isLE_trans ha hkept
      · rcases mem_cons.1 hc with rfl | hc
        · exact Std.TransCmp.isLE_trans hb hkept
        · exact hle c (mem_cons_of_mem _ hc)

theorem maxBy_spec (l : List α) : (∃ m, maxBy cmp l = some m ∧ Greatest cmp l m) ∨ (maxBy cmp l = none ∧ l = []) := by
  cases l with
  | nil => exact .inr ⟨rfl, rfl⟩
  | cons a l => exact .inl ⟨_, rfl, greatest_foldl cmp l a⟩

variable {cmp} [Std.LawfulEqCmp cmp]

theorem Greatest.eq {l l' : List α} {m m' : α} (h : Greatest cmp l m) (h' : Greatest cmp l' m')
    (hl : ∀ a, a ∈ l ↔ a ∈ l') : m = m' := by
  have hle := h'.le m ((hl m).1 h.mem)
  have hge := h.le m' ((hl m').2 h'.mem)
  exact Std.LawfulEqCmp.eq_of_compare (Std.OrientedCmp.isLE_antisymm hle hge)

theorem maxBy_eq_of_mem_iff {l l' : List α} (hl : ∀ a, a ∈ l ↔ a ∈ l') : maxBy cmp l = maxBy cmp l' := by
  rcases maxBy_spec cmp l with ⟨m, hm, hg⟩ | ⟨hm, rfl⟩
  · rcases maxBy_spec cmp l' with ⟨m', hm', hg'⟩ | ⟨hm', rfl⟩
    · rw [hm, hm', hg.eq hg' hl]
    · cases (hl m).1 hg.mem
  · cases l' with
    | nil => rfl
    | cons a l' => cases (hl a).2 mem_cons_self

end MaxBy
