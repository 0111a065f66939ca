import Mathlib
import TronGoblin.Lib.BigEndian

/-!
# The order of strings

Lexicographic comparison of lists, and of what is put after them.

* `compare_append`: a common beginning does not matter.
* `Diverge`: two strings that differ at some place; nothing that follows changes their order.
* `compare_concat_zero`: what comes at or after `a ++ [0]` is what comes after `a`.
* `compare_encode`: big-endian numbers of one length are ordered as numbers.
-/

namespace LexOrder

open List BigEndian

variable {α : Type} [Ord α]

theorem compare_cons (a b : α) (s t : List α) :
    compare (a :: s) (b :: t) = (compare a b).then (compare s t) := List.compareLex_cons_cons

theorem not_isLE_iff {β : Type} [Ord β] [Std.OrientedOrd β] (a b : β) : ¬ (compare a b).isLE ↔ compare b a = .lt := by
  rw [← Std.OrientedCmp.gt_iff_lt]
  cases compare a b <;> decide

theorem compare_append [Std.ReflOrd α] (p s t : List α) : compare (p ++ s) (p ++ t) = compare s t := by
  induction p with
  | nil => rfl
  | cons a p ih => rw [cons_append, cons_append, compare_cons, Std.ReflOrd.compare_self, ih]; rfl

variable {a b : List α}

theorem compare_append_of_length (h : a.length = b.length) (s t : List α) :
    compare (a ++ s) (b ++ t) = (compare a b).then (compare s t) := by
  induction a generalizing b with
  | nil =>
    obtain rfl := length_eq_zero_iff.1 h.symm
    rfl
  | cons x a ih =>
    cases b with
    | nil => cases h
    | cons y b =>
      rw [cons_append, cons_append, compare_cons, compare_cons, ih (Nat.succ.inj h)]
      cases compare x y <;> rfl

/-- The two strings differ where both have something. -/
def Diverge (a b : List α) : Prop :=
  ∃ (p : List α) (x y : α) (s t : List α), a = p ++ x :: s ∧ b = p ++ y :: t ∧ x ≠ y

omit [Ord α] in
theorem Diverge.cons (h : Diverge a b) (c : α) : Diverge (c :: a) (c :: b) := by
  obtain ⟨p, x, y, s, t, rfl, rfl, hxy⟩ := h
  exact ⟨c :: p, x, y, s, t, rfl, rfl, hxy⟩

omit [Ord α] in
theorem diverge_of_head {x y : α} (h : x ≠ y) (s t : List α) : Diverge (x :: s) (y :: t) :=
  ⟨[], x, y, s, t, rfl, rfl, h⟩

omit [Ord α] in
theorem Diverge.ne (h : Diverge a b) : a ≠ b := by
  rintro rfl
  obtain ⟨p, x, y, s, t, hx, hy, hxy⟩ := h
  have heq := hx.symm.trans hy
  rw [append_cancel_left_eq, List.cons.injEq] at heq
  exact hxy heq.1

theorem Diverge.compare_append [Std.LawfulEqOrd α] (h : Diverge a b) (s t : List α) :
    compare (a ++ s) (b ++ t) = compare a b := by
  obtain ⟨p, x, y, u, v, rfl, rfl, hxy⟩ := h
  have hne : compare x y ≠ .eq := fun heq => hxy (Std.LawfulEqOrd.eq_of_compare heq)
  rw [append_assoc, append_assoc, LexOrder.compare_append, LexOrder.compare_append,
    cons_append, cons_append, compare_cons, compare_cons]
  cases hcmp : compare x y with
  | eq => exact absurd hcmp hne
  | lt => rfl
  | gt => rfl

/-! ## Bytes -/

theorem compare_uint8 (a b : UInt8) : compare a b = compare a.toNat b.toNat := by
  rcases Nat.lt_trichotomy a.toNat b.toNat with h | h | h
  · rw [Nat.compare_eq_lt.2 h]
    exact compareOfLessAndEq_eq_lt.2 (UInt8.lt_iff_toNat_lt.2 h)
  · rw [UInt8.toNat_inj.1 h]
    simp
  · rw [Nat.compare_eq_gt.2 h]
    exact Std.OrientedCmp.gt_of_lt (compareOfLessAndEq_eq_lt.2 (UInt8.lt_iff_toNat_lt.2 h))

/-- The strings from `a ++ [0]` on are the ones after `a`. -/
theorem compare_concat_zero (a b : List UInt8) : (compare (a ++ [0]) b).isLE ↔ compare a b = .lt := by
  induction a generalizing b with
  | nil =>
    cases b with
    | nil => decide
    | cons y t =>
      have hlt : compare ([] : List UInt8) (y :: t) = .lt := List.compareLex_nil_cons
      have hnil : (compare ([] : List UInt8) t).isLE := by
        cases t <;> rfl
      rw [hlt, List.nil_append, compare_cons, compare_uint8]
      rcases Nat.eq_zero_or_pos y.toNat with hy | hy
      · simp [hy, hnil]
      · rw [show (0 : UInt8).toNat = 0 from rfl, Nat.compare_eq_lt.2 hy]
        simp
  | cons x a ih =>
    cases b with
    | nil =>
      have hgt : ∀ s : List UInt8, compare (x :: s) [] = .gt := fun s => List.compareLex_cons_nil
      rw [List.cons_append, hgt, hgt]
      decide
    | cons y t =>
      rw [List.cons_append, compare_cons, compare_cons]
      cases compare x y with
      | lt => simp
      | eq => simpa using ih t
      | gt => simp

theorem compare_encode (k : Nat) {m n : Nat} (hm : m < 256 ^ k) (hn : n < 256 ^ k) :
    compare (encode k m) (encode k n) = compare m n := by
  induction k generalizing m n with
  | zero =>
    have hm0 : m = 0 := by simpa using hm
    have hn0 : n = 0 := by simpa using hn
    subst hm0 hn0
    rfl
  | succ k ih =>
    have hm' : m / 256 < 256 ^ k := Nat.div_lt_of_lt_mul (by rwa [Nat.pow_succ, Nat.mul_comm] at hm)
    have hn' : n / 256 < 256 ^ k := Nat.div_lt_of_lt_mul (by rwa [Nat.pow_succ, Nat.mul_comm] at hn)
    rw [encode, encode, compare_append_of_length (by rw [length_encode, length_encode]), ih hm' hn', compare_cons,
      compare_uint8, UInt8.toNat_ofNat', UInt8.toNat_ofNat']
    rcases Nat.lt_trichotomy (m / 256) (n / 256) with h | h | h
    · have hlt : m < n := by omega
      rw [Nat.compare_eq_lt.2 h, Nat.compare_eq_lt.2 hlt]
      rfl
    · have hlow : compare (m % 256) (n % 256) = compare m n := by
        rcases Nat.lt_trichotomy (m % 256) (n % 256) with h' | h' | h'
        · have hlt : m < n := by omega
          rw [Nat.compare_eq_lt.2 h', Nat.compare_eq_lt.2 hlt]
        · have heq : m = n := by omega
          rw [heq, Nat.compare_eq_eq.2 rfl, Nat.compare_eq_eq.2 rfl]
        · have hlt : n < m := by omega
          rw [Nat.compare_eq_gt.2 h', Nat.compare_eq_gt.2 hlt]
      rw [Nat.compare_eq_eq.2 h, ← hlow]
      cases compare (m % 256) (n % 256) <;> rfl
    · have hlt : n < m := by omega
      rw [Nat.compare_eq_gt.2 h, Nat.compare_eq_gt.2 hlt]
      rfl

end LexOrder
