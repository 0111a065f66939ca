import Mathlib.Data.List.Basic

/-!
# Merkle trees that promote an odd child

Neighbours are combined level by level; the last child of a level of odd length goes up as it is.

* `root`: the last level's only element, if there are leaves.
* `root_injective`: trees of one size with one root have the same leaves, as long as `pair` has no
  collision among the pairs that the two trees combine.
-/

namespace Merkle

variable {H : Type} (pair : H → H → H)

/-- The level above. -/
def combine : List H → List H
  | a :: b :: rest => pair a b :: combine rest
  | level => level

/-- At most `n` levels up. -/
def reduce : Nat → List H → List H
  | 0, level => level
  | n + 1, level => if 1 < level.length then reduce n (combine pair level) else level

def root (leaves : List H) : Option H := (reduce pair leaves.length leaves).head?

def levelPairs : List H → List (H × H)
  | a :: b :: rest => (a, b) :: levelPairs rest
  | _ => []

/-- The pairs combined in `n` levels. -/
def pairs : Nat → List H → List (H × H)
  | 0, _ => []
  | n + 1, level => levelPairs level ++ pairs n (combine pair level)

/-! ## Sizes -/

theorem combine_length : ∀ level : List H, (combine pair level).length = (level.length + 1) / 2
  | [] => by simp [combine]
  | [_] => by simp [combine]
  | _ :: _ :: rest => by
    simp only [combine, List.length_cons, combine_length rest]
    omega

variable {n : Nat}

theorem reduce_length {level : List H} (hn : level.length ≤ n + 1) : (reduce pair n level).length ≤ 1 := by
  induction n generalizing level with
  | zero => simpa [reduce] using hn
  | succ n ih =>
    rw [reduce]
    split
    · apply ih
      rw [combine_length]
      omega
    · omega

theorem reduce_ne_nil {level : List H} (h : level ≠ []) : reduce pair n level ≠ [] := by
  induction n generalizing level with
  | zero => exact h
  | succ n ih =>
    rw [reduce]
    split
    · apply ih
      intro hnil
      have := combine_length pair level
      rw [hnil, List.length_nil] at this
      have := List.length_pos_iff.2 h
      omega
    · exact h

@[simp] theorem root_eq_none {leaves : List H} : root pair leaves = none ↔ leaves = [] := by
  rw [root, List.head?_eq_none_iff]
  constructor
  · intro h
    by_contra hne
    exact reduce_ne_nil pair hne h
  · rintro rfl
    rfl

/-! ## Injectivity -/

variable {pair} {S : H × H → Prop}

/-- No two of the pairs in `S` are combined to the same. -/
def Injective (pair : H → H → H) (S : H × H → Prop) : Prop :=
  ∀ p q, S p → S q → pair p.1 p.2 = pair q.1 q.2 → p = q

theorem combine_injective (hS : Injective pair S) : ∀ {l l' : List H}, l.length = l'.length →
    (∀ p ∈ levelPairs l, S p) → (∀ p ∈ levelPairs l', S p) →
    combine pair l = combine pair l' → l = l'
  | [], [], _, _, _, _ => rfl
  | [_], [_], _, _, _, h => h
  | a :: b :: rest, a' :: b' :: rest', hlen, hl, hl', h => by
    simp only [levelPairs, List.mem_cons, forall_eq_or_imp] at hl hl'
    simp only [combine, List.cons.injEq] at h
    have hab : (a, b) = (a', b') := hS _ _ hl.1 hl'.1 h.1
    have hrest := combine_injective hS (by simpa using hlen) hl.2 hl'.2 h.2
    simp only [Prod.mk.injEq] at hab
    rw [hab.1, hab.2, hrest]

theorem reduce_injective (hS : Injective pair S) {l l' : List H} (hlen : l.length = l'.length)
    (hl : ∀ p ∈ pairs pair n l, S p) (hl' : ∀ p ∈ pairs pair n l', S p) (h : reduce pair n l = reduce pair n l') :
    l = l' := by
  induction n generalizing l l' with
  | zero => exact h
  | succ n ih =>
    simp only [pairs, List.mem_append, or_imp, forall_and] at hl hl'
    rw [reduce, reduce, ← hlen] at h
    split at h
    · have hc := ih (by rw [combine_length, combine_length, hlen]) hl.2 hl'.2 h
      exact combine_injective hS hlen hl.1 hl'.1 hc
    · exact h

theorem root_injective (hS : Injective pair S) {l l' : List H} (hlen : l.length = l'.length)
    (hl : ∀ p ∈ pairs pair l.length l, S p) (hl' : ∀ p ∈ pairs pair l'.length l', S p)
    (h : root pair l = root pair l') : l = l' := by
  rw [root, root, ← hlen] at h
  rw [← hlen] at hl'
  apply reduce_injective hS hlen hl hl'
  -- both last levels have at most one element
  have hone := reduce_length pair (Nat.le_succ l.length)
  have hone' := reduce_length pair (show l'.length ≤ l.length + 1 by omega)
  match reduce pair l.length l, reduce pair l.length l', hone, hone', h with
  | [], [], _, _, _ => rfl
  | [_], [_], _, _, h => simpa using h

end Merkle
