import Mathlib.Data.List.AList
import Mathlib.Tactic.Ring

/-!
# Finite tables

Finite maps with decidable keys are `AList`s; this file adds what hash maps have and `AList` does not.

* `retain`: keep the entries that satisfy a test; `lookup_retain` says what is left to find.
* `size`: the number of entries.
* `total`: a sum over the entries: what changing an entry does to it, and what it is at least.
* `IterOrder`: the order in which entries are gone through, for results that hold for every one.
-/

namespace Assoc

open List AList

variable {α β : Type} [DecidableEq α]

abbrev Table (α β : Type) := AList fun _ : α => β

def size (m : Table α β) : Nat := m.entries.length

/-- The values, in some order. -/
def values (m : Table α β) : List β := m.entries.map (·.2)

/-- The order in which a hash map is gone through: some order of its entries. -/
structure IterOrder (γ : Type) where
  iter : List γ → List γ
  perm : ∀ l, (iter l).Perm l

def retain (p : α → β → Bool) (m : Table α β) : Table α β :=
  ⟨m.entries.filter fun e => p e.1 e.2, m.nodupKeys.sublist filter_sublist⟩

theorem lookup_retain (p : α → β → Bool) (m : Table α β) (k : α) :
    (retain p m).lookup k = (m.lookup k).filter (p k) := by
  ext v
  have hfind : ∀ (m : Table α β), v ∈ m.lookup k ↔ Sigma.mk k v ∈ m.entries :=
    fun m => mem_dlookup_iff m.nodupKeys
  rw [← Option.mem_def, ← Option.mem_def, hfind, Option.mem_filter_iff, hfind]
  exact mem_filter

variable {m : Table α β} {v : β}

theorem exists_lookup_of_mem_values (h : v ∈ values m) : ∃ k, m.lookup k = some v := by
  obtain ⟨⟨k, w⟩, hmem, rfl⟩ := mem_map.1 h
  exact ⟨k, mem_lookup_iff.2 hmem⟩

theorem lookup_erase_eq (m : Table α β) (k k' : α) : (m.erase k').lookup k = if k = k' then none else m.lookup k := by
  by_cases h : k = k'
  · subst h
    rw [if_pos rfl, lookup_erase]
  · rw [if_neg h, lookup_erase_ne h]

theorem lookup_insert_eq (m : Table α β) (k k' : α) (v : β) :
    (m.insert k' v).lookup k = if k = k' then some v else m.lookup k := by
  by_cases h : k = k'
  · subst h
    rw [if_pos rfl, lookup_insert]
  · rw [if_neg h, lookup_insert_ne h]

/-- What is read of every entry stays where the new value has it of the old one. -/
theorem map_lookup_insert {γ : Type} {f : β → γ} {k : α} {w : β} (h : m.lookup k = some v) (hf : f w = f v) (k' : α) :
    ((m.insert k w).lookup k').map f = (m.lookup k').map f := by
  rw [lookup_insert_eq]
  split
  · next hk => rw [hk, h, Option.map_some, Option.map_some, hf]
  · rfl

theorem lookup_singleton_eq (k k' : α) (v : β) :
    (singleton k' v : Table α β).lookup k = if k = k' then some v else none := by
  rw [← insert_empty, lookup_insert_eq, lookup_empty]

/-! ## Sums over the entries -/

def total (f : α → β → Int) (m : Table α β) : Int :=
  m.entries.foldr (fun e acc => f e.1 e.2 + acc) 0

omit [DecidableEq α] in
theorem foldr_add_append (f : α → β → Int) (l₁ l₂ : List (Σ _ : α, β)) :
    (l₁ ++ l₂).foldr (fun e acc => f e.1 e.2 + acc) 0 =
      l₁.foldr (fun e acc => f e.1 e.2 + acc) 0 + l₂.foldr (fun e acc => f e.1 e.2 + acc) 0 := by
  induction l₁ with
  | nil => simp
  | cons e l₁ ih =>
    simp only [cons_append, foldr_cons, ih]
    omega

theorem total_insert (f : α → β → Int) (m : Table α β) (k : α) (v : β) :
    total f (m.insert k v) = f k v + total f (m.erase k) := by
  rfl

variable {k : α}

section

variable (f : α → β → Int)
include f

theorem total_erase_some (h : m.lookup k = some v) : total f (m.erase k) = total f m - f k v := by
  have hk : k ∈ m.entries.keys := mem_keys.1 (lookup_isSome.1 (by rw [h]; rfl))
  obtain ⟨w, l₁, l₂, -, hm, he⟩ := exists_of_kerase hk
  have hw : w = v := by
    have hmem : Sigma.mk k w ∈ m.entries := by
      rw [hm]
      simp
    have hlook := mem_dlookup m.nodupKeys hmem
    exact Option.some.inj (hlook.symm.trans h)
  subst hw
  have herase : (m.erase k).entries = l₁ ++ l₂ := he
  rw [total, total, herase, hm, foldr_add_append, foldr_add_append, foldr_cons]
  dsimp only
  omega

theorem total_erase_none (h : m.lookup k = none) : total f (m.erase k) = total f m := by
  have hk : k ∉ m.entries.keys := fun hk => lookup_eq_none.1 h (mem_keys.2 hk)
  have herase : (m.erase k).entries = m.entries := kerase_of_notMem_keys hk
  rw [total, total, herase]

theorem total_insert_new (h : m.lookup k = none) (v : β) : total f (m.insert k v) = total f m + f k v := by
  rw [total_insert, total_erase_none f h]
  omega

theorem total_insert_old (h : m.lookup k = some v) (w : β) : total f (m.insert k w) = total f m - f k v + f k w := by
  rw [total_insert, total_erase_some f h]
  omega

end

omit [DecidableEq α] in
theorem total_sub (f g : α → β → Int) (m : Table α β) : total (fun k v => f k v - g k v) m = total f m - total g m := by
  rw [total, total, total]
  induction m.entries with
  | nil => rfl
  | cons e l ih =>
    simp only [foldr_cons, ih]
    omega

omit [DecidableEq α] in
theorem total_values (g : β → Int) (m : Table α β) : total (fun _ v => g v) m = ((values m).map g).sum := by
  rw [total, values]
  induction m.entries with
  | nil => rfl
  | cons e l ih => rw [foldr_cons, ih, map_cons, map_cons, sum_cons]

theorem total_insert_eq (f : α → β → Int) (m : Table α β) (k : α) (v : β) :
    total f (m.insert k v) = total f m - (m.lookup k).elim 0 (f k) + f k v := by
  cases h : m.lookup k with
  | none =>
    rw [total_insert_new f h]
    simp
  | some w =>
    rw [total_insert_old f h]
    simp

theorem total_erase_eq (f : α → β → Int) (m : Table α β) (k : α) :
    total f (m.erase k) = total f m - (m.lookup k).elim 0 (f k) := by
  cases h : m.lookup k with
  | none =>
    rw [total_erase_none f h]
    simp
  | some w =>
    rw [total_erase_some f h]
    simp

variable {f : α → β → Int}

theorem total_nonneg (h : ∀ k v, m.lookup k = some v → 0 ≤ f k v) : 0 ≤ total f m := by
  have hmem : ∀ e ∈ m.entries, 0 ≤ f e.1 e.2 := fun e he => h e.1 e.2 (mem_dlookup m.nodupKeys he)
  rw [total]
  generalize m.entries = entries at hmem
  induction entries with
  | nil => simp
  | cons e l ih =>
    have hhead := hmem e mem_cons_self
    have htail := ih fun e' he' => hmem e' (mem_cons_of_mem e he')
    rw [foldr_cons]
    omega

omit [DecidableEq α] in
theorem total_zero (m : Table α β) : total (fun _ _ => 0) m = 0 := by
  rw [total]
  induction m.entries with
  | nil => rfl
  | cons e l ih => simp

theorem total_ext {β' : Type} {f' : α → β' → Int} {m' : Table α β'}
    (h : ∀ k, (m.lookup k).elim 0 (f k) = (m'.lookup k).elim 0 (f' k)) : total f m = total f' m' := by
  induction m using insertRec generalizing m' with
  | H0 =>
    have hzero : ∀ k v, m'.lookup k = some v → f' k v = 0 := fun k v hv => by simpa [hv] using (h k).symm
    have hle : 0 ≤ total f' m' := total_nonneg fun k v hv => Int.le_of_eq (hzero k v hv).symm
    have hge : 0 ≤ total (fun k v => 0 - f' k v) m' := total_nonneg fun k v hv => by simp [hzero k v hv]
    rw [total_sub, total_zero] at hge
    show 0 = total f' m'
    omega
  | IH k v m hk ih =>
    have hnone : m.lookup k = none := lookup_eq_none.2 hk
    have hrest : total f m = total f' (m'.erase k) := by
      refine ih fun j => ?_
      rw [lookup_erase_eq]
      by_cases hj : j = k
      · rw [if_pos hj, hj, hnone]
        rfl
      · rw [if_neg hj, ← h j, lookup_insert_eq, if_neg hj]
    have hhere := h k
    rw [lookup_insert_eq, if_pos rfl] at hhere
    rw [total_erase_eq, ← hhere] at hrest
    rw [total_insert_new f hnone]
    simp only [Option.elim_some] at hrest
    omega

theorem total_update {f f' : α → β → Int} {m m' : Table α β} (k : α)
    (h : ∀ j, j ≠ k → (m'.lookup j).elim 0 (f' j) = (m.lookup j).elim 0 (f j)) :
    total f' m' = total f m - (m.lookup k).elim 0 (f k) + (m'.lookup k).elim 0 (f' k) := by
  have hrest : total f' (m'.erase k) = total f (m.erase k) := by
    refine total_ext fun j => ?_
    rw [lookup_erase_eq, lookup_erase_eq]
    by_cases hj : j = k
    · rw [if_pos hj, if_pos hj]
      rfl
    · rw [if_neg hj, if_neg hj]
      exact h j hj
  rw [total_erase_eq, total_erase_eq] at hrest
  omega

theorem lookup_of_erase {k k' : α} (h : (m.erase k').lookup k = some v) : m.lookup k = some v := by
  rw [lookup_erase_eq] at h
  split at h
  · cases h
  · exact h

section

variable (h : ∀ k v, m.lookup k = some v → 0 ≤ f k v)
include h

theorem elim_le_total (k : α) : (m.lookup k).elim 0 (f k) ≤ total f m := by
  have hrest : 0 ≤ total f (m.erase k) := total_nonneg fun k' v' hv' => h k' v' (lookup_of_erase hv')
  rw [total_erase_eq] at hrest
  omega

theorem elim_add_le_total {k k' : α} (hne : k ≠ k') :
    (m.lookup k).elim 0 (f k) + (m.lookup k').elim 0 (f k') ≤ total f m := by
  have hle : ((m.erase k').lookup k).elim 0 (f k) ≤ total f (m.erase k') :=
    elim_le_total (fun k'' v'' hv'' => h k'' v'' (lookup_of_erase hv'')) k
  rw [lookup_erase_eq, if_neg hne, total_erase_eq] at hle
  omega

end

omit [DecidableEq α] in
theorem total_add (f g : α → β → Int) (m : Table α β) : total (fun k v => f k v + g k v) m = total f m + total g m := by
  rw [total, total, total]
  induction m.entries with
  | nil => rfl
  | cons e l ih =>
    simp only [foldr_cons, ih]
    omega

omit [DecidableEq α] in
theorem total_mul_left (c : Int) (f : α → β → Int) (m : Table α β) :
    total (fun k v => c * f k v) m = c * total f m := by
  rw [total, total]
  induction m.entries with
  | nil => simp
  | cons e l ih => simp [foldr_cons, ih, Int.mul_add]

theorem total_le {f g : α → β → Int} (h : ∀ k v, m.lookup k = some v → f k v ≤ g k v) : total f m ≤ total g m := by
  have hdiff : 0 ≤ total (fun k v => g k v - f k v) m := total_nonneg fun k v hv => by
    have := h k v hv
    omega
  rw [total_sub] at hdiff
  omega

omit [DecidableEq α] in
theorem total_comm {α' β' : Type} (f : α → β → α' → β' → Int) (m : Table α β) (m' : Table α' β') :
    total (fun k v => total (f k v) m') m = total (fun k' v' => total (fun k v => f k v k' v') m) m' := by
  suffices h : ∀ l : List (Σ _ : α, β), l.foldr (fun e acc => total (f e.1 e.2) m' + acc) 0 =
      total (fun k' v' => l.foldr (fun e acc => f e.1 e.2 k' v' + acc) 0) m' from h m.entries
  intro l
  induction l with
  | nil => exact (total_zero m').symm
  | cons e l ih => rw [foldr_cons, ih, ← total_add]; rfl

theorem total_single (f : α → β → Int) (m : Table α β) (k : α) :
    total (fun j v => if j = k then f j v else 0) m = (m.lookup k).elim 0 (f k) := by
  have hothers : ∀ j, j ≠ k → (m.lookup j).elim 0 (fun v => if j = k then f j v else 0) =
      (m.lookup j).elim 0 (fun _ => 0) := by
    intro j hj
    simp [if_neg hj]
  have hupdate := total_update k hothers
  rw [total_zero] at hupdate
  rw [hupdate]
  cases m.lookup k <;> simp

end Assoc
