import TronGoblin.Lib.BigEndian

/-!
# Checked computations

Computations that stop at the first failed check, and 64-bit arithmetic that fails on overflow.

* `require`, `orFail`: stop unless a condition holds, or a value is there.
* `bind_eq_ok`, `require_eq_ok`, `orFail_eq_ok`: what a computation that has succeeded went through.
* `mem_of_mapM`, `mapM_of_ok`: the same for a list of steps.
* `FitsI64`: the integers that no overflow changes; `wrapI64_of_fits`, `fits_wrapI64`.
* `satI64`: arithmetic that stops at the ends of the range; `satI64_of_fits`.
-/

namespace Checked

open List BigEndian

variable {ε α β : Type}

/-- Stop with `e` unless `p` holds. -/
def require (p : Prop) [Decidable p] (e : ε) : Except ε Unit :=
  if p then .ok () else .error e

/-- Stop with `e` where there is no value. -/
def orFail (o : Option α) (e : ε) : Except ε α :=
  match o with
  | some a => .ok a
  | none => .error e

variable {f : α → Except ε β} {x : Except ε α}

@[simp] theorem bind_eq_ok {b : β} : x >>= f = .ok b ↔ ∃ a, x = .ok a ∧ f a = .ok b := by
  cases x with
  | error e =>
    constructor
    · intro h
      cases h
    · rintro ⟨a, h, -⟩
      cases h
  | ok a =>
    constructor
    · intro h
      exact ⟨a, rfl, h⟩
    · rintro ⟨a', h, hf⟩
      cases h
      exact hf

@[simp] theorem pure_eq_ok {a b : α} : (pure a : Except ε α) = .ok b ↔ a = b :=
  ⟨fun h => Except.ok.inj h, fun h => congrArg Except.ok h⟩

@[simp] theorem map_eq_ok {f : α → β} {b : β} : f <$> x = .ok b ↔ ∃ a, x = .ok a ∧ f a = b := by
  rw [← bind_pure_comp, bind_eq_ok]
  simp [pure_eq_ok]

@[simp] theorem require_eq_ok {p : Prop} [Decidable p] {e : ε} {u : Unit} : require p e = .ok u ↔ p := by
  unfold require
  split <;> simp_all

@[simp] theorem orFail_eq_ok {o : Option α} {e : ε} {a : α} : orFail o e = .ok a ↔ o = some a := by
  cases o <;> simp [orFail]

@[simp] theorem mapError_eq_ok {ε' : Type} {f : ε → ε'} {a : α} : x.mapError f = .ok a ↔ x = .ok a := by
  cases x <;> simp [Except.mapError]

theorem toOption_eq_some {a : α} : x.toOption = some a ↔ x = .ok a := by
  cases x <;> simp [Except.toOption]

/-- A list of checked steps that all succeed. -/
theorem mem_of_mapM {l : List α} {r : List β} (h : l.mapM f = .ok r) :
    (∀ a ∈ l, ∃ b ∈ r, f a = .ok b) ∧ ∀ b ∈ r, ∃ a ∈ l, f a = .ok b := by
  induction l generalizing r with
  | nil =>
    rw [mapM_nil, pure_eq_ok] at h
    subst h
    simp
  | cons a l ih =>
    simp only [mapM_cons, bind_eq_ok, pure_eq_ok] at h
    obtain ⟨b, hb, r', hr, rfl⟩ := h
    obtain ⟨hleft, hright⟩ := ih hr
    constructor
    · intro a' ha'
      rcases mem_cons.1 ha' with rfl | ha'
      · exact ⟨b, mem_cons_self, hb⟩
      · obtain ⟨b', hb', heq⟩ := hleft a' ha'
        exact ⟨b', mem_cons_of_mem _ hb', heq⟩
    · intro b' hb'
      rcases mem_cons.1 hb' with rfl | hb'
      · exact ⟨a, mem_cons_self, hb⟩
      · obtain ⟨a', ha', heq⟩ := hright b' hb'
        exact ⟨a', mem_cons_of_mem _ ha', heq⟩

theorem mapM_of_ok {g : α → β} {l : List α} (h : ∀ a ∈ l, f a = .ok (g a)) : l.mapM f = .ok (l.map g) := by
  induction l with
  | nil => rfl
  | cons a l ih =>
    rw [mapM_cons, h a mem_cons_self, ih fun b hb => h b (mem_cons_of_mem _ hb)]
    rfl

/-! ## Signed 64-bit integers -/

/-- The integers of 64 bits. -/
def FitsI64 (n : Int) : Prop := -0x8000000000000000 ≤ n ∧ n ≤ 0x7fffffffffffffff

instance (n : Int) : Decidable (FitsI64 n) := inferInstanceAs (Decidable (_ ∧ _))

/-- `checked_add`. -/
def addI64 (a b : Int) : Option Int := if FitsI64 (a + b) then some (a + b) else none

/-- `checked_sub`. -/
def subI64 (a b : Int) : Option Int := if FitsI64 (a - b) then some (a - b) else none

@[simp] theorem addI64_eq_some {a b c : Int} : addI64 a b = some c ↔ FitsI64 (a + b) ∧ a + b = c := by
  simp [addI64]

@[simp] theorem subI64_eq_some {a b c : Int} : subI64 a b = some c ↔ FitsI64 (a - b) ∧ a - b = c := by
  simp [subI64]

variable {n : Int}

theorem wrapI64_of_fits (h : FitsI64 n) : wrapI64 n = n := by
  obtain ⟨hlo, hhi⟩ := h
  rw [wrapI64, Int.bmod_eq_of_le]
  · rw [wordCount]
    omega
  · rw [wordCount]
    omega

theorem fits_wrapI64 (n : Int) : FitsI64 (wrapI64 n) := by
  have hpos : 0 < wordCount := by decide
  have hle := Int.le_bmod (x := n) hpos
  have hlt := Int.bmod_lt (x := n) hpos
  rw [wordCount] at hle hlt
  rw [wrapI64, wordCount, FitsI64]
  omega

/-- `saturating_add` and its kin: the nearest integer of 64 bits. -/
def satI64 (n : Int) : Int := max (-0x8000000000000000) (min n 0x7fffffffffffffff)

theorem satI64_of_fits (h : FitsI64 n) : satI64 n = n := by
  obtain ⟨hlo, hhi⟩ := h
  rw [satI64]
  omega

theorem satI64_le (h : 0 ≤ n) : 0 ≤ satI64 n ∧ satI64 n ≤ n := by
  rw [satI64]
  omega

end Checked
