import Mathlib.Data.List.Basic
import Mathlib.Logic.Relation
import TronGoblin.Lib.Checked

/-!
# Lowest common ancestors

Things that have at most one parent each, numbered so that a parent's number is one less, and known by a key.

* `Reaches`, `Path`: the ancestors of a thing, and the things passed on the way to one.
* `Common`: two ancestors with the same key.
* `Graded`: what is assumed of numbers and keys, among the things that satisfy a predicate.
* `Branches`: the paths down to the lowest common ancestor.  It is found from one step to the next:
  `Graded.branches_left`, `branches_right` while one side is higher, `branches_both` while the two differ at the same
  number, `branches_nil` where they meet; `no_common_left` and `no_common_both` say when there is none.
* `branch`: the walk that finds the branches: down to the same number on each side, then both together.  With enough
  fuel it finds what there is (`Graded.branch_spec`); `branch_map` carries it over from one parent function to another.
-/

namespace Ancestry

open Ancestry

variable {α κ : Type} (next : α → Option α)

/-- `c` is `a`, or an ancestor of it. -/
def Reaches (a c : α) : Prop := Relation.ReflTransGen (fun c p => next c = some p) a c

/-- The things passed on the way from `a` to `c`, without `c`. -/
inductive Path : α → List α → α → Prop
  | nil (a : α) : Path a [] a
  | cons {a p c : α} {l : List α} (hp : next a = some p) (h : Path p l c) : Path a (a :: l) c

structure Common (key : α → κ) (a b x y : α) : Prop where
  left : Reaches next a x
  right : Reaches next b y
  key : key x = key y

/-- The paths from two things down to their lowest common ancestor. -/
def Branches (num : α → Int) (key : α → κ) (a b : α) (l₁ l₂ : List α) : Prop :=
  ∃ c d, Path next a l₁ c ∧ Path next b l₂ d ∧ key c = key d ∧ ∀ x y, Common next key a b x y → num x ≤ num c

/-- Parents are numbered one less, and the key gives the number, among what satisfies `P`. -/
structure Graded (num : α → Int) (key : α → κ) (P : α → Prop) : Prop where
  closed : ∀ c p, P c → next c = some p → P p
  step : ∀ c p, P c → next c = some p → num c = num p + 1
  key : ∀ c d, P c → P d → key c = key d → num c = num d

variable {next}

theorem Path.reaches {a c : α} {l : List α} (h : Path next a l c) : Reaches next a c := by
  induction h with
  | nil a => exact .refl
  | cons hp _ ih => exact .head hp ih

theorem reaches_cases {a c : α} (h : Reaches next a c) : c = a ∨ ∃ p, next a = some p ∧ Reaches next p c := by
  rcases Relation.ReflTransGen.cases_head h with rfl | ⟨p, hp, h⟩
  · exact .inl rfl
  · exact .inr ⟨p, hp, h⟩

namespace Graded

variable {num : α → Int} {key : α → κ} {P : α → Prop} (hg : Graded next num key P)

include hg

theorem num_le {a c : α} (ha : P a) (h : Reaches next a c) : P c ∧ num c ≤ num a := by
  induction h with
  | refl => exact ⟨ha, Int.le_refl _⟩
  | tail _ hp ih =>
    have hstep := hg.step _ _ ih.1 hp
    exact ⟨hg.closed _ _ ih.1 hp, by omega⟩

/-- What is reached at the number of the start is the start. -/
theorem eq_of_num {a c : α} (ha : P a) (h : Reaches next a c) (hnum : num c = num a) : c = a := by
  rcases reaches_cases h with rfl | ⟨p, hp, h⟩
  · rfl
  · have hstep := hg.step a p ha hp
    have hle := (hg.num_le (hg.closed a p ha hp) h).2
    omega

variable {a b p q : α}

/-! ## One side is higher -/

variable {x y : α}

theorem common_left (ha : P a) (hb : P b) (hlt : num b < num a) (h : Common next key a b x y) :
    ∃ p, next a = some p ∧ Common next key p b x y := by
  rcases reaches_cases h.left with rfl | ⟨p, hp, hx⟩
  · obtain ⟨hy, hle⟩ := hg.num_le hb h.right
    have := hg.key x y ha hy h.key
    omega
  · exact ⟨p, hp, hx, h.right, h.key⟩

variable {l₁ l₂ : List α}

theorem branches_left (ha : P a) (hb : P b) (hlt : num b < num a) (hp : next a = some p)
    (h : Branches next num key p b l₁ l₂) : Branches next num key a b (a :: l₁) l₂ := by
  obtain ⟨c, d, hc, hd, hkey, hlow⟩ := h
  refine ⟨c, d, .cons hp hc, hd, hkey, fun x y hxy => ?_⟩
  obtain ⟨p', hp', hxy⟩ := hg.common_left ha hb hlt hxy
  cases hp.symm.trans hp'
  exact hlow x y hxy

theorem no_common_left (ha : P a) (hb : P b) (hlt : num b < num a)
    (h : ∀ p, next a = some p → ∀ x y, ¬ Common next key p b x y) (x y : α) : ¬ Common next key a b x y := by
  intro hxy
  obtain ⟨p, hp, hxy⟩ := hg.common_left ha hb hlt hxy
  exact h p hp x y hxy

omit hg in
theorem Common.symm (h : Common next key a b x y) : Common next key b a y x := ⟨h.right, h.left, h.key.symm⟩

omit hg in
theorem no_common_symm (h : ∀ x y, ¬ Common next key a b x y) (x y : α) : ¬ Common next key b a x y :=
  fun hxy => h y x (Common.symm hxy)

theorem branches_symm (ha : P a) (hb : P b) (h : Branches next num key a b l₁ l₂) :
    Branches next num key b a l₂ l₁ := by
  obtain ⟨c, d, hc, hd, hkey, hlow⟩ := h
  refine ⟨d, c, hd, hc, hkey.symm, fun x y hxy => ?_⟩
  have hle := hlow y x (Common.symm hxy)
  have hcd := hg.key c d (hg.num_le ha hc.reaches).1 (hg.num_le hb hd.reaches).1 hkey
  have hxy' := hg.key x y (hg.num_le hb hxy.left).1 (hg.num_le ha hxy.right).1 hxy.key
  omega

/-! ## Both are at the same number -/

variable (ha : P a)
include ha

theorem common_both (hb : P b) (heq : num a = num b) (hne : key a ≠ key b) (h : Common next key a b x y) :
    ∃ p q, next a = some p ∧ next b = some q ∧ Common next key p q x y := by
  obtain ⟨hx, hxle⟩ := hg.num_le ha h.left
  obtain ⟨hy, hyle⟩ := hg.num_le hb h.right
  have hnum := hg.key x y hx hy h.key
  rcases reaches_cases h.left with rfl | ⟨p, hp, hleft⟩
  · have hyb := hg.eq_of_num hb h.right (by omega)
    exact absurd (hyb ▸ h.key) hne
  · rcases reaches_cases h.right with rfl | ⟨q, hq, hright⟩
    · have hxa := hg.eq_of_num ha h.left (by omega)
      exact absurd (hxa ▸ h.key) hne
    · exact ⟨p, q, hp, hq, hleft, hright, h.key⟩

theorem branches_both (hb : P b) (heq : num a = num b) (hne : key a ≠ key b) (hp : next a = some p)
    (hq : next b = some q) (h : Branches next num key p q l₁ l₂) : Branches next num key a b (a :: l₁) (b :: l₂) := by
  obtain ⟨c, d, hc, hd, hkey, hlow⟩ := h
  refine ⟨c, d, .cons hp hc, .cons hq hd, hkey, fun x y hxy => ?_⟩
  obtain ⟨p', q', hp', hq', hxy⟩ := hg.common_both ha hb heq hne hxy
  cases hp.symm.trans hp'
  cases hq.symm.trans hq'
  exact hlow x y hxy

theorem no_common_both (hb : P b) (heq : num a = num b) (hne : key a ≠ key b)
    (h : ∀ p q, next a = some p → next b = some q → ∀ x y, ¬ Common next key p q x y) (x y : α) :
    ¬ Common next key a b x y := by
  intro hxy
  obtain ⟨p, q, hp, hq, hxy⟩ := hg.common_both ha hb heq hne hxy
  exact h p q hp hq x y hxy

theorem branches_nil (hkey : key a = key b) : Branches next num key a b [] [] :=
  ⟨a, b, .nil a, .nil b, hkey, fun _ _ h => (hg.num_le ha h.left).2⟩

end Graded

/-! ## The walk -/

inductive WalkError
  | missing
  | outOfFuel
  deriving DecidableEq

section Walk

variable (next) (num : α → Int) (key : α → κ) [DecidableEq κ]

/-- Walk down while the number is above the floor: what was passed, and where the walk ends. -/
def level (floor : Int) : Nat → α → Except WalkError (List α × α)
  | 0, a => if floor < num a then .error .outOfFuel else .ok ([], a)
  | fuel + 1, a =>
    if floor < num a then
      match next a with
      | none => .error .missing
      | some p => (level floor fuel p).map fun r => (a :: r.1, r.2)
    else .ok ([], a)

/-- Walk down from two things until their keys are the same. -/
def together : Nat → α → α → Except WalkError (List α × List α)
  | 0, a, b => if key a = key b then .ok ([], []) else .error .outOfFuel
  | fuel + 1, a, b =>
    if key a = key b then .ok ([], [])
    else
      match next a, next b with
      | some p, some q => (together fuel p q).map fun r => (a :: r.1, b :: r.2)
      | _, _ => .error .missing

/-- The branches of two things. -/
def branch (fuel : Nat) (a b : α) : Except WalkError (List α × List α) := do
  let (l₁, c) ← level next num (num b) fuel a
  let (l₂, d) ← level next num (num c) fuel b
  let (r₁, r₂) ← together next key fuel c d
  pure (l₁ ++ r₁, l₂ ++ r₂)

end Walk

section WalkSpec

variable {num : α → Int} {key : α → κ} {P : α → Prop}

/-- What it means that a walk down one side has ended at `c`. -/
structure Leveled (next : α → Option α) (num : α → Int) (key : α → κ) (P : α → Prop) (a b : α) (l : List α) (c : α) :
    Prop where
  inside : P c
  number : num c = min (num a) (num b)
  branches : ∀ l₁ l₂, Branches next num key c b l₁ l₂ → Branches next num key a b (l ++ l₁) l₂
  none : (∀ x y, ¬ Common next key c b x y) → ∀ x y, ¬ Common next key a b x y

variable {a b : α}

section

variable (hg : Graded next num key P)
include hg

theorem Graded.level_spec (ha : P a) (hb : P b) (fuel : Nat) (hfuel : (num a - num b).toNat ≤ fuel) :
    (∃ l c, level next num (num b) fuel a = .ok (l, c) ∧ Leveled next num key P a b l c) ∨
      (level next num (num b) fuel a = .error .missing ∧ ∀ x y, ¬ Common next key a b x y) := by
  induction fuel generalizing a with
  | zero =>
    have hle : ¬ num b < num a := by omega
    refine .inl ⟨[], a, ?_, ha, by omega, fun _ _ h => h, fun h => h⟩
    rw [level, if_neg hle]
  | succ fuel ih =>
    by_cases hlt : num b < num a
    · rw [level, if_pos hlt]
      cases hp : next a with
      | none => exact .inr ⟨rfl, hg.no_common_left ha hb hlt fun p hp' => by cases hp.symm.trans hp'⟩
      | some p =>
        have hparent : ∀ p', next a = some p' → p' = p := fun p' hp' => Option.some.inj (hp'.symm.trans hp)
        have hstep := hg.step a p ha hp
        rcases ih (hg.closed a p ha hp) (by omega) with ⟨l, c, heq, hl⟩ | ⟨heq, hnone⟩
        · dsimp only
          rw [heq]
          refine .inl ⟨a :: l, c, rfl, hl.inside, ?_, fun l₁ l₂ h => ?_, fun h => ?_⟩
          · have := hl.number
            omega
          · exact hg.branches_left ha hb hlt hp (hl.branches l₁ l₂ h)
          · exact hg.no_common_left ha hb hlt fun p' hp' => hparent p' hp' ▸ hl.none h
        · dsimp only
          rw [heq]
          exact .inr ⟨rfl, hg.no_common_left ha hb hlt fun p' hp' => hparent p' hp' ▸ hnone⟩
    · refine .inl ⟨[], a, ?_, ha, by omega, fun _ _ h => h, fun h => h⟩
      rw [level, if_neg hlt]

theorem Graded.together_spec [DecidableEq κ] {low : Int} (hlow : ∀ a, P a → low ≤ num a) (ha : P a) (hb : P b)
    (heq : num a = num b) (fuel : Nat) (hfuel : (num a - low).toNat < fuel) :
    (∃ l₁ l₂, together next key fuel a b = .ok (l₁, l₂) ∧ Branches next num key a b l₁ l₂) ∨
      (together next key fuel a b = .error .missing ∧ ∀ x y, ¬ Common next key a b x y) := by
  induction fuel generalizing a b with
  | zero => omega
  | succ fuel ih =>
    rw [together]
    by_cases hkey : key a = key b
    · rw [if_pos hkey]
      exact .inl ⟨[], [], rfl, hg.branches_nil ha hkey⟩
    · rw [if_neg hkey]
      cases hp : next a with
      | none =>
        refine .inr ⟨rfl, hg.no_common_both ha hb heq hkey fun p q hp' => ?_⟩
        cases hp.symm.trans hp'
      | some p =>
        cases hq : next b with
        | none =>
          refine .inr ⟨rfl, hg.no_common_both ha hb heq hkey fun p' q hp' hq' => ?_⟩
          cases hq.symm.trans hq'
        | some q =>
          have hpstep := hg.step a p ha hp
          have hqstep := hg.step b q hb hq
          have hplow := hlow p (hg.closed a p ha hp)
          rcases ih (hg.closed a p ha hp) (hg.closed b q hb hq) (by omega) (by omega) with ⟨l₁, l₂, h, hbr⟩ | ⟨h, hnone⟩
          · dsimp only
            rw [h]
            exact .inl ⟨a :: l₁, b :: l₂, rfl, hg.branches_both ha hb heq hkey hp hq hbr⟩
          · dsimp only
            rw [h]
            refine .inr ⟨rfl, hg.no_common_both ha hb heq hkey fun p' q' hp' hq' => ?_⟩
            cases hp.symm.trans hp'
            cases hq.symm.trans hq'
            exact hnone

/-- **With enough fuel, the walk finds the paths to the lowest common ancestor, or that there is none.** -/
theorem Graded.branch_spec [DecidableEq κ] {low : Int} (hlow : ∀ a, P a → low ≤ num a) (ha : P a) (hb : P b)
    {fuel : Nat} (hfa : (num a - low).toNat < fuel) (hfb : (num b - low).toNat < fuel) :
    (∃ l₁ l₂, branch next num key fuel a b = .ok (l₁, l₂) ∧ Branches next num key a b l₁ l₂) ∨
      (branch next num key fuel a b = .error .missing ∧ ∀ x y, ¬ Common next key a b x y) := by
  have halow := hlow a ha
  have hblow := hlow b hb
  unfold branch
  rcases hg.level_spec ha hb fuel (by omega) with ⟨l₁, c, h₁, hl₁⟩ | ⟨h₁, hnone⟩
  · rw [h₁]
    have hc := hl₁.inside
    have hcnum := hl₁.number
    rcases hg.level_spec hb hc fuel (by omega) with ⟨l₂, d, h₂, hl₂⟩ | ⟨h₂, hnone⟩
    · have hdnum := hl₂.number
      rcases hg.together_spec hlow hc hl₂.inside (by omega) fuel (by omega) with ⟨r₁, r₂, h₃, hbr⟩ | ⟨h₃, hnone⟩
      · refine .inl ⟨l₁ ++ r₁, l₂ ++ r₂, ?_, ?_⟩
        · simp only [bind, Except.bind, h₂, h₃]
          rfl
        · have hright := hl₂.branches r₂ r₁ (hg.branches_symm hc hl₂.inside hbr)
          exact hl₁.branches r₁ _ (hg.branches_symm hb hc hright)
      · refine .inr ⟨?_, hl₁.none (Graded.no_common_symm (hl₂.none (Graded.no_common_symm hnone)))⟩
        simp [bind, Except.bind, h₂, h₃]
    · refine .inr ⟨?_, hl₁.none (Graded.no_common_symm hnone)⟩
      simp [bind, Except.bind, h₂]
  · rw [h₁]
    exact .inr ⟨rfl, hnone⟩

end

/-! ### Another parent function -/

section Map

variable {β : Type} {next' : β → Option β} {num' : β → Int} {key' : β → κ} {f : α → β} {Q : α → Prop}

/-- `f` carries parents, numbers and keys over, from what satisfies `Q`. -/
structure Carries (next : α → Option α) (num : α → Int) (key : α → κ) (next' : β → Option β) (num' : β → Int)
    (key' : β → κ) (f : α → β) (Q : α → Prop) : Prop where
  next : ∀ a p, Q a → next a = some p → Q p ∧ next' (f a) = some (f p)
  num : ∀ a, num' (f a) = num a
  key : ∀ a, key' (f a) = key a

variable {fuel : Nat}

variable (h : Carries next num key next' num' key' f Q)
include h

theorem Carries.level {floor : Int} {a c : α} (ha : Q a) {l : List α} (hl : level next num floor fuel a = .ok (l, c)) :
    level next' num' floor fuel (f a) = .ok (l.map f, f c) ∧ Q c := by
  induction fuel generalizing a l with
  | zero =>
    rw [Ancestry.level] at hl ⊢
    rw [h.num]
    split at hl
    · cases hl
    · next hle =>
      cases hl
      exact ⟨if_neg hle, ha⟩
  | succ fuel ih =>
    rw [Ancestry.level] at hl ⊢
    rw [h.num]
    split at hl
    · next hlt =>
      rw [if_pos hlt]
      cases hp : next a with
      | none =>
        rw [hp] at hl
        cases hl
      | some p =>
        rw [hp] at hl
        obtain ⟨⟨l', c'⟩, hrest, heq⟩ := Checked.map_eq_ok.1 hl
        cases heq
        obtain ⟨hQ, hp'⟩ := h.next a p ha hp
        obtain ⟨hlevel, hc⟩ := ih hQ hrest
        rw [hp']
        dsimp only
        rw [hlevel]
        exact ⟨rfl, hc⟩
    · next hle =>
      cases hl
      exact ⟨if_neg hle, ha⟩

theorem Carries.together [DecidableEq κ] {a b : α} (ha : Q a) (hb : Q b) {l₁ l₂ : List α}
    (hl : together next key fuel a b = .ok (l₁, l₂)) :
    together next' key' fuel (f a) (f b) = .ok (l₁.map f, l₂.map f) := by
  induction fuel generalizing a b l₁ l₂ with
  | zero =>
    rw [Ancestry.together] at hl ⊢
    rw [h.key, h.key]
    split at hl
    · next heq =>
      cases hl
      exact if_pos heq
    · cases hl
  | succ fuel ih =>
    rw [Ancestry.together] at hl ⊢
    rw [h.key, h.key]
    split at hl
    · next heq =>
      cases hl
      exact if_pos heq
    · next hne =>
      rw [if_neg hne]
      cases hp : next a with
      | none =>
        rw [hp] at hl
        cases hl
      | some p =>
        cases hq : next b with
        | none =>
          rw [hp, hq] at hl
          cases hl
        | some q =>
          rw [hp, hq] at hl
          obtain ⟨⟨m₁, m₂⟩, hrest, heq⟩ := Checked.map_eq_ok.1 hl
          cases heq
          obtain ⟨hQp, hp'⟩ := h.next a p ha hp
          obtain ⟨hQq, hq'⟩ := h.next b q hb hq
          rw [hp', hq']
          dsimp only
          rw [ih hQp hQq hrest]
          rfl

theorem Carries.branch [DecidableEq κ] {a b : α} (ha : Q a) (hb : Q b) {l₁ l₂ : List α}
    (hl : branch next num key fuel a b = .ok (l₁, l₂)) :
    branch next' num' key' fuel (f a) (f b) = .ok (l₁.map f, l₂.map f) := by
  unfold Ancestry.branch at hl ⊢
  simp only [Checked.bind_eq_ok, Checked.pure_eq_ok] at hl
  obtain ⟨⟨m₁, c⟩, h₁, ⟨m₂, d⟩, h₂, ⟨r₁, r₂⟩, h₃, heq⟩ := hl
  cases heq
  obtain ⟨h₁', hc⟩ := h.level ha h₁
  obtain ⟨h₂', hd⟩ := h.level hb h₂
  have h₃' := h.together hc hd h₃
  simp [bind, Except.bind, h.num, h₁', h₂', h₃', pure, Except.pure, List.map_append]

end Map

end WalkSpec

end Ancestry
