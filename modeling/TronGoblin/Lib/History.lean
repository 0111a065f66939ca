import Mathlib.Data.List.Induction

/-!
# Histories

A system that takes one action after the other, and what can be said of its past.

* `invariant`: what every action keeps holds after every list of actions.
* `Each`: every action of a list is, in the state it is taken in, of some kind; `invariant_each`.
* `tally`: what the actions add up to, each counted in the state it is taken in.
* `Since`: a property has held since an action of some kind; `since_of_entered` finds that action.
-/

namespace History

open List

variable {σ α : Type} (step : σ → α → σ) (s₀ : σ)

def after (acts : List α) : σ := acts.foldl step s₀

theorem after_concat (acts : List α) (a : α) : after step s₀ (acts ++ [a]) = step (after step s₀ acts) a := by
  rw [after, foldl_append]
  rfl

/-- `X` has held since an action that was, in the state it was taken in, of the kind `E`. -/
def Since (E : σ → α → Prop) (X : σ → Prop) (acts : List α) : Prop :=
  ∃ earlier a later, acts = earlier ++ a :: later ∧ E (after step s₀ earlier) a ∧
    ∀ part, part <+: later → X (after step s₀ (earlier ++ a :: part))

/-- Every action is, in the state it is taken in, of the kind `E`. -/
def Each (E : σ → α → Prop) (acts : List α) : Prop :=
  ∀ earlier a later, acts = earlier ++ a :: later → E (after step s₀ earlier) a

/-- The sum of what each action counts for in the state it is taken in. -/
def tally (f : σ → α → Int) : σ → List α → Int
  | _, [] => 0
  | s, a :: acts => f s a + tally f (step s a) acts

theorem tally_append (f : σ → α → Int) (acts later : List α) :
    tally step f s₀ (acts ++ later) = tally step f s₀ acts + tally step f (after step s₀ acts) later := by
  induction acts generalizing s₀ with
  | nil => simp [tally, after]
  | cons b acts ih =>
    rw [cons_append, tally, tally, ih, Int.add_assoc]
    rfl

theorem tally_concat (f : σ → α → Int) (acts : List α) (a : α) :
    tally step f s₀ (acts ++ [a]) = tally step f s₀ acts + f (after step s₀ acts) a := by
  rw [tally_append, tally, tally, Int.add_zero]

variable {f : σ → α → Int}

theorem tally_nonneg (h : ∀ s a, 0 ≤ f s a) (acts : List α) : 0 ≤ tally step f s₀ acts := by
  induction acts generalizing s₀ with
  | nil => exact Int.le_refl 0
  | cons a acts ih => exact Int.add_nonneg (h s₀ a) (ih (step s₀ a))

theorem le_tally (h : ∀ s a, 0 ≤ f s a) (earlier : List α) (a : α) (later : List α) :
    f (after step s₀ earlier) a ≤ tally step f s₀ (earlier ++ a :: later) := by
  have hearlier := tally_nonneg step s₀ h earlier
  have hlater := tally_nonneg step (step (after step s₀ earlier) a) h later
  rw [tally_append, tally]
  omega

variable {step s₀}

theorem each_nil (E : σ → α → Prop) : Each step s₀ E [] := by
  intro earlier a later h
  cases earlier <;> cases h

variable {E : σ → α → Prop} {acts : List α} {a : α}

theorem Each.cons (ha : E s₀ a) (h : Each step (step s₀ a) E acts) : Each step s₀ E (a :: acts) := by
  intro earlier b later heq
  cases earlier with
  | nil =>
    cases heq
    exact ha
  | cons c earlier =>
    cases heq
    exact h earlier b later rfl

theorem tally_eq_zero (h : Each step s₀ (fun s a => f s a = 0) acts) : tally step f s₀ acts = 0 := by
  induction acts generalizing s₀ with
  | nil => rfl
  | cons a acts ih =>
    have hhead : f s₀ a = 0 := h [] a acts rfl
    have htail := ih fun earlier b later heq => h (a :: earlier) b later (by rw [heq, cons_append])
    rw [tally, hhead, htail, Int.add_zero]

theorem Each.of_concat (h : Each step s₀ E (acts ++ [a])) : Each step s₀ E acts ∧ E (after step s₀ acts) a := by
  refine ⟨fun earlier b later heq => h earlier b (later ++ [a]) ?_, h acts a [] rfl⟩
  rw [heq, append_assoc]
  rfl

theorem Each.concat (h : Each step s₀ E acts) (ha : E (after step s₀ acts) a) : Each step s₀ E (acts ++ [a]) := by
  intro earlier b later heq
  rcases eq_nil_or_concat later with rfl | ⟨later, c, rfl⟩
  · obtain ⟨rfl, hb⟩ := append_inj' heq rfl
    cases hb
    exact ha
  · have hsplit : acts ++ [a] = (earlier ++ b :: later) ++ [c] := by
      rw [heq]
      simp
    exact h earlier b later (append_inj' hsplit rfl).1

/-- What every action of the kind `E` keeps holds after every list of such actions. -/
theorem invariant_each {I : σ → Prop} (h₀ : I s₀) (hstep : ∀ s a, I s → E s a → I (step s a))
    (h : Each step s₀ E acts) : I (after step s₀ acts) := by
  induction acts using List.reverseRecOn with
  | nil => exact h₀
  | append_singleton acts a ih =>
    obtain ⟨hacts, ha⟩ := h.of_concat
    rw [after_concat]
    exact hstep _ a (ih hacts) ha

/-- The same, with what the actions have added up to. -/
theorem tally_invariant {I : σ → Int → Prop} (h₀ : I s₀ 0)
    (hstep : ∀ s a n, I s n → E s a → I (step s a) (n + f s a)) (h : Each step s₀ E acts) :
    I (after step s₀ acts) (tally step f s₀ acts) := by
  induction acts using List.reverseRecOn with
  | nil => exact h₀
  | append_singleton acts a ih =>
    obtain ⟨hacts, ha⟩ := h.of_concat
    rw [after_concat, tally_concat]
    exact hstep _ a _ (ih hacts) ha

theorem invariant {I : σ → Prop} (h₀ : I s₀) (hstep : ∀ s a, I s → I (step s a)) (acts : List α) :
    I (after step s₀ acts) := by
  induction acts using List.reverseRecOn with
  | nil => exact h₀
  | append_singleton acts a ih =>
    rw [after_concat]
    exact hstep _ a ih

/-- **What holds now and did not at first has held since an action that made it hold.** -/
theorem since_of_entered {I X : σ → Prop} (hI : ∀ acts, I (after step s₀ acts)) (h₀ : ¬ X s₀)
    (henter : ∀ s a, I s → ¬ X s → X (step s a) → E s a) (h : X (after step s₀ acts)) : Since step s₀ E X acts := by
  classical
  induction acts using List.reverseRecOn with
  | nil => exact absurd h h₀
  | append_singleton acts a ih =>
    by_cases hX : X (after step s₀ acts)
    · -- the action is the one of the shorter history
      obtain ⟨earlier, b, later, rfl, hE, hpart⟩ := ih hX
      refine ⟨earlier, b, later ++ [a], by simp, hE, fun part hp => ?_⟩
      rcases prefix_concat_iff.1 hp with rfl | hp
      · simpa using h
      · exact hpart part hp
    · have hnow := h
      rw [after_concat] at hnow
      refine ⟨acts, a, [], rfl, henter _ a (hI acts) hX hnow, fun part hp => ?_⟩
      rw [prefix_nil.1 hp]
      exact h

end History
