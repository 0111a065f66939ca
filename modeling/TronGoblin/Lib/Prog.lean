import Mathlib.Logic.Relation

/-!
# Programs over an interface of operations

A program either returns or performs an operation and continues with the operation's result.
The state the operations act on, and what they answer, is given separately.

* `exec` runs a program against a deterministic handler.
* `Reach` is the small-step relation of a possibly nondeterministic semantics: its configurations
  are the points between two operations, the points at which a crash can fall.
* `wp sem G Q` is the weakest precondition for "`G o s` holds whenever operation `o` is about to
  be performed in state `s`, and `Q` holds on return"; `wp_reach` is its soundness for every
  configuration of every run, finished or not.
* `wp_bind`, `wp_forM` and their forms for `ExceptT` are the composition and loop rules.
* `wp_onlyOps` turns an invariant of single operations into one of every program made of them.
* `runAll` performs programs one after the other, whatever they return.
-/

variable {Op : Type} {Res : Op → Type} {α β ε σ ι : Type}

/-- Programs that perform operations `o : Op` and branch on their answers in `Res o`. -/
inductive Prog (Op : Type) (Res : Op → Type) (α : Type) : Type
  | ret (a : α)
  | op (o : Op) (next : Res o → Prog Op Res α)

namespace Prog

def bind : Prog Op Res α → (α → Prog Op Res β) → Prog Op Res β
  | ret a, f => f a
  | op o next, f => op o fun r => (next r).bind f

instance : Monad (Prog Op Res) where
  pure := ret
  bind := bind

/-- Every operation the program can come to perform satisfies `P`. -/
def OnlyOps (P : Op → Prop) : Prog Op Res α → Prop
  | ret _ => True
  | op o next => P o ∧ ∀ r, (next r).OnlyOps P

/-! ## Deterministic runs -/

/-- What each operation answers and how it changes the state. -/
abbrev Handler (Op : Type) (Res : Op → Type) (σ : Type) := (o : Op) → σ → Res o × σ

def exec (h : Handler Op Res σ) : Prog Op Res α → σ → α × σ
  | ret a, s => (a, s)
  | op o next, s => (next (h o s).1).exec h (h o s).2

theorem exec_bind (h : Handler Op Res σ) (p : Prog Op Res α) (f : α → Prog Op Res β) (s : σ) :
    exec h (p >>= f) s = exec h (f (exec h p s).1) (exec h p s).2 := by
  induction p generalizing s with
  | ret a => rfl
  | op o next ih => exact ih (h o s).1 (h o s).2

/-! ## Small steps -/

/-- What each operation may answer, and the state it may leave. -/
abbrev Sem (Op : Type) (Res : Op → Type) (σ : Type) := (o : Op) → σ → Res o → σ → Prop

/-- The semantics in which every operation behaves as the handler says. -/
def Handler.sem (h : Handler Op Res σ) : Sem Op Res σ := fun o s r s' => h o s = (r, s')

/-- The semantics in which every operation `o` is performed in a state with `C o`. -/
def restrict (sem : Sem Op Res σ) (C : Op → σ → Prop) : Sem Op Res σ :=
  fun o s r s' => C o s ∧ sem o s r s'

inductive Step (sem : Sem Op Res σ) : Prog Op Res α × σ → Prog Op Res α × σ → Prop
  | mk {o : Op} {next : Res o → Prog Op Res α} {s s' : σ} {r : Res o} (h : sem o s r s') :
      Step sem (op o next, s) (next r, s')

/-- Some operations are performed: the configurations a run passes through. -/
abbrev Reach (sem : Sem Op Res σ) : Prog Op Res α × σ → Prog Op Res α × σ → Prop :=
  Relation.ReflTransGen (Step sem)

variable {c d : Prog Op Res α × σ}

theorem reach_mono {sem sem' : Sem Op Res σ} (h : ∀ o s r s', sem o s r s' → sem' o s r s') (hr : Reach sem c d) :
    Reach sem' c d := by
  induction hr with
  | refl => exact .refl
  | tail _ hstep ih =>
    cases hstep with
    | mk hs => exact ih.tail (.mk (h _ _ _ _ hs))

theorem reach_exec (h : Handler Op Res σ) (p : Prog Op Res α) (s : σ) :
    Reach h.sem (p, s) (ret (exec h p s).1, (exec h p s).2) := by
  induction p generalizing s with
  | ret a => exact .refl
  | op o next ih => exact .head (Step.mk rfl) (ih (h o s).1 (h o s).2)

/-- The configuration after `n` operations, or at the end of the program. -/
def steps (h : Handler Op Res σ) : Nat → Prog Op Res α × σ → Prog Op Res α × σ
  | 0, c => c
  | _ + 1, (ret a, s) => (ret a, s)
  | n + 1, (op o next, s) => steps h n (next (h o s).1, (h o s).2)

theorem reach_steps (h : Handler Op Res σ) (n : Nat) (c : Prog Op Res α × σ) : Reach h.sem c (steps h n c) := by
  induction n generalizing c with
  | zero => exact .refl
  | succ n ih =>
    obtain ⟨p, s⟩ := c
    cases p with
    | ret a => exact .refl
    | op o next => exact .head (Step.mk rfl) (ih _)

/-! ## Weakest preconditions -/

/-- `G o s` holds whenever `o` is about to be performed in `s`, and `Q` holds on return. -/
def wp (sem : Sem Op Res σ) (G : Op → σ → Prop) (Q : α → σ → Prop) : Prog Op Res α → σ → Prop
  | ret a, s => Q a s
  | op o next, s => G o s ∧ ∀ r s', sem o s r s' → wp sem G Q (next r) s'

variable {sem : Sem Op Res σ} {G : Op → σ → Prop} {Q : α → σ → Prop}

theorem wp_bind (p : Prog Op Res α) (f : α → Prog Op Res β) (Q : β → σ → Prop) (s : σ) :
    wp sem G Q (p >>= f) s ↔ wp sem G (fun a => wp sem G Q (f a)) p s := by
  induction p generalizing s with
  | ret a => exact Iff.rfl
  | op o next ih =>
    exact and_congr_right fun _ => forall₂_congr fun r s' => imp_congr_right fun _ => ih r s'

variable {p : Prog Op Res α} {s : σ}

theorem wp_mono {Q' : α → σ → Prop} (h : ∀ a s, Q a s → Q' a s) {p : Prog Op Res α} {s : σ}
    (hp : wp sem G Q p s) : wp sem G Q' p s := by
  induction p generalizing s with
  | ret a => exact h a s hp
  | op o next ih => exact ⟨hp.1, fun r s' hs => ih r (hp.2 r s' hs)⟩

theorem wp_step (hc : wp sem G Q c.1 c.2) (h : Step sem c d) : wp sem G Q d.1 d.2 := by
  cases h with
  | mk hs => exact hc.2 _ _ hs

/-- **Soundness.** The weakest precondition is preserved along a run. -/
theorem wp_reach (hc : wp sem G Q c.1 c.2) (h : Reach sem c d) : wp sem G Q d.1 d.2 := by
  induction h with
  | refl => exact hc
  | tail _ hstep ih => exact wp_step ih hstep

variable {h : Handler Op Res σ}

theorem wp_exec (hp : wp h.sem G Q p s) : Q (exec h p s).1 (exec h p s).2 :=
  wp_reach hp (reach_exec h p s)

/-- Every run of a deterministic program ends where `exec` says. -/
theorem wp_exec_eq (h : Handler Op Res σ) (p : Prog Op Res α) (s : σ) :
    wp h.sem (fun _ _ => True) (fun a t => (a, t) = exec h p s) p s := by
  induction p generalizing s with
  | ret a => exact rfl
  | op o next ih =>
    refine ⟨trivial, fun r s' hs => ?_⟩
    have hs : h o s = (r, s') := hs
    have hnext := ih r s'
    simp only [exec, hs]
    exact hnext

theorem wp_handler (o : Op) (next : Res o → Prog Op Res α) (s : σ) :
    wp h.sem G Q (op o next) s ↔ G o s ∧ wp h.sem G Q (next (h o s).1) (h o s).2 := by
  refine and_congr_right fun _ => ⟨fun H => H _ _ rfl, fun H r s' hs => ?_⟩
  rw [hs] at H
  exact H

theorem wp_and {G' : Op → σ → Prop} {Q' : α → σ → Prop} (h : wp sem G Q p s) (h' : wp sem G' Q' p s) :
    wp sem (fun o s => G o s ∧ G' o s) (fun a s => Q a s ∧ Q' a s) p s := by
  induction p generalizing s with
  | ret a => exact ⟨h, h'⟩
  | op o next ih =>
    exact ⟨⟨h.1, h'.1⟩, fun r s' hs => ih r (h.2 r s' hs) (h'.2 r s' hs)⟩

theorem wp_guard_mono {G' : Op → σ → Prop} (hG : ∀ o s, G o s → G' o s) (h : wp sem G Q p s) : wp sem G' Q p s := by
  induction p generalizing s with
  | ret a => exact h
  | op o next ih => exact ⟨hG o s h.1, fun r s' hs => ih r (h.2 r s' hs)⟩

variable {P : Op → Prop}

theorem onlyOps_bind {f : α → Prog Op Res β} (hp : p.OnlyOps P) (hf : ∀ a, (f a).OnlyOps P) : (p >>= f).OnlyOps P := by
  induction p with
  | ret a => exact hf a
  | op o next ih => exact ⟨hp.1, fun r => ih r (hp.2 r)⟩

theorem onlyOps_true (p : Prog Op Res α) : p.OnlyOps fun _ => True := by
  induction p with
  | ret a => trivial
  | op o next ih => exact ⟨trivial, ih⟩

theorem wp_onlyOps {J : σ → Prop} (hJ : ∀ o s r s', P o → sem o s r s' → J s → J s') (hp : p.OnlyOps P) (h : J s) :
    wp sem (fun _ => J) (fun _ => J) p s := by
  induction p generalizing s with
  | ret a => exact h
  | op o next ih => exact ⟨h, fun r s' hs => ih r (hp.2 r) (hJ o s r s' hp.1 hs h)⟩

/-- Every point of a run satisfies what guards every operation and holds on return. -/
theorem wp_point {J : σ → Prop} (h : wp sem (fun _ => J) (fun _ => J) p s) : J s := by
  cases p with
  | ret a => exact h
  | op o next => exact h.1

/-- Perform `f x` for each `x` in turn, whatever the earlier ones answered. -/
def runAll (f : ι → Prog Op Res α) : List ι → Prog Op Res (List α)
  | [] => ret []
  | x :: xs => do
    let a ← f x
    let as ← runAll f xs
    pure (a :: as)

variable {xs : List ι}

/-- **Sequence rule.** `J done` holds after the programs of `done`. -/
theorem wp_runAll {f : ι → Prog Op Res α} (J : List ι → σ → Prop)
    (step : ∀ done x rest, xs = done ++ x :: rest → ∀ s, J done s → wp sem G (fun _ => J (done ++ [x])) (f x) s)
    (h : J [] s) : wp sem G (fun _ => J xs) (runAll f xs) s := by
  suffices ∀ rest done, xs = done ++ rest → ∀ s, J done s →
      wp sem G (fun _ => J xs) (runAll f rest) s from this xs [] rfl s h
  intro rest
  induction rest with
  | nil =>
    intro done hxs s hs
    rw [List.append_nil] at hxs
    subst hxs
    exact hs
  | cons x rest ih =>
    intro done hxs s hs
    refine (wp_bind _ _ _ s).2 (wp_mono (fun a t ht => ?_) (step done x rest hxs s hs))
    refine (wp_bind _ _ _ t).2 ?_
    exact ih (done ++ [x]) (by rw [hxs, List.append_assoc]; rfl) t ht

/-! ## Programs that can fail -/

/-- A postcondition for the result and one for the error. -/
def post (Q : α → σ → Prop) (E : ε → σ → Prop) : Except ε α → σ → Prop
  | .ok a, s => Q a s
  | .error e, s => E e s

/-- A program that cannot fail returns a result. -/
theorem exec_ok {Q : α → σ → Prop} {p : ExceptT ε (Prog Op Res) α} (hp : wp h.sem G (post Q fun _ _ => False) p s) :
    ∃ a, (exec h p s).1 = .ok a ∧ Q a (exec h p s).2 := by
  have hex := wp_exec hp
  cases hr : (exec h p s).1 with
  | ok a =>
    rw [hr] at hex
    exact ⟨a, rfl, hex⟩
  | error e =>
    rw [hr] at hex
    exact hex.elim

theorem wp_bindE (p : ExceptT ε (Prog Op Res) α) (f : α → ExceptT ε (Prog Op Res) β)
    (Q : Except ε β → σ → Prop) (s : σ) :
    wp sem G Q (p >>= f : ExceptT ε (Prog Op Res) β) s ↔
      wp sem G (post (fun a => wp sem G Q (f a)) fun e => Q (.error e)) p s := by
  refine (wp_bind _ _ Q s).trans ⟨wp_mono fun r s h => ?_, wp_mono fun r s h => ?_⟩
  · cases r with
    | ok a => exact h
    | error e => exact h
  · cases r with
    | ok a => exact h
    | error e => exact h

section

variable {E : ε → σ → Prop} {p : ExceptT ε (Prog Op Res) α}

/-- **Rule of consequence**, for the result and for the error. -/
theorem wp_post {R : Except ε α → σ → Prop} (hp : wp sem G (post Q E) p s) (hE : ∀ e t, E e t → R (.error e) t)
    (h : ∀ a t, Q a t → R (.ok a) t) : wp sem G R p s := by
  refine wp_mono (fun r t ht => ?_) hp
  cases r with
  | ok a => exact h a t ht
  | error e => exact hE e t ht

/-- **Sequence rule** for a program that can fail. -/
theorem wp_seq {f : α → ExceptT ε (Prog Op Res) β} {R : Except ε β → σ → Prop} (hp : wp sem G (post Q E) p s)
    (hE : ∀ e t, E e t → R (.error e) t) (h : ∀ a t, Q a t → wp sem G R (f a) t) :
    wp sem G R (p >>= f : ExceptT ε (Prog Op Res) β) s := (wp_bindE p f R s).2 (wp_post hp hE h)

end

/-- **Loop rule.** `J done` holds after the iterations of `done`. -/
theorem wp_forM {f : ι → ExceptT ε (Prog Op Res) PUnit} {E : ε → σ → Prop} (J : List ι → σ → Prop)
    (step : ∀ done x rest, xs = done ++ x :: rest → ∀ s, J done s →
      wp sem G (post (fun _ => J (done ++ [x])) E) (f x) s) (h : J [] s) :
    wp sem G (post (fun _ => J xs) E) (xs.forM f : ExceptT ε (Prog Op Res) PUnit) s := by
  suffices ∀ rest done, xs = done ++ rest → ∀ s, J done s →
      wp sem G (post (fun _ => J xs) E) (rest.forM f : ExceptT ε (Prog Op Res) PUnit) s from
    this xs [] rfl s h
  intro rest
  induction rest with
  | nil =>
    intro done hxs s hs
    rw [List.append_nil] at hxs
    subst hxs
    exact hs
  | cons x rest ih =>
    intro done hxs s hs
    exact wp_seq (step done x rest hxs s hs) (fun _ _ => id)
      fun _ => ih (done ++ [x]) (by rw [hxs, List.append_assoc]; rfl)

theorem onlyOps_forM {f : ι → ExceptT ε (Prog Op Res) PUnit} (h : ∀ x ∈ xs, OnlyOps P (f x)) :
    OnlyOps P (xs.forM f : ExceptT ε (Prog Op Res) PUnit) := by
  induction xs with
  | nil => trivial
  | cons x xs ih =>
    refine onlyOps_bind (h x (List.mem_cons_self ..)) fun r => ?_
    cases r with
    | error e => trivial
    | ok a => exact ih fun y hy => h y (List.mem_cons_of_mem _ hy)

theorem onlyOps_bindE {p : ExceptT ε (Prog Op Res) α} {f : α → ExceptT ε (Prog Op Res) β} (hp : OnlyOps P p)
    (hf : ∀ a, OnlyOps P (f a)) : OnlyOps P (p >>= f : ExceptT ε (Prog Op Res) β) := by
  refine onlyOps_bind hp fun r => ?_
  cases r with
  | error e => trivial
  | ok a => exact hf a

end Prog
