import Mathlib.Data.DFinsupp.WellFounded
import TronGoblin.Executor.ParallelSerial

/-!
# Block-STM always converges

* `WorkerLt`: what one move does to a worker; `workerLt_wf` shows that it cannot go on forever.
* `step_decreases`: every action lowers the driver's phase or, in the same phase, one worker.
* `enabled`: a state that has not converged has a next action.
* `scheduler_converges`: every iteration commits at least one transaction, committed transactions
  stay valid, the exit that returns `None` is never taken, and every run ends with all committed.
-/

namespace TronGoblin.BlockStm

open Option List Function

variable {R : Type} {B : OrdinaryBlock R} {s s' : Sched R} {i : Nat}

/-! ## Termination -/

/-- What one move does to the worker it moves. -/
inductive WorkerLt : Thread R → Thread R → Prop
  | start {keys : List ConflictKey} {inc : Nat} {p : TxProg R} :
      WorkerLt (.running keys inc p) .queued
  | call {keys : List ConflictKey} {inc : Nat} {o : TxOp} {next : o.Res → TxProg R} {a : o.Res} :
      WorkerLt (.running keys inc (next a)) (.running keys inc (.op o next))
  | executed {keys stale : List ConflictKey} {inc : Nat} {ws : List (Kv.Write ConflictKey Bytes)}
      {r : R} : WorkerLt (.flushing stale inc ws r) (.running keys inc (.ret r))
  | flush {stale stale' : List ConflictKey} {inc : Nat} {ws ws' : List (Kv.Write ConflictKey Bytes)}
      {r : R} (h : stale'.length + ws'.length < stale.length + ws.length) :
      WorkerLt (.flushing stale' inc ws' r) (.flushing stale inc ws r)
  | join {inc : Nat} {r : R} : WorkerLt .idle (.flushing [] inc [] r)

theorem acc_idle : Acc (WorkerLt (R := R)) .idle := ⟨_, fun _ h => by cases h⟩

theorem acc_flushing {inc : Nat} {r : R} (m : Nat) :
    ∀ {stale : List ConflictKey} {ws : List (Kv.Write ConflictKey Bytes)},
      stale.length + ws.length = m → Acc (WorkerLt (R := R)) (.flushing stale inc ws r) := by
  induction m using Nat.strongRecOn with
  | ind m ih =>
    intro stale ws hm
    refine ⟨_, fun t ht => ?_⟩
    cases ht with
    | flush h => exact ih _ (by omega) rfl
    | join => exact acc_idle

theorem acc_running {keys : List ConflictKey} {inc : Nat} (p : TxProg R) :
    Acc (WorkerLt (R := R)) (.running keys inc p) := by
  induction p with
  | ret r =>
    refine ⟨_, fun t ht => ?_⟩
    cases ht with
    | executed => exact acc_flushing _ rfl
  | op o next ih =>
    refine ⟨_, fun t ht => ?_⟩
    cases ht with
    | call => exact ih _

theorem workerLt_wf : WellFounded (WorkerLt (R := R)) := by
  refine ⟨fun t => ?_⟩
  cases t with
  | idle => exact acc_idle
  | queued =>
    refine ⟨_, fun t ht => ?_⟩
    cases ht with
    | start => exact acc_running _
  | running keys inc p => exact acc_running p
  | flushing stale inc ws r => exact acc_flushing _ rfl

theorem threadStep_lt {pick : Nat} (h : threadStep B s i pick = some s') : WorkerLt (s'.threads i) (s.threads i) := by
  cases threadStep_move h with
  | start hth => simp only [hth, update_self]; exact .start
  | call hth => simp only [hth, update_self]; exact .call
  | executed hth => simp only [hth, update_self]; exact .executed
  | remove hth hkey =>
    simp only [hth, update_self]
    have := List.length_eraseIdx_add_one (List.getElem?_eq_some_iff.1 hkey).1
    exact .flush (by omega)
  | publish hth hw =>
    simp only [hth, update_self]
    have := List.length_eraseIdx_add_one (List.getElem?_eq_some_iff.1 hw).1
    exact .flush (by omega)
  | join hth => simp only [hth, update_self]; exact .join

/-- How far the driver is from its exit. -/
def Phase.rank (n : Nat) : Phase → Nat
  | .speculating => 2 * n + 4
  | .loopHead left => 2 * left + 1
  | .reexecuting left _ => 2 * left + 2
  | .converged => 0
  | .notConverged => 0

theorem controlStep_rank (h : controlStep B s = some s') : s'.phase.rank B.n < s.phase.rank B.n := by
  cases controlStep_move h with
  | speculated hph _ =>
    rw [hph]
    show 2 * (B.n + 1) + 1 < 2 * B.n + 4
    omega
  | exhausted hph =>
    rw [hph]
    show 0 < 2 * 0 + 1
    omega
  | @exit left hph _ =>
    rw [hph]
    show 0 < 2 * (left + 1) + 1
    omega
  | @round left hph _ =>
    rw [hph]
    show 2 * left + 2 < 2 * (left + 1) + 1
    omega
  | @close left re hph _ =>
    rw [hph]
    simp only [finishRound]
    split
    · show 0 < 2 * left + 2
      omega
    · show 2 * left + 1 < 2 * left + 2
      omega

/-- The driver's rank and the workers of the block. -/
def progress (B : OrdinaryBlock R) (s : Sched R) : Nat × (Fin B.n → Thread R) :=
  (s.phase.rank B.n, fun j => s.threads j)

/-- Lower rank, or the same rank and one worker lower. -/
def ProgressLt (B : OrdinaryBlock R) : Nat × (Fin B.n → Thread R) → Nat × (Fin B.n → Thread R) → Prop :=
  Prod.Lex (· < ·) (Pi.Lex (· < ·) fun {_} => WorkerLt)

theorem progressLt_wf : WellFounded (ProgressLt B) :=
  WellFounded.prod_lex Nat.lt_wfRel.wf (Pi.Lex.wellFounded _ fun _ => workerLt_wf)

theorem step_decreases (I : Inv B s) {a : Action} (h : step B s a = some s') :
    ProgressLt B (progress B s') (progress B s) := by
  cases a with
  | control => exact Prod.Lex.left _ _ (controlStep_rank h)
  | thread i pick =>
    have own := threadStep_own h
    have hi : i < B.n := by
      by_contra hlt
      exact threadStep_ne_idle h (I.outside i (by omega))
    unfold progress
    rw [own.phase]
    refine Prod.Lex.right _ ⟨⟨i, hi⟩, fun j hj => ?_, threadStep_lt h⟩
    refine (own.other j ?_).threads
    have : j.val < i := hj
    omega

/-! ## Progress -/

theorem threadStep_enabled (hi : i < B.n) (h : s.threads i ≠ .idle) : ∃ s', threadStep B s i 0 = some s' := by
  obtain ⟨p, hp⟩ := B.exists_tx hi
  unfold threadStep
  split
  · rename_i hth; exact absurd hth h
  · rw [hp]; exact ⟨_, rfl⟩
  · exact ⟨_, rfl⟩
  · exact ⟨_, rfl⟩
  · exact ⟨_, rfl⟩
  · exact ⟨_, rfl⟩
  · exact ⟨_, rfl⟩

theorem enabled (I : Inv B s) (h : s.phase ≠ .converged) : ∃ a s', step B s a = some s' := by
  -- a round is either joined or has a worker left to move
  have round : s.joined B = true ∨ ∃ a s', step B s a = some s' := by
    by_cases hj : s.joined B = true
    · exact Or.inl hj
    · rw [joined_iff] at hj
      push Not at hj
      obtain ⟨i, hi, hne⟩ := hj
      obtain ⟨s', hs⟩ := threadStep_enabled hi hne
      exact Or.inr ⟨.thread i 0, s', hs⟩
  have hph := I.phase
  cases hphase : s.phase with
  | speculating =>
    rcases round with hj | hstep
    · exact ⟨.control, _, by simp only [step, controlStep, hphase, hj, if_true]; rfl⟩
    · exact hstep
  | loopHead left =>
    cases left with
    | zero => exact ⟨.control, _, by simp only [step, controlStep, hphase]; rfl⟩
    | succ left =>
      by_cases hc : s.committed = B.n
      · exact ⟨.control, _, by simp only [step, controlStep, hphase, if_pos hc]; rfl⟩
      · exact ⟨.control, _, by simp only [step, controlStep, hphase, if_neg hc]; rfl⟩
  | reexecuting left re =>
    rcases round with hj | hstep
    · exact ⟨.control, _, by simp only [step, controlStep, hphase, hj, if_true]; rfl⟩
    · exact hstep
  | converged => exact absurd hphase h
  | notConverged => rw [hphase] at hph; exact hph.elim

theorem step_committed_le {a : Action} (h : step B s a = some s') : s.committed ≤ s'.committed := by
  cases a with
  | thread i pick => rw [(threadStep_own h).committed]
  | control =>
    cases controlStep_move h with
    | speculated | exhausted | exit | round => exact Nat.le_refl _
    | close => exact Nat.le_add_right _ _

theorem run_committed_le {as : List Action} (h : run B s as = some s') : s.committed ≤ s'.committed := by
  induction as generalizing s with
  | nil => cases h; exact Nat.le_refl _
  | cons a as ih =>
    obtain ⟨t, ht, hrun⟩ := bind_eq_some_iff.1 h
    exact Nat.le_trans (step_committed_le ht) (ih hrun)

theorem run_append {as bs : List Action} {s : Sched R} :
    run B s (as ++ bs) = (run B s as).bind fun t => run B t bs := by
  induction as generalizing s with
  | nil => rfl
  | cons a as ih =>
    simp only [cons_append, run, bind_assoc]
    congr 1
    funext t
    exact ih

theorem Reachable.run {as : List Action} (h : Reachable B s) (hr : run B s as = some s') : Reachable B s' := by
  obtain ⟨bs, hbs⟩ := h
  exact ⟨bs ++ as, by rw [run_append, hbs]; exact hr⟩

theorem run_threads {ts : List Action} (hts : ∀ a ∈ ts, a ≠ .control) (h : run B s ts = some s') :
    s'.committed = s.committed ∧ s'.phase = s.phase := by
  induction ts generalizing s with
  | nil => cases h; exact ⟨rfl, rfl⟩
  | cons a ts ih =>
    obtain ⟨t, ht, hrun⟩ := bind_eq_some_iff.1 h
    obtain ⟨h1, h2⟩ := ih (fun b hb => hts b (mem_cons_of_mem _ hb)) hrun
    cases a with
    | control => exact absurd rfl (hts _ (mem_cons_self ..))
    | thread i pick =>
      have own := threadStep_own ht
      exact ⟨h1.trans own.committed, h2.trans own.phase⟩

/-- One iteration: the driver hands out the round, the workers move, the driver closes it. -/
theorem iteration_commits (I : Inv B s) {left : Nat} (hph : s.phase = .loopHead left)
    (hlt : s.committed < B.n) {ts : List Action} (hts : ∀ a ∈ ts, a ≠ .control)
    (h : run B s (.control :: ts ++ [.control]) = some s') : s.committed < s'.committed := by
  rw [cons_append] at h
  obtain ⟨t, ht, h⟩ := bind_eq_some_iff.1 h
  rw [run_append] at h
  obtain ⟨u, hu, h⟩ := bind_eq_some_iff.1 h
  obtain ⟨v, hv, h⟩ := bind_eq_some_iff.1 h
  cases h
  cases left with
  | zero =>
    have := I.phase
    rw [hph] at this
    have := this.2
    omega
  | succ left =>
    have Iu := run_inv (step_inv I ht) hu
    simp only [step, controlStep, hph, if_neg (Nat.ne_of_lt hlt)] at ht
    cases ht
    obtain ⟨hcom, hphase⟩ := run_threads hts hu
    have hphu := Iu.phase
    rw [hphase] at hphu
    obtain ⟨h1, _, h3⟩ := hphu
    simp only [step, controlStep, hphase, startRound] at hv
    split at hv
    · rename_i hj
      cases hv
      have hidle := joined_iff.1 hj u.committed h1
      have hpos := advanced_pos h1 (h3.resolve_left (by rw [hidle]; simp))
      have hcom : u.committed = s.committed := hcom
      show s.committed < u.committed + u.advanced B
      omega
    · cases hv

/-- **Block-STM always converges.**  An iteration that starts below `n` commits at least one more transaction, a
committed transaction still validates later, the exit that returns `None` is never taken, no run goes on forever, and
one that cannot go on has committed everything. -/
theorem scheduler_converges (B : OrdinaryBlock R) :
    (∀ s s' left ts, Reachable B s → s.phase = .loopHead left → s.committed < B.n →
      (∀ a ∈ ts, a ≠ .control) → run B s (.control :: ts ++ [.control]) = some s' →
      s.committed < s'.committed) ∧
    (∀ s s' as, Reachable B s → run B s as = some s' → ∀ i < s.committed, s'.valid i = true) ∧
    (∀ s, Reachable B s → s.phase ≠ .notConverged) ∧
    WellFounded (fun t s => Reachable B s ∧ ∃ a, step B s a = some t) ∧
    (∀ s, Reachable B s → (∀ a, step B s a = none) → s.phase = .converged ∧ s.committed = B.n) := by
  refine ⟨?_, ?_, ?_, ?_, ?_⟩
  · intro s s' left ts hs hph hlt hts hrun
    exact iteration_commits (reachable_inv hs) hph hlt hts hrun
  · intro s s' as hs hrun i hi
    have := run_committed_le hrun
    exact (reachable_inv (hs.run hrun)).valid i (by omega)
  · intro s hs hph
    have := (reachable_inv hs).phase
    rw [hph] at this
    exact this
  · refine Subrelation.wf ?_ (InvImage.wf (progress B) progressLt_wf)
    rintro t s ⟨hs, a, ha⟩
    exact step_decreases (reachable_inv hs) ha
  · intro s hs hstuck
    have I := reachable_inv hs
    have hc : s.phase = .converged := by
      by_contra hne
      obtain ⟨a, s', ha⟩ := enabled I hne
      rw [hstuck a] at ha
      cases ha
    have hph := I.phase
    rw [hc] at hph
    exact ⟨hc, hph.2⟩

/-- The iteration of `conflictRun` re-executes transaction 1 and commits both. -/
theorem scheduler_converges_conflict :
    ∃ s s', Reachable conflictBlock s ∧ s.phase = .loopHead 3 ∧ s.committed = 0 ∧
      run conflictBlock s (.control :: replicate 6 (.thread 1 0) ++ [.control]) = some s' ∧
      s.committed < s'.committed ∧ s'.phase ≠ .notConverged := by
  have hrun : ∃ s s', run conflictBlock (Sched.init conflictBlock)
      (replicate 6 (.thread 1 0) ++ replicate 5 (.thread 0 0) ++ [.control]) = some s ∧
      run conflictBlock s (.control :: replicate 6 (.thread 1 0) ++ [.control]) = some s' ∧
      s.phase = .loopHead 3 ∧ s.committed = 0 := ⟨_, _, rfl, rfl, rfl, rfl⟩
  obtain ⟨s, s', h, h', hph, hc⟩ := hrun
  obtain ⟨hcommit, _, hnever, _⟩ := scheduler_converges conflictBlock
  refine ⟨s, s', ⟨_, h⟩, hph, hc, h', ?_, hnever s' (Reachable.run ⟨_, h⟩ h')⟩
  exact hcommit s s' 3 _ ⟨_, h⟩ hph (by rw [hc]; decide) (by simp) h'

end TronGoblin.BlockStm
