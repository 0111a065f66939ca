import Mathlib.Data.List.TakeWhile
import TronGoblin.Executor.Parallel

/-!
# Invariant of the Block-STM scheduler

What every state of every run satisfies, whatever the interleaving.

* `Tracks p rest cap`: the execution so far replays on every state that agrees with the recorded
  reads: from such a state the transaction `p` gets to `rest` with the captured writes.
* `ThreadInv`: per worker: what the multi-version memory holds at its index, relative to its
  capture, at each point of `run(i)`.
* `Inv`: all workers, the committed frontier and the driver's phase.
* `step_inv`, `reachable_inv`: **one action keeps the invariant; so does every run.**

The frontier clause of `PhaseInv` is what makes the loop converge: inside a round the lowest
uncommitted transaction either has not started or has a read-set that validates, because no worker
at or above the frontier can change a version below it.
-/

namespace TronGoblin.BlockStm

open List VersionedBackend Function MvMemory Sched TxCapture

variable {R : Type} {B : OrdinaryBlock R} {s s' : Sched R} {i : Nat}

/-! ## Replay of a captured execution -/

/-- The state returns the recorded values for the recorded reads. -/
def Agrees (reads : List ReadDescriptor) (σ : Kv.Map ConflictKey Bytes) : Prop :=
  ∀ rd ∈ reads, σ rd.key = rd.value

/-- On every state that agrees with the recorded reads, `p` gets to `rest` with these writes. -/
def Tracks (p rest : TxProg R) (cap : TxCapture) : Prop :=
  ∀ σ, Agrees cap.reads σ → runTx p σ = rest.exec (sessionHandler σ) cap.writes

theorem tracks_start (p : TxProg R) : Tracks p p .cleared := fun _ _ => rfl

theorem agrees_append {reads : List ReadDescriptor} {rd : ReadDescriptor}
    {σ : Kv.Map ConflictKey Bytes} (h : Agrees (reads ++ [rd]) σ) :
    Agrees reads σ ∧ σ rd.key = rd.value :=
  ⟨fun x hx => h x (mem_append_left _ hx), h rd (by simp)⟩

variable {p : TxProg R} {cap : TxCapture} {mv : MvMemory} {o : TxOp}

theorem Tracks.perform {next : o.Res → TxProg R} (h : Tracks p (.op o next) cap) (ho : B.backend.OrdinaryOp o)
    (hmv : mv.NoEstimate) : Tracks p (next (B.backend.perform mv i o cap).1) (B.backend.perform mv i o cap).2 := by
  cases o with
  | get key =>
    rcases get_ordinary ho hmv i cap with
      ⟨v, hw, hget⟩ | ⟨hw, rd, deps, hget, hkey, _⟩
    · simp only [perform, hget]
      intro σ hσ
      rw [h σ hσ]
      simp [Prog.exec, sessionHandler, hw]
    · simp only [perform, hget]
      intro σ hσ
      obtain ⟨hσ, hval⟩ := agrees_append hσ
      rw [h σ hσ]
      simp [Prog.exec, sessionHandler, hw, ← hkey, hval]
  | put key value =>
    simp only [perform, put_ordinary ho]
    intro σ hσ
    rw [h σ hσ]; rfl
  | delete key =>
    simp only [perform, delete_ordinary ho]
    intro σ hσ
    rw [h σ hσ]; rfl
  | revert =>
    intro σ hσ
    rw [h σ hσ]; rfl

/-- Facts about a capture that hold at every point of an execution. -/
structure CaptureOk (B : OrdinaryBlock R) (i : Nat) (cap : TxCapture) : Prop where
  base_value : ∀ rd ∈ cap.reads, rd.origin = .base → rd.value = B.backend.base rd.key
  deps_lt : ∀ j ∈ cap.versionDeps, j < i

theorem captureOk_cleared (B : OrdinaryBlock R) (i : Nat) : CaptureOk B i .cleared := by
  constructor <;> intro x hx <;> cases hx

theorem CaptureOk.perform (h : CaptureOk B i cap) (ho : B.backend.OrdinaryOp o) (hmv : mv.NoEstimate) :
    CaptureOk B i (B.backend.perform mv i o cap).2 := by
  cases o with
  | get key =>
    rcases get_ordinary ho hmv i cap with
      ⟨v, _, hget⟩ | ⟨_, rd, deps, hget, hkey, _, hbase, hdeps⟩
    · simpa only [perform, hget] using h
    · simp only [perform, hget]
      constructor
      · intro x hx hb
        rcases mem_append.1 hx with hx | hx
        · exact h.base_value x hx hb
        · rw [mem_singleton.1 hx] at hb ⊢
          rw [hkey]; exact hbase hb
      · intro j hj
        rcases mem_append.1 hj with hj | hj
        · exact h.deps_lt j hj
        · exact hdeps j hj
  | put key value =>
    simp only [perform, put_ordinary ho]
    exact ⟨h.base_value, h.deps_lt⟩
  | delete key =>
    simp only [perform, delete_ordinary ho]
    exact ⟨h.base_value, h.deps_lt⟩
  | revert => exact ⟨h.base_value, h.deps_lt⟩

theorem validate_perform (hmv : mv.NoEstimate) (ho : B.backend.OrdinaryOp o) (h : mv.validate i cap.reads = true) :
    mv.validate i (B.backend.perform mv i o cap).2.reads = true := by
  cases o with
  | get key =>
    rcases get_ordinary ho hmv i cap with
      ⟨v, _, hget⟩ | ⟨_, rd, deps, hget, _, hval, _⟩
    · simpa only [perform, hget] using h
    · simp only [perform, hget, validate, all_append]
      simp only [validate] at h
      simp [h, hval]
  | put key value => simpa only [perform, put_ordinary ho] using h
  | delete key => simpa only [perform, delete_ordinary ho] using h
  | revert => exact h

/-! ## Worker invariant -/

/-- The slot holds the write `v`, or nothing when there is none. -/
def PublishedAt (e : Option Entry) (v : Option VersionValue) : Prop :=
  ∃ inc, e = v.map (Entry.written · inc)

theorem publishedAt_none {e : Option Entry} : PublishedAt e none ↔ e = none :=
  ⟨fun ⟨_, h⟩ => h, fun h => ⟨0, h⟩⟩

/-- What the memory holds at the index of transaction `p`, at each point of its worker. -/
def ThreadInv (B : OrdinaryBlock R) (p : TxProg R) (versions : ConflictKey → Option Entry)
    (cap : TxCapture) (result : Option R) (deps : List Nat) : Thread R → Prop
  | .idle => (∃ r, result = some r ∧ Tracks p (.ret r) cap) ∧
      (∀ key, PublishedAt (versions key) (cap.effective key)) ∧ deps = cap.depSet
  | .queued => ∀ key, versions key ≠ none → key ∈ cap.writtenKeys
  | .running oldKeys _ rest => (∀ key, versions key ≠ none → key ∈ oldKeys) ∧
      Tracks p rest cap ∧ rest.OnlyOps B.backend.OrdinaryOp
  | .flushing stale _ writeSet r => Tracks p (.ret r) cap ∧ (∀ key ∈ stale, cap.effective key = none) ∧
      (∀ w ∈ writeSet, cap.effective w.key = some w.value) ∧
      ∀ key, key ∉ stale → (∀ w ∈ writeSet, w.key ≠ key) → PublishedAt (versions key) (cap.effective key)

/-- Worker and capture of transaction `i`. -/
structure TxInv (B : OrdinaryBlock R) (s : Sched R) (i : Nat) (p : TxProg R) : Prop where
  capture : CaptureOk B i (s.captures i)
  thread : ThreadInv B p (fun key => s.mv key i) (s.captures i) (s.results i) (s.deps i)
    (s.threads i)

/-- Nothing of transaction `j` differs between the two states. -/
structure SameTx (j : Nat) (s s' : Sched R) : Prop where
  captures : s'.captures j = s.captures j
  results : s'.results j = s.results j
  deps : s'.deps j = s.deps j
  threads : s'.threads j = s.threads j
  mv : ∀ key, s'.mv key j = s.mv key j

theorem TxInv.of_same (h : TxInv B s i p) (hs : SameTx i s s') : TxInv B s' i p := by
  constructor
  · rw [hs.captures]; exact h.capture
  · simp only [hs.captures, hs.results, hs.deps, hs.threads, hs.mv]
    exact h.thread

theorem TxInv.queue (h : TxInv B s i p) (hidle : s.threads i = .idle) :
    ThreadInv B p (fun key => s.mv key i) (s.captures i) (s.results i) (s.deps i) .queued := by
  have ht := h.thread
  rw [hidle] at ht
  obtain ⟨_, hpub, _⟩ := ht
  intro key hne
  obtain ⟨inc, hv⟩ := hpub key
  cases he : (s.captures i).effective key with
  | none => rw [he] at hv; exact absurd hv hne
  | some v => exact mem_writtenKeys_of_effective he

/-! ## What a move does -/

/-- What one move of the worker of transaction `i` does. -/
inductive WorkerMove (B : OrdinaryBlock R) (s : Sched R) (i : Nat) : Sched R → Prop
  | start {p : TxProg R} (hth : s.threads i = .queued) (hp : B.txs[i]? = some p) :
      WorkerMove B s i { s with
        incarnation := update s.incarnation i (s.incarnation i + s.phase.bump)
        captures := update s.captures i .cleared
        threads := update s.threads i
          (.running (s.captures i).writtenKeys (s.incarnation i + s.phase.bump) p) }
  | call {oldKeys : List ConflictKey} {inc : Nat} {o : TxOp} {next : o.Res → TxProg R}
      (hth : s.threads i = .running oldKeys inc (.op o next)) :
      WorkerMove B s i { s with
        captures := update s.captures i (B.backend.perform s.mv i o (s.captures i)).2
        threads := update s.threads i
          (.running oldKeys inc (next (B.backend.perform s.mv i o (s.captures i)).1)) }
  | executed {oldKeys : List ConflictKey} {inc : Nat} {r : R}
      (hth : s.threads i = .running oldKeys inc (.ret r)) :
      WorkerMove B s i { s with
        threads := update s.threads i (.flushing (oldKeys.filter (· ∉ (s.captures i).effectiveWriteSet.map (·.key))) inc
          (s.captures i).effectiveWriteSet r) }
  | remove {stale : List ConflictKey} {inc : Nat} {ws : List (Kv.Write ConflictKey Bytes)} {r : R}
      {pick : Nat} {key : ConflictKey} (hth : s.threads i = .flushing stale inc ws r)
      (hkey : stale[pick]? = some key) :
      WorkerMove B s i { s with
        mv := s.mv.removeWrite i key
        threads := update s.threads i (.flushing (stale.eraseIdx pick) inc ws r) }
  | publish {inc : Nat} {ws : List (Kv.Write ConflictKey Bytes)} {r : R} {pick : Nat}
      {w : Kv.Write ConflictKey Bytes} (hth : s.threads i = .flushing [] inc ws r)
      (hw : ws[pick]? = some w) :
      WorkerMove B s i { s with
        mv := s.mv.recordWrite ⟨i, inc⟩ w
        threads := update s.threads i (.flushing [] inc (ws.eraseIdx pick) r) }
  | join {inc : Nat} {r : R} (hth : s.threads i = .flushing [] inc [] r) :
      WorkerMove B s i { s with
        results := update s.results i (some r)
        deps := update s.deps i (s.captures i).depSet
        threads := update s.threads i .idle }

variable {pick : Nat}

theorem threadStep_move (h : threadStep B s i pick = some s') : WorkerMove B s i s' := by
  unfold threadStep at h
  split at h
  · cases h
  · rename_i hth
    split at h
    · cases h
    · rename_i hp
      cases h
      exact .start hth hp
  · rename_i hth
    cases h
    exact .call hth
  · rename_i hth
    cases h
    exact .executed hth
  · rename_i hth
    split at h
    · cases h
    · rename_i hkey
      cases h
      exact .remove hth hkey
  · rename_i hth
    split at h
    · cases h
    · rename_i hw
      cases h
      exact .publish hth hw
  · rename_i hth
    cases h
    exact .join hth

/-- What one move of the driver does. -/
inductive DriverMove (B : OrdinaryBlock R) (s : Sched R) : Sched R → Prop
  | speculated (hph : s.phase = .speculating) (hj : s.joined B = true) :
      DriverMove B s { s with phase := .loopHead (B.n + 1) }
  | exhausted (hph : s.phase = .loopHead 0) : DriverMove B s { s with phase := .notConverged }
  | exit {left : Nat} (hph : s.phase = .loopHead (left + 1)) (hc : s.committed = B.n) :
      DriverMove B s { s with phase := .converged }
  | round {left : Nat} (hph : s.phase = .loopHead (left + 1)) (hc : s.committed ≠ B.n) :
      DriverMove B s (startRound B s left)
  | close {left re : Nat} (hph : s.phase = .reexecuting left re) (hj : s.joined B = true) :
      DriverMove B s (finishRound B s left re)

theorem controlStep_move (h : controlStep B s = some s') : DriverMove B s s' := by
  unfold controlStep at h
  split at h
  · rename_i hph
    split at h <;> cases h
    exact .speculated hph ‹_›
  · rename_i hph
    cases h
    exact .exhausted hph
  · rename_i hph
    split at h <;> cases h
    · exact .exit hph ‹_›
    · exact .round hph ‹_›
  · rename_i hph
    split at h <;> cases h
    exact .close hph ‹_›
  · cases h
  · cases h

/-! ## One move of a worker -/

/-- A worker only touches its own transaction. -/
structure OwnStep (i : Nat) (s s' : Sched R) : Prop where
  other : ∀ j, j ≠ i → SameTx j s s'
  committed : s'.committed = s.committed
  phase : s'.phase = s.phase

section

variable (h : threadStep B s i pick = some s')
include h

theorem threadStep_own : OwnStep i s s' := by
  have upd : ∀ {α : Type} (f : Nat → α) (a : α) (j : Nat), j ≠ i →
      update f i a j = f j := fun f a j hj => update_of_ne hj a f
  cases threadStep_move h with
  | start | call =>
    exact ⟨fun j hj => ⟨upd _ _ j hj, rfl, rfl, upd _ _ j hj, fun _ => rfl⟩, rfl, rfl⟩
  | executed => exact ⟨fun j hj => ⟨rfl, rfl, rfl, upd _ _ j hj, fun _ => rfl⟩, rfl, rfl⟩
  | remove | publish =>
    refine ⟨fun j hj => ⟨rfl, rfl, rfl, upd _ _ j hj, fun key => ?_⟩, rfl, rfl⟩
    exact setEntry_of_idx_ne _ _ key hj _
  | join =>
    exact ⟨fun j hj => ⟨rfl, upd _ _ j hj, upd _ _ j hj, upd _ _ j hj, fun _ => rfl⟩, rfl, rfl⟩

theorem threadStep_noEstimate (hmv : s.mv.NoEstimate) : s'.mv.NoEstimate := by
  cases threadStep_move h with
  | start | call | executed | join => exact hmv
  | remove | publish => exact noEstimate_setEntry hmv _ _ (by simp)

end

/-- Publishing one slot leaves every other slot as it was and fills this one. -/
theorem publishedAt_setEntry {key : ConflictKey} {e : Option Entry} (he : PublishedAt e (cap.effective key))
    {key' : ConflictKey} (h : key' ≠ key → PublishedAt (mv key' i) (cap.effective key')) :
    PublishedAt (mv.setEntry key i e key' i) (cap.effective key') := by
  by_cases hk : key' = key
  · rw [hk, setEntry_self]; exact he
  · rw [setEntry_of_key_ne mv hk]; exact h hk

/-- A list without its element at `n` still holds every value other than that one. -/
theorem mem_eraseIdx_of_ne {α : Type} {l : List α} {n : Nat} {a b : α} (ha : l[n]? = some a)
    (hb : b ∈ l) (hne : b ≠ a) : b ∈ l.eraseIdx n := by
  obtain ⟨m, hm⟩ := mem_iff_getElem?.1 hb
  refine mem_eraseIdx_iff_getElem?.2 ⟨m, ?_, hm⟩
  rintro rfl
  rw [ha] at hm
  exact hne (Option.some.inj hm).symm

section Flush

variable {p : TxProg R} {mv : MvMemory} {cap : TxCapture} {result : Option R} {deps : List Nat} {inc : Nat} {r : R}

/-- The write-set is taken: what the memory holds beside it is stale. -/
theorem ThreadInv.executed {oldKeys : List ConflictKey}
    (h : ThreadInv B p (fun key => mv key i) cap result deps (.running oldKeys inc (.ret r))) :
    ThreadInv B p (fun key => mv key i) cap result deps (.flushing
      (oldKeys.filter (· ∉ cap.effectiveWriteSet.map (·.key))) inc cap.effectiveWriteSet r) := by
  obtain ⟨hold, htr, _⟩ := h
  -- an effective key is a new key, so any other key has no effective write
  have hnone : ∀ key, key ∉ cap.effectiveWriteSet.map (·.key) → cap.effective key = none := by
    intro key hkey
    cases he : cap.effective key with
    | none => rfl
    | some v =>
      exact absurd (mem_map.2 ⟨⟨key, v⟩, mem_effectiveWriteSet.2 he, rfl⟩) hkey
  refine ⟨htr, ?_, fun w => mem_effectiveWriteSet.1, ?_⟩
  · intro key hkey
    exact hnone key (of_decide_eq_true (mem_filter.1 hkey).2)
  · intro key hstale hws
    have hnew : key ∉ cap.effectiveWriteSet.map (·.key) := by
      intro hmem
      obtain ⟨w, hw, rfl⟩ := mem_map.1 hmem
      exact hws w hw rfl
    rw [hnone key hnew, publishedAt_none]
    by_contra hne
    exact hstale (mem_filter.2 ⟨hold key hne, decide_eq_true hnew⟩)

theorem ThreadInv.remove {stale : List ConflictKey} {ws : List (Kv.Write ConflictKey Bytes)}
    {pick : Nat} {key : ConflictKey} (hkey : stale[pick]? = some key)
    (h : ThreadInv B p (fun key => mv key i) cap result deps (.flushing stale inc ws r)) :
    ThreadInv B p (fun key' => mv.removeWrite i key key' i) cap result deps
      (.flushing (stale.eraseIdx pick) inc ws r) := by
  obtain ⟨htr, hst, hws, hpub⟩ := h
  refine ⟨htr, fun x hx => hst x (mem_of_mem_eraseIdx hx), hws, ?_⟩
  intro x hx hxw
  refine publishedAt_setEntry ?_ fun hne => hpub x (fun hmem => ?_) hxw
  · rw [hst key (mem_of_getElem? hkey)]
    exact publishedAt_none.2 rfl
  · exact hx (mem_eraseIdx_of_ne hkey hmem hne)

theorem ThreadInv.publish {ws : List (Kv.Write ConflictKey Bytes)} {pick : Nat} {w : Kv.Write ConflictKey Bytes}
    (hw : ws[pick]? = some w) (h : ThreadInv B p (fun key => mv key i) cap result deps (.flushing [] inc ws r)) :
    ThreadInv B p (fun key => mv.recordWrite ⟨i, inc⟩ w key i) cap result deps
      (.flushing [] inc (ws.eraseIdx pick) r) := by
  obtain ⟨htr, hst, hws, hpub⟩ := h
  refine ⟨htr, hst, fun x hx => hws x (mem_of_mem_eraseIdx hx), ?_⟩
  intro x hx hxw
  refine publishedAt_setEntry ?_ fun hne => hpub x hx fun y hy hyx => ?_
  · rw [hws w (mem_of_getElem? hw)]
    exact ⟨inc, rfl⟩
  · refine hxw y (mem_eraseIdx_of_ne hw hy ?_) hyx
    rintro rfl
    exact hne hyx.symm

end Flush

section

variable (h : threadStep B s i pick = some s')
include h

variable (hmv : s.mv.NoEstimate)
include hmv

theorem threadStep_txInv (hp : B.txs[i]? = some p) (hi : TxInv B s i p) : TxInv B s' i p := by
  obtain ⟨hcap, ht⟩ := hi
  cases threadStep_move h with
  | start hth hp' =>
    rw [hth] at ht
    cases hp.symm.trans hp'
    constructor
    · simp only [update_self]
      exact captureOk_cleared B i
    · simp only [update_self]
      exact ⟨ht, tracks_start p, B.ordinary p (mem_of_getElem? hp)⟩
  | call hth =>
    rw [hth] at ht
    obtain ⟨hold, htr, ho⟩ := ht
    constructor
    · simp only [update_self]
      exact hcap.perform ho.1 hmv
    · simp only [update_self]
      exact ⟨hold, htr.perform ho.1 hmv, ho.2 _⟩
  | executed hth =>
    rw [hth] at ht
    refine ⟨hcap, ?_⟩
    simp only [update_self]
    exact ht.executed
  | remove hth hkey =>
    rw [hth] at ht
    refine ⟨hcap, ?_⟩
    simp only [update_self]
    exact ht.remove hkey
  | publish hth hw =>
    rw [hth] at ht
    refine ⟨hcap, ?_⟩
    simp only [update_self]
    exact ht.publish hw
  | @join inc r hth =>
    rw [hth] at ht
    obtain ⟨htr, _, _, hpub⟩ := ht
    refine ⟨hcap, ?_⟩
    simp only [update_self]
    exact ⟨⟨r, rfl, htr⟩, fun key => hpub key (by simp) (by simp), rfl⟩

/-- After a move, the read-set of a worker that had just been queued, or whose read-set validated,
validates: it reads only versions below its index, and no move changes those. -/
theorem threadStep_valid (hi : TxInv B s i p) (hv : s.threads i = .queued ∨ s.valid i = true) : s'.valid i = true := by
  have ht := hi.thread
  cases threadStep_move h with
  | start => simp [valid, cleared, validate]
  | call hth =>
    rw [hth] at ht hv
    simp only [valid, update_self]
    exact validate_perform hmv ht.2.2.1 (hv.resolve_left (by simp))
  | executed hth | join hth =>
    rw [hth] at hv
    exact hv.resolve_left (by simp)
  | remove hth | publish hth =>
    rw [hth] at hv
    refine Eq.trans (validate_congr ?_ _) (hv.resolve_left (by simp))
    exact agreeBelow_setEntry _ _ (Nat.le_refl i) _

end

variable {j : Nat}

theorem OwnStep.valid_of_lt (h : OwnStep i s s') (hj : j < i) : s'.valid j = s.valid j := by
  have hmv : AgreeBelow j s'.mv s.mv := fun key l hl => (h.other l (by omega)).mv key
  rw [valid, valid, (h.other j (by omega)).captures, validate_congr hmv]

/-! ## The scheduler invariant -/

/-- What holds at each place of the driver. -/
def PhaseInv (B : OrdinaryBlock R) (s : Sched R) : Phase → Prop
  | .speculating => s.committed = 0
  | .loopHead left => (∀ i, s.threads i = .idle) ∧ B.n + 1 ≤ s.committed + left
  | .reexecuting left _ => s.committed < B.n ∧ B.n ≤ s.committed + left ∧
      (s.threads s.committed = .queued ∨ s.valid s.committed = true)
  | .converged => (∀ i, s.threads i = .idle) ∧ s.committed = B.n
  | .notConverged => False

structure Inv (B : OrdinaryBlock R) (s : Sched R) : Prop where
  committed_le : s.committed ≤ B.n
  noEstimate : s.mv.NoEstimate
  tx : ∀ i p, B.txs[i]? = some p → TxInv B s i p
  outside : ∀ i, B.n ≤ i → s.threads i = .idle
  quiet : ∀ i < s.committed, s.threads i = .idle
  valid : ∀ i < s.committed, s.valid i = true
  phase : PhaseInv B s s.phase

theorem init_inv (B : OrdinaryBlock R) : Inv B (init B) where
  committed_le := Nat.zero_le _
  noEstimate := fun _ _ h => by cases h
  tx := by
    intro i p hp
    have hi : i < B.n := (List.getElem?_eq_some_iff.1 hp).1
    refine ⟨captureOk_cleared B i, ?_⟩
    simp only [init, if_pos hi]
    intro key hne
    exact absurd rfl hne
  outside := fun i hi => if_neg (by omega)
  quiet := fun i hi => by cases hi
  valid := fun i hi => by cases hi
  phase := rfl

theorem threadStep_ne_idle (h : threadStep B s i pick = some s') : s.threads i ≠ .idle := by
  intro hidle
  rw [threadStep, hidle] at h
  cases h

theorem thread_inv (I : Inv B s) (h : threadStep B s i pick = some s') : Inv B s' := by
  have own := threadStep_own h
  have hne := threadStep_ne_idle h
  have hn : i < B.n := by
    by_contra hlt
    exact hne (I.outside i (by omega))
  have hc : s.committed ≤ i := by
    by_contra hlt
    exact hne (I.quiet i (by omega))
  obtain ⟨p, hp⟩ := B.exists_tx hn
  refine ⟨?_, threadStep_noEstimate h I.noEstimate, ?_, ?_, ?_, ?_, ?_⟩
  · rw [own.committed]; exact I.committed_le
  · intro j q hq
    by_cases hj : j = i
    · subst hj
      exact threadStep_txInv h I.noEstimate hq (I.tx j q hq)
    · exact (I.tx j q hq).of_same (own.other j hj)
  · intro j hj
    rw [(own.other j (by omega)).threads]; exact I.outside j hj
  · intro j hj
    rw [own.committed] at hj
    rw [(own.other j (by omega)).threads]; exact I.quiet j hj
  · intro j hj
    rw [own.committed] at hj
    rw [own.valid_of_lt (by omega)]; exact I.valid j hj
  · have hph := I.phase
    rw [own.phase]
    cases hphase : s.phase with
    | speculating => rw [hphase] at hph; exact own.committed.trans hph
    | loopHead left => rw [hphase] at hph; exact absurd (hph.1 i) hne
    | reexecuting left re =>
      rw [hphase] at hph
      obtain ⟨h1, h2, h3⟩ := hph
      refine ⟨by rw [own.committed]; exact h1, by rw [own.committed]; exact h2, ?_⟩
      rw [own.committed]
      -- the frontier moves itself, or a worker above it moves
      rcases Nat.eq_or_lt_of_le hc with heq | hlt
      · subst heq
        exact Or.inr (threadStep_valid h I.noEstimate (I.tx _ p hp) h3)
      · rw [(own.other _ (by omega)).threads, own.valid_of_lt hlt]
        exact h3
    | converged => rw [hphase] at hph; exact absurd (hph.1 i) hne
    | notConverged => rw [hphase] at hph; exact hph.elim

/-! ## Moves of the driver -/

theorem joined_iff : s.joined B = true ↔ ∀ i < B.n, s.threads i = .idle := by
  simp only [joined, all_eq_true, mem_range]
  refine forall₂_congr fun i _ => ?_
  cases s.threads i <;> simp [Thread.isIdle]

theorem mem_uncommitted (h : s.committed ≤ B.n) : j ∈ s.uncommitted B ↔ s.committed ≤ j ∧ j < B.n := by
  rw [uncommitted, mem_range'_1]
  omega

theorem valid_of_lt_advanced (h1 : s.committed ≤ j) (h2 : j < s.committed + s.advanced B) : s.valid j = true := by
  have hlen : j - s.committed < ((s.uncommitted B).takeWhile s.valid).length := by
    show j - s.committed < s.advanced B
    omega
  have hmem := getElem_mem hlen
  have hval := mem_takeWhile_imp hmem
  rw [( takeWhile_prefix s.valid).getElem hlen] at hval
  simp only [uncommitted, getElem_range'] at hval
  rwa [show s.committed + 1 * (j - s.committed) = j by omega] at hval

theorem advanced_le : s.advanced B ≤ B.n - s.committed := by
  have h := ( takeWhile_prefix (l := s.uncommitted B) s.valid).length_le
  rwa [uncommitted, length_range'] at h

theorem advanced_pos (h : s.committed < B.n) (hv : s.valid s.committed = true) : 0 < s.advanced B := by
  obtain ⟨m, hm⟩ : ∃ m, B.n - s.committed = m + 1 := ⟨B.n - s.committed - 1, by omega⟩
  rw [advanced, uncommitted, hm, List.range'_succ, takeWhile_cons, hv]
  simp

section

variable (I : Inv B s)
include I

section

variable (hidle : ∀ i, s.threads i = .idle)
include hidle

/-- The frontier is always dep-ready, so a round that leaves it out finds it valid. -/
theorem frontier_start (hlt : s.committed < B.n) : s.committed ∈ s.toRun B ∨ s.valid s.committed = true := by
  cases hv : s.valid s.committed with
  | true => exact Or.inr rfl
  | false =>
    left
    obtain ⟨p, hp⟩ := B.exists_tx hlt
    have htx := I.tx _ p hp
    have ht := htx.thread
    rw [hidle] at ht
    refine mem_filter.2 ⟨(mem_uncommitted I.committed_le).2 ⟨Nat.le_refl _, hlt⟩, ?_⟩
    rw [hv, ht.2.2]
    simp only [Bool.not_false, Bool.and_true, all_eq_true, decide_eq_true_eq]
    exact fun j hj => htx.capture.deps_lt j (mem_depSet.1 hj)

theorem startRound_idle {left : Nat} (hi : i < s.committed ∨ B.n ≤ i) : (startRound B s left).threads i = .idle := by
  have hout : i ∉ s.toRun B := by
    intro hmem
    have := (mem_uncommitted I.committed_le).1 (mem_filter.1 hmem).1
    omega
  simp only [startRound, if_neg hout]
  exact hidle i

theorem startRound_inv {left : Nat} (hleft : B.n + 1 ≤ s.committed + (left + 1)) (hlt : s.committed < B.n)
    : Inv B (startRound B s left) where
  committed_le := I.committed_le
  noEstimate := I.noEstimate
  tx := by
    intro i p hp
    refine ⟨(I.tx i p hp).capture, ?_⟩
    simp only [startRound]
    split
    · exact (I.tx i p hp).queue (hidle i)
    · exact (I.tx i p hp).thread
  outside := fun i hi => startRound_idle I hidle (Or.inr hi)
  quiet := fun i hi => startRound_idle I hidle (Or.inl hi)
  valid := I.valid
  phase := by
    refine ⟨hlt, by show B.n ≤ s.committed + left; omega, ?_⟩
    rcases frontier_start I hidle hlt with h | h
    · exact Or.inl (if_pos h)
    · exact Or.inr h

theorem finishRound_inv {left re : Nat} (hph : PhaseInv B s (.reexecuting left re))
    : Inv B (finishRound B s left re) := by
  obtain ⟨hlt, hleft, hfront⟩ := hph
  have hpos : 0 < s.advanced B := by
    refine advanced_pos hlt (hfront.resolve_left ?_)
    rw [hidle]; simp
  have hle := advanced_le (B := B) (s := s)
  refine ⟨?_, I.noEstimate, fun i p hp => ⟨(I.tx i p hp).capture, (I.tx i p hp).thread⟩, I.outside,
    fun i _ => hidle i, ?_, ?_⟩
  · show s.committed + s.advanced B ≤ B.n
    omega
  · intro i hi
    by_cases h : i < s.committed
    · exact I.valid i h
    · show s.valid i = true
      exact valid_of_lt_advanced (by omega) hi
  · have hne : ¬(s.advanced B = 0 ∧ re = 0) := by omega
    simp only [finishRound, if_neg hne]
    refine ⟨hidle, ?_⟩
    show B.n + 1 ≤ s.committed + s.advanced B + left
    omega

end

theorem control_inv (h : controlStep B s = some s') : Inv B s' := by
  have hph := I.phase
  have hall : s.joined B = true → ∀ i, s.threads i = .idle := fun hj i => by
    by_cases hi : i < B.n
    · exact joined_iff.1 hj i hi
    · exact I.outside i (by omega)
  cases controlStep_move h with
  | speculated hphase hj =>
    exact { I with tx := fun i p hp => ⟨(I.tx i p hp).capture, (I.tx i p hp).thread⟩
                   phase := ⟨hall hj, by show B.n + 1 ≤ s.committed + (B.n + 1); omega⟩ }
  | exhausted hphase =>
    rw [hphase] at hph
    have := hph.2
    have := I.committed_le
    omega
  | exit hphase hc =>
    rw [hphase] at hph
    exact { I with tx := fun i p hp => ⟨(I.tx i p hp).capture, (I.tx i p hp).thread⟩
                   phase := ⟨hph.1, hc⟩ }
  | round hphase hc =>
    rw [hphase] at hph
    exact startRound_inv I hph.1 hph.2 (Nat.lt_of_le_of_ne I.committed_le hc)
  | close hphase hj =>
    rw [hphase] at hph
    exact finishRound_inv I (hall hj) hph

theorem step_inv {a : Action} (h : step B s a = some s') : Inv B s' := by
  cases a with
  | thread i pick => exact thread_inv I h
  | control => exact control_inv I h

theorem run_inv {as : List Action} (h : run B s as = some s') : Inv B s' := by
  induction as generalizing s with
  | nil => cases h; exact I
  | cons a as ih =>
    obtain ⟨t, ht, hrun⟩ := Option.bind_eq_some_iff.1 h
    exact ih (step_inv I ht) hrun

end

/-- **Run lemma.** Every state of every interleaving satisfies the invariant. -/
theorem reachable_inv (h : Reachable B s) : Inv B s := by
  obtain ⟨as, has⟩ := h
  exact run_inv (init_inv B) has

end TronGoblin.BlockStm
