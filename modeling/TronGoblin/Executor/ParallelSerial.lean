import TronGoblin.Executor.ParallelInv

/-!
# Block-STM equals serial execution

* `view mv base i`: the state transaction `i` sees through the multi-version memory.
* `view_succ`: the view above `i` is the view below it with transaction `i`'s published writes.
* `agrees_view`: a validating read-set agrees with the view.
* `view_eq_serial`: **by induction on the index, the view below every committed transaction is the
  state the serial run has reached there**, and its result is the serial one.
* `parallel_eq_serial`: the committed state and all results are those of the serial run.
-/

namespace TronGoblin.BlockStm

open List Option

variable {R : Type} {B : OrdinaryBlock R} {s : Sched R}

/-! ## The serial reference, transaction by transaction -/

def serialState (ps : List (TxProg R)) (σ : Kv.Map ConflictKey Bytes) (i : Nat) : Kv.Map ConflictKey Bytes :=
  (serial (ps.take i) σ).2

variable {i : Nat}

/-- A transaction of the serial run: the state after it, and its result. -/
theorem serial_succ {p : TxProg R} :
    ∀ {ps : List (TxProg R)} {σ : Kv.Map ConflictKey Bytes}, ps[i]? = some p →
      serialState ps σ (i + 1) = overlay (runTx p (serialState ps σ i)).2 (serialState ps σ i) ∧
        (serial ps σ).1[i]? = some (runTx p (serialState ps σ i)).1 := by
  induction i with
  | zero =>
    intro ps σ h
    cases ps with
    | nil => cases h
    | cons q qs => cases h; exact ⟨rfl, rfl⟩
  | succ i ih =>
    intro ps σ h
    cases ps with
    | nil => cases h
    | cons q qs => exact @ih qs _ h

theorem serial_results_length (ps : List (TxProg R)) (σ : Kv.Map ConflictKey Bytes) :
    (serial ps σ).1.length = ps.length := by
  induction ps generalizing σ with
  | nil => rfl
  | cons p ps ih => simp [serial, ih]

/-! ## The view through the multi-version memory -/

/-- The state transaction `i` sees. -/
def view (mv : MvMemory) (base : Kv.Map ConflictKey Bytes) (i : Nat) : Kv.Map ConflictKey Bytes :=
  fun key => match mv.read key i with
    | .versioned value _ => value
    | .base | .blocked _ => base key

variable {cap : TxCapture}

theorem view_succ {mv : MvMemory} {base : Kv.Map ConflictKey Bytes} {key : ConflictKey}
    (h : PublishedAt (mv key i) (cap.effective key)) :
    view mv base (i + 1) key = (cap.effective key).getD (view mv base i key) := by
  obtain ⟨inc, h⟩ := h
  cases he : cap.effective key with
  | none =>
    rw [he] at h
    simp [view, MvMemory.read, highestBelow, h, map_none, getD_none]
  | some v =>
    rw [he] at h
    simp [view, MvMemory.read, highestBelow, h, map_some, getD_some]

theorem agrees_view {mv : MvMemory} (hc : CaptureOk B i cap) (hv : mv.validate i cap.reads = true) :
    Agrees cap.reads (view mv B.backend.base i) := by
  intro rd hrd
  have h := all_eq_true.1 hv rd hrd
  unfold MvMemory.validateRead at h
  unfold view
  split at h
  · rename_i hr
    rw [hr]
    exact (hc.base_value rd hrd (beq_iff_eq.1 h)).symm
  · rename_i hr
    rw [hr]
    exact beq_iff_eq.1 h
  · cases h

/-- Dropping the writes that restore the value first read changes nothing. -/
theorem effective_getD {σ : Kv.Map ConflictKey Bytes} (h : Agrees cap.reads σ) (key : ConflictKey) :
    (cap.effective key).getD (σ key) = overlay cap.writes σ key := by
  unfold overlay TxCapture.effective
  cases hw : cap.writes.lookup key with
  | none => rfl
  | some v =>
    by_cases hb : cap.readBaseline key = some v
    · obtain ⟨rd, hrd, rfl, rfl⟩ := TxCapture.exists_read_of_baseline hb
      simp [filter_some, hb, h rd hrd]
    · simp [filter_some, hb]

/-- **Committed transactions are serial.** When every transaction below `i` has joined and
validates, the view at `i` is the serial state, and the results below `i` are the serial ones. -/
theorem view_eq_serial (I : Inv B s) (hidle : ∀ j, s.threads j = .idle) (hi : i ≤ B.n)
    (hv : ∀ j < i, s.valid j = true) :
    view s.mv B.backend.base i = serialState B.txs B.backend.base i ∧
      ∀ j < i, s.results j = (serial B.txs B.backend.base).1[j]? := by
  induction i with
  | zero =>
    refine ⟨?_, fun j hj => by omega⟩
    funext key
    simp [view, MvMemory.read, highestBelow, serialState, serial]
  | succ i ih =>
    obtain ⟨hview, hres⟩ := ih (by omega) fun j hj => hv j (by omega)
    obtain ⟨p, hp⟩ := B.exists_tx (i := i) (by omega)
    obtain ⟨hcap, ht⟩ := I.tx i p hp
    rw [hidle i] at ht
    obtain ⟨⟨r, hr, htr⟩, hpub, _⟩ := ht
    have hagree := agrees_view hcap (hv i (by omega))
    -- the captured execution replays on the view, which is the serial state
    have hrun := htr _ hagree
    rw [hview] at hrun hagree
    refine ⟨?_, fun j hj => ?_⟩
    · rw [(serial_succ hp).1, hrun]
      funext key
      rw [view_succ (hpub key), hview, effective_getD hagree]
      rfl
    · by_cases hji : j < i
      · exact hres j hji
      · obtain rfl : j = i := by omega
        rw [hr, (serial_succ hp).2, hrun]
        rfl

/-- Committing the write-sets in index order builds the view above the block. -/
theorem commit_eq_view (I : Inv B s) (hidle : ∀ j, s.threads j = .idle) (hi : i ≤ B.n) :
    (range i).foldl (fun σ j => Kv.applyAll (s.captures j).effectiveWriteSet σ) B.backend.base =
      view s.mv B.backend.base i := by
  induction i with
  | zero =>
    funext key
    simp [view, MvMemory.read, highestBelow]
  | succ i ih =>
    obtain ⟨p, hp⟩ := B.exists_tx (i := i) (by omega)
    have ht := (I.tx i p hp).thread
    rw [hidle i] at ht
    rw [range_succ, foldl_append, ih (by omega), foldl_cons, foldl_nil]
    funext key
    rw [Kv.applyAll_apply, TxCapture.lastWrite_effectiveWriteSet, view_succ (ht.2.1 key)]

/-- **Block-STM equals serial execution.** -/
theorem parallel_eq_serial (B : OrdinaryBlock R) {s : Sched R} (h : Reachable B s) (hc : s.phase = .converged) :
    commitWriteSets B s = (serial B.txs B.backend.base).2 ∧
      (range B.n).map s.results = (serial B.txs B.backend.base).1.map some := by
  have I := reachable_inv h
  have hph := I.phase
  rw [hc] at hph
  obtain ⟨hidle, hcom⟩ := hph
  obtain ⟨hview, hres⟩ := view_eq_serial I hidle (Nat.le_refl B.n) fun j hj => I.valid j (by omega)
  constructor
  · rw [commitWriteSets, commit_eq_view I hidle (Nat.le_refl _), hview, serialState, take_length]
  · apply ext_getElem?
    intro j
    rw [getElem?_map, getElem?_map]
    by_cases hj : j < B.n
    · have hlt : j < (serial B.txs B.backend.base).1.length := by
        rw [serial_results_length]; exact hj
      rw [getElem?_range hj, map_some, hres j hj, getElem?_eq_getElem hlt]
      rfl
    · rw [getElem?_eq_none (by rw [length_range]; omega),
        getElem?_eq_none (by rw [serial_results_length]; exact Nat.le_of_not_lt hj)]
      rfl

/-! ## A conflicting block -/

/-- Transaction 1 reads the key that transaction 0 writes. -/
def conflictBlock : OrdinaryBlock (Option Bytes) where
  backend :=
    { base := fun _ => none
      accumulators := fun _ => false
      deferred := fun _ => false
      energyDeferred := fun _ => false
      nowCycle := 0
      decode := fun _ => none }
  txs :=
    [.op (.put (0, [1]) [7]) fun _ => .ret none, .op (.get (0, [1])) fun v => .op (.put (0, [2]) [9]) fun _ => .ret v]
  ordinary := by
    intro p hp
    rcases mem_pair.1 hp with rfl | rfl
    · exact ⟨⟨rfl, rfl, rfl⟩, fun _ => trivial⟩
    · exact ⟨⟨rfl, rfl, rfl⟩, fun _ => ⟨⟨rfl, rfl, rfl⟩, fun _ => trivial⟩⟩

/-- Transaction 1 speculates before transaction 0 has published, and is re-executed. -/
def conflictRun : List Action :=
  replicate 6 (.thread 1 0) ++ replicate 5 (.thread 0 0) ++ [.control, .control] ++
    replicate 6 (.thread 1 0) ++ [.control, .control]

theorem parallel_eq_serial_conflict :
    ∃ s, Reachable conflictBlock s ∧ s.phase = .converged ∧ s.incarnation 1 = 1 ∧
      commitWriteSets conflictBlock s (0, [1]) = some [7] ∧
      (range 2).map s.results = [some none, some (some [7])] := by
  have hrun : ∃ s, run conflictBlock (Sched.init conflictBlock) conflictRun = some s ∧
      s.phase = .converged ∧ s.incarnation 1 = 1 := ⟨_, rfl, rfl, rfl⟩
  obtain ⟨s, hs, hc, hinc⟩ := hrun
  obtain ⟨hstate, hres⟩ := parallel_eq_serial conflictBlock ⟨conflictRun, hs⟩ hc
  refine ⟨s, ⟨conflictRun, hs⟩, hc, hinc, ?_, ?_⟩
  · rw [hstate]; rfl
  · exact hres

end TronGoblin.BlockStm
