import TronGoblin.Executor.Pipeline

/-!
# Pipelined apply is classic apply

At every point of a run the base stores hold a part of the block in flight, and the overlays hold all
of it: a read through the overlays does not depend on how far the committer has come.

* `Covered`: the block in flight, laid over the stores, gives the stores of the classic run.
* `Tracks`: what holds at every point, kept by each step of either thread.
* `pipeline_eq_classic`: **every run returns what the classic run returns, shows its state through
  `view`, and leaves its disk after a flush.**
-/

namespace TronGoblin

open ApplyPipeline Prog Disk List PendingOverlay

open Kv (applyAll)

variable {st : StateBackends} {E R : Type} {hash : Bytes → Fin shardCount}

/-! ## The stores while a block is being committed -/

/-- Laid over the disk `t`, the write-set gives the stores of `d`. -/
def Covered (stores : List (DrainedStore st)) (d t : Disk) : Prop :=
  ∀ id, applyAll (opsFor id stores) (t.contents id) = d.contents id

/-- The operations of the commit of a write-set. -/
def CommitOp (stores : List (DrainedStore st)) : DiskOp → Prop
  | .writeBatch id ops _ => ∃ d ∈ stores, d.id = id ∧ d.ops = ops
  | .putOrDelete _ _ => False
  | _ => True

variable {stores : List (DrainedStore st)} {d t : Disk}

theorem covered_setStore (h : Covered stores d t) (id : StoreId) (s : Kv.Durable Bytes Bytes)
    (hs : applyAll (opsFor id stores) s.contents = applyAll (opsFor id stores) (t.contents id)) :
    Covered stores d (t.setStore id s) := by
  intro id'
  rw [contents_setStore]
  split
  · rename_i hid
    rw [hid, hs, h id]
  · exact h id'

/-- Writing a batch of the write-set does not show under it. -/
theorem covered_handle {o : DiskOp} (ho : CommitOp stores o) (h : Covered stores d t) :
    Covered stores d (handle o t).2 := by
  cases o with
  | writeBatch id ops sync =>
    obtain ⟨b, hb, rfl, rfl⟩ := ho
    refine covered_setStore h _ _ ?_
    rw [contents_batch]
    exact Kv.applyAll_absorb (fun w hw => lastWrite_of_mem_ops hb hw) _
  | putOrDelete id op => exact ho.elim
  | syncWal id => exact covered_setStore h _ _ rfl
  | _ => exact h

theorem commitJob_onlyOps (job : CommitJob st) : OnlyOps (CommitOp job.stores) job.prog := by
  refine onlyOps_bindE ?_ fun _ => ⟨trivial, fun _ => trivial⟩
  unfold commitDrained
  split
  · trivial
  · refine onlyOps_bindE ⟨trivial, fun _ => trivial⟩ fun id => ?_
    exact flushDrained_onlyOps (fun d hd _ => ⟨d, hd, rfl, rfl⟩) (fun _ => trivial) trivial
      fun _ => trivial

/-- The committer is at `p` in the commit of this write-set, on its way to the disk `d`. -/
def Committer (stores : List (DrainedStore st)) (d : Disk)
    (p : Prog DiskOp DiskOp.Res (Except CheckpointError Unit)) (t : Disk) : Prop :=
  wp handle.sem (fun _ => Covered stores d)
    (fun r t => Covered stores d t ∧ r = .ok () ∧ t = d) p t

theorem Committer.covered {p : Prog DiskOp DiskOp.Res (Except CheckpointError Unit)} (h : Committer stores d p t) :
    Covered stores d t :=
  wp_point (wp_mono (fun _ _ ht => ht.1) h)

/-- A job that is handed over on the disk `t` ends on the disk of its classic commit. -/
theorem committer_start (job : CommitJob st) (t : Disk) :
    (exec handle job.prog t).1 = .ok () ∧ Committer job.stores (exec handle job.prog t).2 job.prog t := by
  obtain ⟨u, hok, hcon, -⟩ := exec_ok (commitJob_spec (s := t) job)
  have hstart : Covered job.stores (exec handle job.prog t).2 t := fun id => (hcon id).symm
  have hkeep : ∀ o s r s', CommitOp job.stores o → handle.sem o s r s' →
      Covered job.stores (exec handle job.prog t).2 s →
      Covered job.stores (exec handle job.prog t).2 s' := by
    intro o s r s' ho hs h
    have hnext := covered_handle ho h
    rwa [hs] at hnext
  have hcov := wp_onlyOps hkeep (commitJob_onlyOps job) hstart
  refine ⟨hok, wp_guard_mono (fun _ _ h => h.1) (wp_mono (fun r s h => ?_)
    (wp_and hcov (wp_exec_eq handle job.prog t)))⟩
  have hend := h.2
  exact ⟨h.1, (congrArg Prod.fst hend).trans hok, congrArg Prod.snd hend⟩

/-! ## What the overlays show -/

/-- Read through its overlay, every store has these writes applied. -/
def Shows (hash : Bytes → Fin shardCount) (overlays : StoreId → PendingOverlay) (ops : StoreId → List WriteOp) : Prop :=
  ∀ id parent, (overlays id).get hash parent = applyAll (ops id) parent ∧
    (overlays id).scanAll parent = applyAll (ops id) parent

theorem shows_clear : Shows hash (fun _ => .clear) fun _ => [] :=
  fun _ parent => ⟨get_new parent, scanAll_new parent⟩

theorem shows_install (h : (stores.map (·.id)).Nodup) :
    Shows hash (install hash stores) fun id => opsFor id stores := by
  intro id parent
  dsimp only
  rw [opsFor_eq_find h, install]
  cases stores.find? fun d => d.id = id with
  | some d =>
    exact ⟨get_replaceWith d.ops parent, scanAll_replaceWith d.ops parent⟩
  | none => exact shows_clear id parent

variable {b : PipelineBlock st E R} {d : Disk}

theorem classicApply_error {e : E} (h : evalReads d.contents (applyReads b) = .error e) :
    classicApply b d = (.error (.exec e), d) := by
  rw [evalReads_applyReads] at h
  unfold classicApply
  cases hl : evalReads d.contents b.logic with
  | error e' =>
    rw [hl] at h
    cases h
    rfl
  | ok r =>
    rw [hl] at h
    cases h

theorem classicApply_ok {report : R} {drained : DrainedBlock st}
    (h : evalReads d.contents (applyReads b) = .ok (report, drained)) :
    classicApply b d = (.ok (report, drained.deltas), (exec handle (b.job drained).prog d).2) ∧
      (drained.stores.map (·.id)).Nodup := by
  rw [evalReads_applyReads] at h
  unfold classicApply
  cases hl : evalReads d.contents b.logic with
  | error e =>
    rw [hl] at h
    cases h
  | ok r =>
    rw [hl] at h
    cases h
    refine ⟨?_, stores_drain_nodup ..⟩
    have hok := (committer_start (b.job (drainBlockSession st b.order d.contents
      (BlockSession.ofWrites r.2) b.captureDeltas)) d).1
    dsimp only
    split
    · rename_i d' hexec
      rw [hexec]
    · rename_i e d' hexec
      rw [hexec] at hok
      cases hok

/-! ## The invariant -/

/-- The state of the two threads when the classic run is at the disk `d`. -/
inductive InSync (hash : Bytes → Fin shardCount) (d : Disk) (s : ApplyPipeline st E R) : Prop
  | settled (inFlight : s.inFlight = false) (committer : s.committer = none) (disk : s.disk = d)
      (overlays : Shows hash s.overlays fun _ => [])
  | running (inFlight : s.inFlight = true) (stores : List (DrainedStore st))
      (p : Prog DiskOp DiskOp.Res (Except CheckpointError Unit)) (committer : s.committer = some p)
      (overlays : Shows hash s.overlays fun id => opsFor id stores)
      (progress : Committer stores d p s.disk)

variable {s : ApplyPipeline st E R}

section

variable (h : InSync hash d s)
include h

/-- The applier's own bookkeeping does not matter. -/
theorem InSync.bookkeeping (applier : Applier st E R) (todo : List (PipelineCall st E R)) (outs : List (Outcome E R))
    : InSync hash d { s with applier := applier, todo := todo, outs := outs } := by
  cases h with
  | settled hfl hcom hdisk hov => exact .settled hfl hcom hdisk hov
  | running hfl stores p hcom hov hp => exact .running hfl stores p hcom hov hp

/-- **A read through the overlays** sees the classic run's state, wherever the committer is. -/
theorem InSync.view (o : ReadOp) : s.view hash o = readFrom d.contents o := by
  have hboth : ∀ id, (s.overlays id).get hash (s.disk.contents id) = d.contents id ∧
      (s.overlays id).scanAll (s.disk.contents id) = d.contents id := by
    intro id
    cases h with
    | settled _ _ hdisk hov =>
      subst hdisk
      exact hov id (s.disk.contents id)
    | running _ stores p _ hov hp =>
      have hshow := hov id (s.disk.contents id)
      rwa [hp.covered id] at hshow
  cases o with
  | get id key => exact congrFun (hboth id).1 key
  | scanAll id => exact (hboth id).2

/-- Waiting for the commit in flight: it is not done, or the disk is the classic one. -/
theorem InSync.join :
    s.joinInFlight = none ∨
      s.joinInFlight = some (.ok (), { s with inFlight := false, committer := none }) ∧ s.disk = d := by
  unfold joinInFlight
  cases h with
  | settled hfl hcom hdisk _ =>
    obtain ⟨disk, overlays, committer, inFlight, applier, todo, outs⟩ := s
    cases hfl
    cases hcom
    exact Or.inr ⟨rfl, hdisk⟩
  | running hfl stores p hcom _ hp =>
    rw [if_neg (by rw [hfl]; decide), hcom]
    cases p with
    | op o next => exact Or.inl rfl
    | ret r =>
      obtain ⟨-, rfl, hdisk⟩ := hp
      exact Or.inr ⟨rfl, hdisk⟩

end

/-- What the applier has read so far is what the classic run reads. -/
def ApplierReads (d : Disk) : Applier st E R → Prop
  | .reading b p => evalReads d.contents p = evalReads d.contents (applyReads b)
  | .joining b report drained => evalReads d.contents (applyReads b) = .ok (report, drained)
  | _ => True

/-- The run has returned from the calls `done`, and is where the classic run is after them. -/
structure Tracks (hash : Bytes → Fin shardCount) (init : Disk)
    (calls done : List (PipelineCall st E R)) (s : ApplyPipeline st E R) : Prop where
  calls_eq : calls = done ++ s.pending
  outs : s.outs = (classic done init).1
  sync : InSync hash (classic done init).2 s
  reads : ApplierReads (classic done init).2 s.applier
  flushed : done.getLast? = some .flush → s.inFlight = false

variable {init : Disk} {calls done : List (PipelineCall st E R)} {s s' : ApplyPipeline st E R}

theorem tracks_new : Tracks hash init calls [] (.new init calls) where
  calls_eq := rfl
  outs := rfl
  sync := .settled rfl rfl rfl shows_clear
  reads := trivial
  flushed := nofun

section

variable (h : Tracks hash init calls done s)
include h

/-- **Committer step.** One more operation of the commit is done; nothing else moves. -/
theorem Tracks.committerStep : Tracks hash init calls done s.committerStep := by
  unfold ApplyPipeline.committerStep
  split
  · rename_i o next hcom
    refine ⟨h.calls_eq, h.outs, ?_, h.reads, h.flushed⟩
    cases h.sync with
    | settled _ hnone _ _ =>
      rw [hcom] at hnone
      cases hnone
    | running hfl stores p hp hov hprog =>
      rw [hcom] at hp
      cases hp
      exact .running hfl stores _ rfl hov ((wp_handler _ _ _).1 hprog).2
  · exact h

/-- The applier goes on within its call. -/
theorem Tracks.moves {applier : Applier st E R} {todo : List (PipelineCall st E R)}
    (hpend : pending { s with applier := applier, todo := todo } = s.pending)
    (hreads : ApplierReads (classic done init).2 applier) :
    Tracks hash init calls done { s with applier := applier, todo := todo } :=
  ⟨h.calls_eq.trans (by rw [hpend]), h.outs, h.sync.bookkeeping .., hreads, h.flushed⟩

/-- A call returns what it returns in the classic run. -/
theorem Tracks.returns {c : PipelineCall st E R} (hpend : s.pending = c :: s.todo) (hidle : s'.applier = .idle)
    (htodo : s'.todo = s.todo) (houts : s'.outs = s.outs ++ [(classicCall c (classic done init).2).1])
    (hsync : InSync hash (classicCall c (classic done init).2).2 s') (hflush : c = .flush → s'.inFlight = false)
    : Tracks hash init calls (done ++ [c]) s' where
  calls_eq := by
    rw [h.calls_eq, hpend, pending, hidle, htodo, append_assoc]
    rfl
  outs := by rw [houts, h.outs, classic_concat]
  sync := by rwa [classic_concat]
  reads := by
    rw [hidle]
    trivial
  flushed := by
    intro hlast
    rw [getLast?_concat] at hlast
    exact hflush (Option.some.inj hlast)

/-- An apply that has joined hands its block to the committer. -/
theorem Tracks.handOver {report : R} {drained : DrainedBlock st} (happ : s.applier = .joining b report drained)
    (hdisk : s.disk = (classic done init).2) :
    Tracks hash init calls (done ++ [.apply b])
      { s with
        overlays := install hash drained.stores
        committer := some (b.job drained).prog
        inFlight := true
        applier := .idle
        outs := s.outs ++ [.applied (.ok (report, drained.deltas))] } := by
  have hreads := h.reads
  rw [happ] at hreads
  obtain ⟨hclassic, hnodup⟩ := classicApply_ok hreads
  have hpend : s.pending = .apply b :: s.todo := by rw [pending, happ]
  refine h.returns hpend rfl rfl ?_ ?_ nofun
  · rw [classicCall, hclassic]
  · rw [classicCall, hclassic, ← hdisk]
    exact .running rfl drained.stores _ rfl (shows_install hnodup)
      (committer_start (b.job drained) s.disk).2

/-- **Applier step.** The applier reads what the classic run reads, waits, or returns from a call. -/
theorem Tracks.applierStep : ∃ done', Tracks hash init calls done' (s.applierStep hash) := by
  have hreads := h.reads
  unfold ApplyPipeline.applierStep
  split
  · rename_i happ
    split
    · exact ⟨done, h⟩
    · rename_i b rest htodo
      exact ⟨done, h.moves (by rw [pending, pending, happ, htodo]) rfl⟩
    · rename_i rest htodo
      exact ⟨done, h.moves (by rw [pending, pending, happ, htodo]) trivial⟩
  · rename_i b o next happ
    rw [happ] at hreads
    refine ⟨done, h.moves (by rw [pending, pending, happ]) ?_⟩
    -- the answer is the classic one, so the rest of the reads is too
    rw [h.sync.view o]
    exact hreads
  · rename_i b e happ
    rw [happ] at hreads
    have hclassic := classicApply_error hreads.symm
    have hpend : s.pending = .apply b :: s.todo := by rw [pending, happ]
    refine ⟨_, h.returns hpend rfl rfl ?_ ?_ nofun⟩
    · rw [classicCall, hclassic]
    · rw [classicCall, hclassic]
      exact h.sync.bookkeeping ..
  · rename_i b report drained happ
    rw [happ] at hreads
    exact ⟨done, h.moves (by rw [pending, pending, happ]) hreads.symm⟩
  · rename_i b report drained happ
    rcases h.sync.join with hnone | ⟨hsome, hdisk⟩
    · rw [hnone]
      exact ⟨done, h⟩
    · rw [hsome]
      exact ⟨_, h.handOver happ hdisk⟩
  · rename_i happ
    rcases h.sync.join with hnone | ⟨hsome, hdisk⟩
    · rw [hnone]
      exact ⟨done, h⟩
    · rw [hsome]
      have hpend : s.pending = .flush :: s.todo := by rw [pending, happ]
      exact ⟨_, h.returns hpend rfl rfl rfl (.settled rfl rfl hdisk shows_clear) fun _ => rfl⟩

/-- **Run.** Every interleaving of the two threads tracks the classic run. -/
theorem Tracks.run (schedule : List Thread) : ∃ done', Tracks hash init calls done' (s.run hash schedule) := by
  induction schedule generalizing s done with
  | nil => exact ⟨done, h⟩
  | cons thread rest ih =>
    cases thread with
    | committer => exact ih h.committerStep
    | applier =>
      obtain ⟨done', h'⟩ := h.applierStep
      exact ih h'

end

/-! ## No call waits for ever -/

theorem committer_finishes (h : InSync hash (classic done init).2 s) :
    ∃ n, (s.run hash (replicate n .committer)).joinInFlight ≠ none ∧
      (s.run hash (replicate n .committer)).applier = s.applier ∧
      (s.run hash (replicate n .committer)).todo = s.todo := by
  cases h with
  | settled hfl _ _ _ =>
    refine ⟨0, ?_, rfl, rfl⟩
    show s.joinInFlight ≠ none
    rw [joinInFlight, if_pos hfl]
    nofun
  | running hfl stores p hcom hov hp =>
    -- the induction is on what is left of the commit, whatever it writes
    clear hov hp
    induction p generalizing s with
    | ret r =>
      refine ⟨0, ?_, rfl, rfl⟩
      show s.joinInFlight ≠ none
      rw [joinInFlight, if_neg (by rw [hfl]; decide), hcom]
      cases r <;> nofun
    | op o next ih =>
      have hstep : s.committerStep = { s with
          committer := some (next (handle o s.disk).1), disk := (handle o s.disk).2 } := by
        rw [committerStep, hcom]
      obtain ⟨n, hjoin, happ, htodo⟩ := @ih (handle o s.disk).1 s.committerStep
        (by rw [hstep]; exact hfl) (by rw [hstep])
      refine ⟨n + 1, hjoin, happ.trans ?_, htodo.trans ?_⟩ <;> rw [hstep]

theorem run_append (s : ApplyPipeline st E R) (sched sched' : List Thread) :
    s.run hash (sched ++ sched') = (s.run hash sched).run hash sched' := foldl_append

/-- Some interleaving returns from the call being made, and takes up no other. -/
def ApplyPipeline.CanReturn (hash : Bytes → Fin shardCount) (s : ApplyPipeline st E R) : Prop :=
  ∃ sched, (s.run hash sched).applier = .idle ∧ (s.run hash sched).todo = s.todo

theorem ApplyPipeline.CanReturn.of_step (hstep : s.applierStep hash = s') (htodo : s'.todo = s.todo)
    (h : s'.CanReturn hash) : s.CanReturn hash := by
  obtain ⟨sched, hidle, hrun⟩ := h
  subst hstep
  exact ⟨.applier :: sched, hidle, hrun.trans htodo⟩

section

variable (h : Tracks hash init calls done s)
include h

theorem Tracks.waiting (happ : (∃ b report drained, s.applier = .joining b report drained) ∨ s.applier = .flushing) :
    s.CanReturn hash := by
  obtain ⟨n, hjoin, happ', htodo⟩ := committer_finishes h.sync
  obtain ⟨done', h'⟩ := h.run (replicate n .committer)
  refine ⟨replicate n .committer ++ [.applier], ?_⟩
  rw [run_append]
  obtain ⟨hsome, -⟩ := h'.sync.join.resolve_left hjoin
  show (ApplyPipeline.applierStep hash _).applier = _ ∧ (ApplyPipeline.applierStep hash _).todo = _
  unfold ApplyPipeline.applierStep
  rcases happ with ⟨b, report, drained, happ⟩ | happ
  · rw [happ', happ, hsome]
    exact ⟨rfl, htodo⟩
  · rw [happ', happ, hsome]
    exact ⟨rfl, htodo⟩

theorem Tracks.executing {p : Prog ReadOp ReadOp.Res (Except E (R × DrainedBlock st))}
    (happ : s.applier = .reading b p) : s.CanReturn hash := by
  induction p generalizing s done with
  | op o next ih =>
    have hstep : s.applierStep hash = { s with applier := .reading b (next (s.view hash o)) } := by
      rw [ApplyPipeline.applierStep, happ]
    obtain ⟨done', h'⟩ := h.applierStep
    rw [hstep] at h'
    exact .of_step hstep rfl (ih _ h' rfl)
  | ret r =>
    cases r with
    | error e =>
      refine ⟨[.applier], ?_⟩
      show (s.applierStep hash).applier = _ ∧ (s.applierStep hash).todo = _
      rw [ApplyPipeline.applierStep, happ]
      exact ⟨rfl, rfl⟩
    | ok r =>
      have hstep : s.applierStep hash = { s with applier := .joining b r.1 r.2 } := by
        rw [ApplyPipeline.applierStep, happ]
      obtain ⟨done', h'⟩ := h.applierStep
      rw [hstep] at h'
      exact .of_step hstep rfl (h'.waiting (Or.inl ⟨b, r.1, r.2, rfl⟩))

theorem Tracks.current : s.CanReturn hash := by
  cases happ : s.applier with
  | idle => exact ⟨[], happ, rfl⟩
  | reading b p => exact h.executing happ
  | joining b report drained => exact h.waiting (Or.inl ⟨b, report, drained, happ⟩)
  | flushing => exact h.waiting (Or.inr happ)

/-- From every point, some interleaving returns from all calls. -/
theorem Tracks.completes : ∃ sched, (s.run hash sched).outs.length = calls.length := by
  induction hn : s.todo.length generalizing s done with
  | zero =>
    obtain ⟨sched, hidle, htodo⟩ := h.current
    obtain ⟨done', h'⟩ := h.run sched
    refine ⟨sched, ?_⟩
    have hcalls := h'.calls_eq
    rw [pending, hidle] at hcalls
    rw [htodo, length_eq_zero_iff.1 hn, append_nil] at hcalls
    rw [h'.outs, hcalls, length_classic]
  | succ n ih =>
    obtain ⟨sched, hidle, htodo⟩ := h.current
    obtain ⟨done', h'⟩ := h.run sched
    -- the next call is taken up
    obtain ⟨done'', h''⟩ := h'.applierStep
    have hlen : ((s.run hash sched).applierStep hash).todo.length = n := by
      rw [← htodo] at hn
      rw [ApplyPipeline.applierStep, hidle]
      cases hl : (s.run hash sched).todo with
      | nil =>
        rw [hl] at hn
        cases hn
      | cons c rest =>
        rw [hl] at hn
        cases c <;> exact Nat.succ.inj hn
    obtain ⟨sched', hall⟩ := ih h'' hlen
    refine ⟨sched ++ .applier :: sched', ?_⟩
    rw [run_append]
    exact hall

end

/-- **Pipelined apply is classic apply.**  However the committer's store operations and the applier's reads interleave:
the calls that have returned returned what they return when each block is committed before the next is executed; every
read through `view` gives the state of that run; after a `flush` the stores and the undo records are those of that run;
and the remaining calls return under some continuation. -/
theorem pipeline_eq_classic (hash : Bytes → Fin shardCount) (init : Disk)
    (calls : List (PipelineCall st E R)) (schedule : List Thread) :
    let s := (new init calls).run hash schedule
    let returned := calls.take s.outs.length
    s.outs = (classic returned init).1 ∧ (∀ o, s.view hash o = readFrom (classic returned init).2.contents o) ∧
      (returned.getLast? = some .flush → s.disk = (classic returned init).2) ∧
      ∃ more, (s.run hash more).outs.length = calls.length := by
  intro s returned
  obtain ⟨done, h⟩ := (@tracks_new st E R hash init calls).run schedule
  have hdone : returned = done := by
    show calls.take s.outs.length = done
    rw [h.outs, length_classic, h.calls_eq, take_left]
  rw [hdone]
  refine ⟨h.outs, h.sync.view, fun hlast => ?_, h.completes⟩
  have hfl : s.inFlight = false := h.flushed hlast
  cases h.sync with
  | settled _ _ hdisk _ => exact hdisk
  | running hfl' _ _ _ _ _ =>
    rw [hfl] at hfl'
    cases hfl'

/-- A block that counts on from what it finds in an account. -/
def countingBlock (num : Int) : PipelineBlock allAttached String Nat where
  num := num
  logic := do
    let count ← readKey .accounts [0]
    let next := (count.getD []).length + 1
    pure (.ok (next, [⟨.accounts, ⟨[0], some (List.replicate next 1)⟩, attached_all _⟩]))
  order := fun _ => .inserted
  deferStoreFsync := false
  captureDeltas := false

-- the first block has returned and none of it is on disk; the view has it already
example :
    let hash : Bytes → Fin shardCount := fun _ => ⟨0, by decide⟩
    let s := (ApplyPipeline.new emptyDisk [.apply (countingBlock 1), .apply (countingBlock 2)]).run
      hash (List.replicate 5 .applier)
    s.outs.length = 1 ∧ s.disk.contents .accounts [0] = none ∧
      s.view hash (.get .accounts [0]) = (some [1] : Option Bytes) :=
  ⟨by decide, by decide, rfl⟩

end TronGoblin
