import TronGoblin.Executor.RollbackCrash

/-!
# Undo records across a crash

The node commits a block and then, as a separate step, stores its undo record; the classic path and
the pipeline's committer both work in this order.  Recovery from a crash in between yields the block
without its record.

* `AtBlock`: every point of a run of commits is between two blocks, or inside a block whose manifest
  has been written and whose undo record has not.
* `recovered_block_has_undo`: **recovery from a point of the first kind yields a block that can be
  rolled back.**
* `recovered_without_undo`: recovery from a point of the second kind does not.
-/

namespace TronGoblin

open List Prog ChainState Disk
open Kv (applyAll)

variable {st : StateBackends} {s s' : Disk}

def ChainState.start (init : Disk) : ChainState st := ⟨init, [], 0, fun _ => 0⟩

/-- The jobs of blocks that are executed one after the other over `base`; each block's undo record
holds the values that the blocks before it left. -/
def jobsFrom (base : StoreId → Contents) : List (ChainBlock st) → List (CommitJob st)
  | [] => []
  | b :: bs => ⟨b.num, b.stores, undoRecord base b.stores, b.deferStoreFsync⟩ ::
      jobsFrom (fun id => applyAll (opsFor id b.stores) (base id)) bs

def commitJobs (jobs : List (CommitJob st)) : Prog DiskOp DiskOp.Res (List (Except CheckpointError Unit)) :=
  runAll CommitJob.prog jobs

/-- A job writes at most one manifest, as its first operation, and the undo record last. -/
theorem commitJob_points (job : CommitJob st) :
    wp handle.sem
      (fun _ t => t = s ∨ job.stores ≠ [] ∧ t.written.length = s.written.length + 1 ∧ t.undo = s.undo)
      (fun _ t => t.written.length = s.written.length + (if job.stores = [] then 0 else 1) ∧
        t.undo = (s.undo.append [⟨job.blockNum, some job.record⟩]).sync) job.prog s := by
  have hwp := commitDrained_points (s := s)
    (J := fun t => t.written.length = s.written.length + 1 ∧ t.undo = s.undo)
    job.stores job.deferStoreFsync (fun o t ho ht => by
      obtain ⟨hw, hu⟩ := handle_afterManifest ho t
      rw [hw, hu]; exact ht) ⟨by simp [addManifest], rfl⟩
  have hok := commitDrained_spec (s := s) job.stores job.deferStoreFsync
  refine (wp_bindE _ _ _ s).2 (wp_mono (fun r t ht => ?_) (wp_guard_mono (fun o t ht => ht.1) (wp_and hwp hok)))
  obtain ⟨ht, hres⟩ := ht
  cases r with
  | error e => exact hres.elim
  | ok u =>
    have hguard : t = s ∨ job.stores ≠ [] ∧ t.written.length = s.written.length + 1 ∧ t.undo = s.undo :=
      ht.imp And.right id
    refine (wp_handler (G := fun _ t => t = s ∨ job.stores ≠ [] ∧
      t.written.length = s.written.length + 1 ∧ t.undo = s.undo) _ _ t).2 ⟨hguard, ?_, ?_⟩
    · rcases ht with ⟨hnil, rfl⟩ | ⟨hne, hw, -⟩
      · rw [if_pos hnil]; rfl
      · rw [if_neg hne]; exact hw
    · show (t.undo.append _).sync = _
      rw [hres.undo]

theorem commit_counts (c : ChainState st) (b : ChainBlock st) :
    (c.commit b).disk.written.length = c.disk.written.length + (if b.stores = [] then 0 else 1) ∧
      (c.commit b).disk.undo.log.length = c.disk.undo.log.length + 1 ∧
      ∀ k, ¬(c.commit b).disk.undo.Unsynced k := by
  obtain ⟨hw, hu⟩ := wp_exec (commitJob_points (s := c.disk) (b.job c.disk))
  refine ⟨hw, ?_, ?_⟩
  · show (exec handle _ c.disk).2.undo.log.length = _
    rw [hu]
    exact length_append
  · show ∀ k, ¬(exec handle _ c.disk).2.undo.Unsynced k
    rw [hu]
    exact Kv.Durable.not_unsynced_sync _

/-! ## The points of a run -/

/-- The points of a run over `blocks` from `c`. -/
inductive AtBlock : ChainState st → List (ChainBlock st) → Disk → Prop
  /-- Between two blocks. -/
  | between (c : ChainState st) (blocks : List (ChainBlock st)) : AtBlock c blocks c.disk
  /-- The next block's manifest has been written, its undo record has not. -/
  | inside {c : ChainState st} {b : ChainBlock st} (blocks : List (ChainBlock st)) {t : Disk}
      (hne : b.stores ≠ []) (hw : t.written.length = c.disk.written.length + 1)
      (hu : t.undo = c.disk.undo) : AtBlock c (b :: blocks) t
  /-- A later block. -/
  | later {c : ChainState st} {b : ChainBlock st} {blocks : List (ChainBlock st)} {t : Disk}
      (h : AtBlock (c.commit b) blocks t) : AtBlock c (b :: blocks) t

theorem commitJobs_points (blocks : List (ChainBlock st)) (c : ChainState st) :
    wp handle.sem (fun _ => AtBlock c blocks) (fun _ => AtBlock c blocks)
      (commitJobs (jobsFrom c.disk.contents blocks)) c.disk := by
  induction blocks generalizing c with
  | nil => exact .between c []
  | cons b bs ih =>
    have hjob : wp handle.sem (fun _ => AtBlock c (b :: bs))
        (fun _ t => t = (c.commit b).disk) (b.job c.disk).prog c.disk := by
      refine wp_mono (fun r t ht => congrArg Prod.snd ht.2) (wp_guard_mono (fun o t ht => ?_)
        (wp_and (commitJob_points (b.job c.disk)) (wp_exec_eq handle (b.job c.disk).prog c.disk)))
      rcases ht.1 with rfl | ⟨hne, hw, hu⟩
      · exact .between c (b :: bs)
      · exact .inside bs hne hw hu
    refine (wp_bind _ _ _ _).2 (wp_mono (fun r t hcommit => ?_) hjob)
    have hbase : (fun id => applyAll (opsFor id b.stores) (c.disk.contents id)) = (c.commit b).disk.contents := by
      obtain ⟨u, -, hcon, -⟩ := exec_ok (commitJob_spec (s := c.disk) (b.job c.disk))
      exact funext fun id => (hcon id).symm
    rw [hcommit, hbase]
    refine (wp_bind _ _ _ _).2 ?_
    exact wp_mono (fun _ _ ht => .later ht)
      (wp_guard_mono (fun _ _ ht => .later ht) (ih (c.commit b)))

/-- How many undo records have been stored since. -/
def recordsSince (s t : Disk) : Nat := t.undo.log.length - s.undo.log.length

def manifestCount (blocks : List (ChainBlock st)) : Nat := (blocks.filter (!·.stores.isEmpty)).length

variable {blocks : List (ChainBlock st)} {c : ChainState st}

theorem AtBlock.undo_le {t : Disk} (h : AtBlock c blocks t) : c.disk.undo.log.length ≤ t.undo.log.length := by
  induction h with
  | between => exact Nat.le_refl _
  | inside blocks hne hw hu => rw [hu]
  | @later c b blocks t _ ih =>
    have hcount := (commit_counts c b).2.1
    omega

/-- A point at which no manifest has been written without its undo record is between two blocks. -/
theorem AtBlock.closed {t : Disk} (h : AtBlock c blocks t)
    (hclosed : t.written.length ≤ c.disk.written.length + manifestCount (blocks.take (recordsSince c.disk t))) :
    t = ((blocks.take (recordsSince c.disk t)).foldl commit c).disk := by
  induction h with
  | between c blocks =>
    simp [recordsSince, take_zero, foldl_nil]
  | inside blocks hne hw hu =>
    simp only [recordsSince, hu, Nat.sub_self, take_zero, hw, manifestCount, filter_nil, length_nil] at hclosed
    omega
  | @later c b blocks t hlater ih =>
    obtain ⟨hw, hu, -⟩ := commit_counts c b
    have hle := hlater.undo_le
    have hsince : recordsSince c.disk t = recordsSince (c.commit b).disk t + 1 := by
      simp only [recordsSince]
      omega
    rw [hsince, take_succ_cons] at hclosed ⊢
    refine ih ?_
    have hcount : manifestCount (b :: blocks.take (recordsSince (c.commit b).disk t)) =
        manifestCount (blocks.take (recordsSince (c.commit b).disk t)) + if b.stores = [] then 0 else 1 := by
      by_cases hnil : b.stores = []
      · simp [manifestCount, hnil]
      · simp [manifestCount, hnil]
    omega

/-! ## Commits in a row -/

theorem foldl_commit_applied (blocks : List (ChainBlock st)) (c : ChainState st) :
    (blocks.foldl commit c).applied = blocks.reverse ++ c.applied ∧ (blocks.foldl commit c).rolled = c.rolled ∧
      (blocks.foldl commit c).rollEnd = c.rollEnd := by
  induction blocks generalizing c with
  | nil => exact ⟨rfl, rfl, rfl⟩
  | cons b bs ih =>
    obtain ⟨h₁, h₂, h₃⟩ := ih (c.commit b)
    refine ⟨h₁.trans ?_, h₂, h₃⟩
    rw [reverse_cons, append_assoc]
    rfl

theorem foldl_commit_run {init : Disk} (hc : ChainRun init c)
    (hnum : ((blocks.reverse ++ c.applied).map (·.num)).Nodup) : ChainRun init (blocks.foldl commit c) := by
  induction blocks generalizing c with
  | nil => exact hc
  | cons b bs ih =>
    rw [reverse_cons, append_assoc, singleton_append] at hnum
    refine ih (.commit hc b ?_) hnum
    rw [map_append, map_cons] at hnum
    exact (nodup_cons.1 hnum.of_append_right).1

/-- The undo store is synced after every block. -/
theorem foldl_commit_undo (hne : blocks ≠ []) (c : ChainState st) (k : Int) :
    ¬(blocks.foldl commit c).disk.undo.Unsynced k := by
  rcases eq_nil_or_concat blocks with h | ⟨bs, b, rfl⟩
  · exact absurd h hne
  · rw [concat_eq_append, foldl_concat]
    exact (commit_counts _ b).2.2 k

theorem Recorded.of_suffix {init : StoreId → Contents} {u : Kv.Map Int BlockUndoRecord}
    {b : ChainBlock st} {below : List (ChainBlock st)} :
    ∀ {applied : List (ChainBlock st)}, Recorded init applied u → b :: below <:+ applied →
      u b.num = some (undoRecord (contentsOf init below) b.stores)
  | [], _, h => absurd (suffix_nil.1 h) nofun
  | b' :: below', hr, h => by
    rcases suffix_cons_iff.1 h with h | h
    · cases h
      exact hr.1
    · exact Recorded.of_suffix hr.2 h

/-- With its record stored, a block is rolled back to the state below it. -/
theorem rollback_restores {init : StoreId → Contents} {b : ChainBlock st} {below : List (ChainBlock st)}
    (hrec : s.undo.contents b.num = some (undoRecord (contentsOf init below) b.stores))
    (hcon : ∀ id, s.contents id = contentsOf init (b :: below) id) :
    ∃ n t, exec handle (rollbackBlock st b.num) s = (.ok n, t) ∧ ∀ id, t.contents id = contentsOf init below id := by
  refine ⟨_, _, rollbackBlock_spec hrec fun e he => undoRecord_attached he, fun id => ?_⟩
  rw [contents_rolledBack, undoFor_undoRecord, hcon]
  exact Kv.applyAll_preimages _ _

/-- **Every recovered block can be rolled back**, when the crash does not fall inside a block.  Whenever no manifest has
been written without its block's undo record: whatever a crash loses, recovery yields the state after the blocks whose
records are stored; and if that is the state after block `b`, rolling `b` back from its record succeeds and restores
the state before `b`. -/
theorem recovered_block_has_undo {init : Disk} (hinit : init.Fresh) (blocks : List (ChainBlock st))
    (hnum : (blocks.map (·.num)).Nodup) {p : Prog DiskOp DiskOp.Res (List (Except CheckpointError Unit))}
    (hreach : Reach handle.sem (commitJobs (jobsFrom init.contents blocks), init) (p, s))
    (hclosed : s.written.length ≤ manifestCount (blocks.take (recordsSince init s))) {s' : Disk} (hcrash : s.Crash s') :
    RecoversTo st s' (contentsOf init.contents (blocks.take (recordsSince init s)).reverse) ∧
      ∀ b below, b :: below <:+ (blocks.take (recordsSince init s)).reverse →
        (∀ id, (recover st s').2.contents id = contentsOf init.contents (b :: below) id) →
        (recover st s').2.undo.contents b.num = some (undoRecord (contentsOf init.contents below) b.stores) ∧
          ∃ n t, exec handle (rollbackBlock st b.num) (recover st s').2 = (.ok n, t) ∧
            ∀ id, t.contents id = contentsOf init.contents below id := by
  let done := blocks.take (recordsSince init s)
  let c := done.foldl commit (start init)
  have hpoint : AtBlock (start init) blocks s :=
    wp_point (wp_reach (commitJobs_points blocks (start init)) hreach)
  have hdisk : s = c.disk := hpoint.closed (by
    show s.written.length ≤ init.written.length + _
    rw [hinit.written, length_nil, Nat.zero_add]
    exact hclosed)
  obtain ⟨happ, hrolled, hend⟩ := foldl_commit_applied done (start init)
  have happ : c.applied = done.reverse := happ.trans (append_nil _)
  have hnum' : ((done.reverse ++ []).map ChainBlock.num).Nodup := by
    rw [append_nil, map_reverse, nodup_reverse, map_take]
    exact hnum.sublist (take_sublist _ _)
  have hinv : ChainInv init c := chainRun_inv hinit (foldl_commit_run .start hnum')
  obtain ⟨k, hb⟩ := hinv.boundary
  rw [hdisk] at hcrash
  refine ⟨?_, fun b below hsuf hcon => ?_⟩
  · rw [← happ]
    refine hinv.recovers ?_ (fun id => ?_) hcrash
    · rw [hrolled]; exact hb.newest
    · rw [hend]; exact Nat.zero_le _
  · -- the undo store was synced with the last record, so the crash kept all of it
    have hsuf : b :: below <:+ done.reverse := hsuf
    have hne : done ≠ [] := by
      rintro hnil
      rw [hnil] at hsuf
      cases suffix_nil.1 hsuf
    obtain ⟨u, hu, hs'⟩ := hcrash.undo
    have hundo : (recover st s').2.undo.contents = c.disk.undo.contents := by
      rw [(recover_spec (replayable_of_crash hb.recoverable hcrash)).2.1, hs', Kv.Durable.contents_ofMap]
      exact Kv.Durable.survives_eq hu (foldl_commit_undo hne _)
    have hstored := hinv.records.of_suffix (by rw [happ]; exact hsuf)
    rw [← hundo] at hstored
    exact ⟨hstored, rollback_restores hstored hcon⟩

/-- Two blocks on one account, the first deferred and the second not. -/
def twoAccountBlocks : List (ChainBlock allAttached) :=
  [⟨1, putAccount [1], true⟩, ⟨2, putAccount [2], false⟩]

/-- Both blocks are applied, and their records stored. -/
def twoAccountDisk : Disk :=
  (exec handle (commitJobs (jobsFrom emptyDisk.contents twoAccountBlocks)) emptyDisk).2

theorem recovered_block_has_undo_two :
    RecoversTo allAttached twoAccountDisk.reopened
      (contentsOf emptyDisk.contents twoAccountBlocks.reverse) ∧
    ∀ b below, b :: below <:+ twoAccountBlocks.reverse →
      (∀ id, (recover allAttached twoAccountDisk.reopened).2.contents id =
        contentsOf emptyDisk.contents (b :: below) id) →
      (recover allAttached twoAccountDisk.reopened).2.undo.contents b.num =
          some (undoRecord (contentsOf emptyDisk.contents below) b.stores) ∧
        ∃ n t, exec handle (rollbackBlock allAttached b.num)
            (recover allAttached twoAccountDisk.reopened).2 = (.ok n, t) ∧
          ∀ id, t.contents id = contentsOf emptyDisk.contents below id :=
  recovered_block_has_undo emptyDisk_fresh twoAccountBlocks (by decide)
    (reach_exec handle (commitJobs (jobsFrom emptyDisk.contents twoAccountBlocks)) emptyDisk)
    (s := twoAccountDisk) (by decide) twoAccountDisk.crash_reopened

/-! ## A crash inside a block -/

variable (defer : Bool)

/-- The block's manifest has been written, and nothing else. -/
def insideBlock : Disk :=
  (steps handle 1 (commitJobs (jobsFrom emptyDisk.contents [accountBlock defer]), emptyDisk)).2

theorem insideBlock_recovers :
    RecoversTo allAttached (insideBlock defer).reopened
      (contentsOf emptyDisk.contents [accountBlock defer]) := by
  have hr : Recoverable allAttached emptyDisk.origin (insideBlock defer) :=
    addManifest_recoverable emptyDisk_fresh.boundary.recoverable (manifestEntries_routed (putAccount [1]))
  have htarget : emptyDisk.origin.target (insideBlock defer) = contentsOf emptyDisk.contents [accountBlock defer] := by
    funext id
    refine (target_addManifest (Nat.zero_le _) _ id).trans ?_
    rw [entriesFor_manifestEntries]
    rfl
  rw [← htarget]
  exact (recovered_iff hr (fun _ => Nat.zero_le _) (crash_reopened _)).2
    (replays_target (suffix_refl _))

/-- In either fsync mode the undo store has nothing for the recovered block. -/
theorem insideBlock_unrecorded :
    (recover allAttached (insideBlock defer).reopened).2.undo.contents 1 = none ∧
      (exec handle (rollbackBlock allAttached 1)
        (recover allAttached (insideBlock defer).reopened).2).1 = .error (.missingUndoRecord 1) := by
  cases defer <;> decide

/-- **A block without its undo record.** A crash right after the manifest of a block recovers the state
after the block; its undo record is not in the undo store, and rolling the block back fails. -/
theorem recovered_without_undo :
    (∃ p, Reach handle.sem (commitJobs (jobsFrom emptyDisk.contents [accountBlock false]), emptyDisk)
      (p, insideBlock false)) ∧
    (insideBlock false).Crash (insideBlock false).reopened ∧
    RecoversTo allAttached (insideBlock false).reopened
      (contentsOf emptyDisk.contents [accountBlock false]) ∧
    (recover allAttached (insideBlock false).reopened).2.undo.contents 1 = none ∧
    (exec handle (rollbackBlock allAttached 1)
      (recover allAttached (insideBlock false).reopened).2).1 = .error (.missingUndoRecord 1) :=
  ⟨⟨_, reach_steps handle 1 _⟩, crash_reopened _, insideBlock_recovers false, insideBlock_unrecorded false⟩

end TronGoblin
