import TronGoblin.Executor.CommitCrash
import TronGoblin.Executor.Rollback

/-!
# Commits and rollbacks across a crash

A run applies blocks and rolls the newest ones back again; a crash falls between two calls.  A
rollback writes the old values with plain, un-synced writes and leaves the manifests alone, so the
state a run starts to count from (`Reference`) moves forward with every rollback.

* `ChainState`: the disk, the blocks still applied, and where the last rollback left off.
* `chainRun_inv`: after every run the stores hold the blocks still applied, each of which has its undo
  record, and the disk is at a `Boundary` of the last rollback.
* `rolled_back_stays_undone`: **recovery yields the blocks still applied, whenever no manifest on disk
  is older than the last rollback and every store that a rollback wrote has been synced since.**
* `rolled_back_block_returns`: without either of the two, a block that was rolled back returns.
-/

namespace TronGoblin

open List Function Prog Disk
open Kv (applyAll preimages)

/-- A block: its number, its write-set, and the fsync mode it is committed in. -/
structure ChainBlock (st : StateBackends) where
  num : Int
  stores : List (DrainedStore st)
  deferStoreFsync : Bool

variable {st : StateBackends} {s s' : Disk}

def contentsOf (init : StoreId → Contents) : List (ChainBlock st) → StoreId → Contents
  | [], id => init id
  | b :: below, id => applyAll (opsFor id b.stores) (contentsOf init below id)

/-- The commit of a block on this disk: its undo record holds the old values, as draining reads
them. -/
def ChainBlock.job (b : ChainBlock st) (s : Disk) : CommitJob st :=
  ⟨b.num, b.stores, undoRecord s.contents b.stores, b.deferStoreFsync⟩

structure ChainState (st : StateBackends) where
  disk : Disk
  /-- The blocks that are applied, the newest first. -/
  applied : List (ChainBlock st)
  /-- Specification only: how many manifests had been written when a rollback last wrote something. -/
  rolled : Nat
  /-- Specification only: how long each store's log was when a rollback last wrote to it. -/
  rollEnd : StoreId → Nat

namespace ChainState

def commit (c : ChainState st) (b : ChainBlock st) : ChainState st :=
  { c with
    disk := (exec handle (b.job c.disk).prog c.disk).2
    applied := b :: c.applied }

def rollback (c : ChainState st) : ChainState st :=
  match c.applied with
  | [] => c
  | b :: below =>
    let disk := (exec handle (rollbackBlock st b.num) c.disk).2
    { disk
      applied := below
      rolled := if b.stores.all (·.ops.isEmpty) then c.rolled else disk.written.length
      rollEnd := fun id =>
        if opsFor id b.stores = [] then c.rollEnd id else (disk.stores id).log.length }

end ChainState

/-- The states of a run; the numbers of the applied blocks are distinct. -/
inductive ChainRun (init : Disk) : ChainState st → Prop
  | start : ChainRun init ⟨init, [], 0, fun _ => 0⟩
  | commit {c : ChainState st} (h : ChainRun init c) (b : ChainBlock st)
      (hnum : b.num ∉ c.applied.map (·.num)) : ChainRun init (c.commit b)
  | rollback {c : ChainState st} (h : ChainRun init c) : ChainRun init c.rollback

variable {a : Reference}

theorem Boundary.setUndo (h : Boundary st a s) (u : Kv.Durable Int BlockUndoRecord) : Boundary st a { s with undo := u } where
  recoverable := ⟨h.recoverable.written_le, h.recoverable.ids, h.recoverable.ids_le,
    h.recoverable.routed, h.recoverable.covered, h.recoverable.settled⟩
  flushed := h.flushed
  newest := h.newest

/-- A committed block with its undo record: every point is recoverable, and it ends at a boundary. -/
theorem commitJob_boundary (job : CommitJob st) (h : Boundary st a s) :
    wp handle.sem (guard st a)
      (post (fun _ t => Boundary st a t ∧ (∀ id, t.contents id = applyAll (opsFor id job.stores) (s.contents id)) ∧
        t.undo.contents = update s.undo.contents job.blockNum (some job.record))
        fun _ _ => False)
      job.prog s := by
  refine wp_seq (commitDrained_wp job.stores job.deferStoreFsync h) nofun fun u t ht => ?_
  refine (wp_handler (G := guard st a) _ _ t).2 ⟨ht.boundary.recoverable, ?_⟩
  refine ⟨ht.boundary.setUndo _, ht.contents, ?_⟩
  show (t.undo.append [⟨job.blockNum, some job.record⟩]).sync.contents = _
  rw [Kv.Durable.contents_sync, Kv.Durable.contents_append, ht.undo]
  rfl

/-! ## One rollback -/

variable {stores : List (DrainedStore st)}

theorem undoFor_eq_nil {parent : StoreId → Contents} {id : StoreId} :
    undoFor id (undoRecord parent stores) = [] ↔ opsFor id stores = [] := by
  rw [undoFor_undoRecord, preimages, map_eq_nil_iff]

theorem opsFor_eq_nil_of_all (h : stores.all (·.ops.isEmpty) = true) (id : StoreId) : opsFor id stores = [] := by
  refine flatMap_eq_nil_iff.2 fun d hd => ?_
  have hops : d.ops = [] := isEmpty_iff.1 (all_eq_true.1 h d hd)
  rw [hops, ite_self]

/-- The reference after a rollback: the contents it leaves, counted from here. -/
def Reference.afterRollback (a : Reference) (s : Disk) (stores : List (DrainedStore st)) : Reference where
  contents := s.contents
  written := s.written.length
  marks := fun id => if opsFor id stores = [] then a.marks id else (s.stores id).log.length

/-- A rollback starts a new reference: what it wrote counts as lost until its store is synced. -/
theorem rolledBack_boundary (h : Boundary st a s) (num : Int)
    (parent : StoreId → Contents) (stores : List (DrainedStore st)) :
    let t := s.rolledBack num (undoRecord parent stores)
    Boundary st (a.afterRollback t stores) t := by
  intro t
  have htarget : ∀ id, (a.afterRollback t stores).target t id = t.contents id := fun id => by
    simp only [Reference.target, Reference.afterRollback, drop_length]; rfl
  refine ⟨⟨Nat.le_refl _, h.recoverable.ids, h.recoverable.ids_le, h.recoverable.routed, ?_,
    fun id k _ => congrFun (htarget id).symm k⟩, fun id => (htarget id).symm, h.newest⟩
  intro id k hmark hk
  by_cases hops : opsFor id stores = []
  · -- the rollback did not write this store
    have hsame : t.stores id = s.stores id := by
      show (s.stores id).appendEach (undoFor id _) = _
      rw [undoFor_eq_nil.2 hops]; rfl
    rw [hsame] at hmark hk
    have hold : (a.afterRollback t stores).marks id = a.marks id := if_pos hops
    rw [hold] at hmark
    exact h.recoverable.covered id k hmark hk
  · -- it did, so nothing of it is un-synced
    have hnew : (a.afterRollback t stores).marks id = (t.stores id).log.length := if_neg hops
    rw [hnew] at hmark
    obtain ⟨ws, hws, -⟩ := hk
    rw [Kv.Durable.tail, drop_of_length_le hmark] at hws
    cases hws

theorem rolledBack_empty {parent : StoreId → Contents} (h : ∀ id, opsFor id stores = []) (num : Int) :
    s.rolledBack num (undoRecord parent stores) = { s with undo := s.undo.append [⟨num, none⟩] } := by
  have hstores : (s.restore (undoRecord parent stores)).stores = s.stores := by
    funext id
    show (s.stores id).appendEach (undoFor id _) = _
    rw [undoFor_eq_nil.2 (h id)]; rfl
  show ({ stores := (s.restore _).stores, .. } : Disk) = _
  rw [hstores]
  rfl

/-! ## Whole runs -/

/-- Every applied block has its undo record: the values its keys had before it. -/
def Recorded (init : StoreId → Contents) :
    List (ChainBlock st) → Kv.Map Int BlockUndoRecord → Prop
  | [], _ => True
  | b :: below, u =>
    u b.num = some (undoRecord (contentsOf init below) b.stores) ∧ Recorded init below u

theorem Recorded.congr {init : StoreId → Contents} {u u' : Kv.Map Int BlockUndoRecord} :
    ∀ {applied : List (ChainBlock st)}, Recorded init applied u →
      (∀ b ∈ applied, u' b.num = u b.num) → Recorded init applied u'
  | [], _, _ => trivial
  | b :: _, h, hu => ⟨(hu b (mem_cons_self ..)).trans h.1,
      Recorded.congr h.2 fun b' hb' => hu b' (mem_cons_of_mem _ hb')⟩

structure ChainInv (init : Disk) (c : ChainState st) : Prop where
  boundary : ∃ contents, Boundary st ⟨contents, c.rolled, c.rollEnd⟩ c.disk
  contents : ∀ id, c.disk.contents id = contentsOf init.contents c.applied id
  records : Recorded init.contents c.applied c.disk.undo.contents
  nums : (c.applied.map (·.num)).Nodup

theorem update_of_not_mem {applied : List (ChainBlock st)} {num : Int} {u : Kv.Map Int BlockUndoRecord}
    {v : Option BlockUndoRecord} (h : num ∉ applied.map (·.num)) :
    ∀ b ∈ applied, update u num v b.num = u b.num := by
  intro b hb
  refine update_of_ne (fun hn => h ?_) ..
  rw [← hn]
  exact mem_map_of_mem hb

variable {c : ChainState st} {init : Disk}

theorem commit_inv (h : ChainInv init c) (b : ChainBlock st) (hnum : b.num ∉ c.applied.map (·.num)) :
    ChainInv init (c.commit b) := by
  obtain ⟨k, hb⟩ := h.boundary
  obtain ⟨u, -, hb', hcon, hundo⟩ := exec_ok (commitJob_boundary (b.job c.disk) hb)
  refine ⟨⟨k, hb'⟩, fun id => ?_, ⟨?_, ?_⟩, nodup_cons.2 ⟨hnum, h.nums⟩⟩
  · exact (hcon id).trans (by rw [h.contents]; rfl)
  · have hbase : c.disk.contents = contentsOf init.contents c.applied := funext h.contents
    show (exec handle _ c.disk).2.undo.contents b.num = _
    rw [hundo, ← hbase]
    exact update_self ..
  · refine h.records.congr fun b' hb' => ?_
    show (exec handle _ c.disk).2.undo.contents b'.num = _
    rw [hundo]
    exact update_of_not_mem hnum b' hb'

/-- Rolling the newest block back succeeds, and gives back the state below it. -/
theorem rollback_newest (h : ChainInv init c) {b : ChainBlock st} {below : List (ChainBlock st)}
    (ha : c.applied = b :: below) :
    exec handle (rollbackBlock st b.num) c.disk =
      (.ok (undoRecord (contentsOf init.contents below) b.stores).length,
        c.disk.rolledBack b.num (undoRecord (contentsOf init.contents below) b.stores)) := by
  have hrec := h.records
  rw [ha] at hrec
  exact rollbackBlock_spec hrec.1 fun e he => undoRecord_attached he

theorem rollback_inv (h : ChainInv init c) : ChainInv init c.rollback := by
  unfold ChainState.rollback
  split
  · exact h
  · rename_i b below ha
    have hnums := h.nums
    have hrecs := h.records
    rw [ha] at hnums hrecs
    obtain ⟨k, hb⟩ := h.boundary
    simp only [rollback_newest h ha]
    refine ⟨?_, fun id => ?_, ?_, (nodup_cons.1 hnums).2⟩
    · by_cases hall : b.stores.all (·.ops.isEmpty) = true
      · have hnil := opsFor_eq_nil_of_all hall
        refine ⟨k, ?_⟩
        simp only [hall, hnil, if_true]
        rw [rolledBack_empty hnil]
        exact hb.setUndo _
      · simp only [hall, Bool.false_eq_true, if_false]
        exact ⟨_, rolledBack_boundary hb b.num _ b.stores⟩
    · rw [contents_rolledBack, undoFor_undoRecord, h.contents, ha]
      exact Kv.applyAll_preimages _ _
    · rw [undo_rolledBack]
      exact hrecs.2.congr (update_of_not_mem (nodup_cons.1 hnums).1)

theorem chainRun_inv (hinit : init.Fresh) (h : ChainRun init c) : ChainInv init c := by
  induction h with
  | start => exact ⟨⟨_, hinit.boundary⟩, fun _ => rfl, trivial, nodup_nil⟩
  | commit _ b hnum ih => exact commit_inv ih b hnum
  | rollback _ ih => exact rollback_inv ih

theorem ChainInv.recovers (h : ChainInv init c) (hold : c.disk.manifests <:+ c.disk.written.drop c.rolled)
    (hsync : ∀ id, c.rollEnd id ≤ (c.disk.stores id).mark) {s' : Disk} (hcrash : c.disk.Crash s') :
    RecoversTo st s' (contentsOf init.contents c.applied) := by
  obtain ⟨k, hb⟩ := h.boundary
  have htarget : Reference.target ⟨k, c.rolled, c.rollEnd⟩ c.disk = contentsOf init.contents c.applied :=
    funext fun id => (hb.flushed id).symm.trans (h.contents id)
  rw [← htarget]
  exact (recovered_iff hb.recoverable hsync hcrash).2 (replays_target hold)

/-- **A rolled-back block stays undone.**  After commits, in any mix of modes, and rollbacks of the newest blocks: if no
manifest on disk is older than the last rollback, and every store that a rollback wrote has been synced since, recovery
from any crash yields the state after the blocks that are still applied. -/
theorem rolled_back_stays_undone {init : Disk} (hinit : init.Fresh) {c : ChainState st}
    (hrun : ChainRun init c) (hold : c.disk.manifests <:+ c.disk.written.drop c.rolled)
    (hsync : ∀ id, c.rollEnd id ≤ (c.disk.stores id).mark) {s' : Disk} (hcrash : c.disk.Crash s') :
    RecoversTo st s' (contentsOf init.contents c.applied) :=
  (chainRun_inv hinit hrun).recovers hold hsync hcrash

variable (defer : Bool)

def accountBlock : ChainBlock allAttached := ⟨1, putAccount [1], defer⟩

/-- The state after that block was applied and rolled back. -/
def undoneBlock : ChainState allAttached :=
  (ChainState.commit ⟨emptyDisk, [], 0, fun _ => 0⟩ (accountBlock defer)).rollback

theorem undoneBlock_run : ChainRun emptyDisk (undoneBlock defer) :=
  .rollback (.commit .start (accountBlock defer) nofun)

/-- The block once more, and not deferred: the commit syncs the store and leaves no manifest. -/
def redoneBlock : ChainState allAttached := (undoneBlock false).commit (accountBlock false)

theorem rolled_back_stays_undone_redone : redoneBlock.applied.length = 1 ∧
    RecoversTo allAttached redoneBlock.disk.reopened
      (contentsOf emptyDisk.contents redoneBlock.applied) := by
  have hmarks : ∀ id, redoneBlock.rollEnd id ≤ (redoneBlock.disk.stores id).mark := by
    intro id
    cases id <;> decide
  exact ⟨rfl, rolled_back_stays_undone emptyDisk_fresh
    (.commit (undoneBlock_run false) (accountBlock false) nofun) nil_suffix hmarks
    (crash_reopened _)⟩

/-- The account store without what a crash may lose. -/
def Disk.losing (s : Disk) (m : Contents) : Disk :=
  { s.reopened with stores := update s.reopened.stores .accounts (.ofMap m) }

/-- **Two ways for a rolled-back block to return.** A deferred block's manifest stays on disk when the
block is rolled back, so recovery applies the block again although the crash lost nothing; and the
writes of a rollback are not synced, so a crash may lose them. -/
theorem rolled_back_block_returns :
    (ChainRun emptyDisk (undoneBlock true) ∧ (undoneBlock true).disk.Crash (undoneBlock true).disk.reopened ∧
      contentsOf emptyDisk.contents (undoneBlock true).applied .accounts [0] = none ∧
      (recover allAttached (undoneBlock true).disk.reopened).2.contents .accounts [0] = some [1]) ∧
    ChainRun emptyDisk (undoneBlock false) ∧ ∃ s', (undoneBlock false).disk.Crash s' ∧
        contentsOf emptyDisk.contents (undoneBlock false).applied .accounts [0] = none ∧
        (recover allAttached s').2.contents .accounts [0] = some [1] := by
  refine ⟨⟨undoneBlock_run true, crash_reopened _, rfl, by decide⟩, undoneBlock_run false, ?_⟩
  let d := (undoneBlock false).disk
  -- the crash keeps the committed batch and loses the rollback's write
  refine ⟨d.losing (applyAll ((d.stores .accounts).log.take 1).flatten (d.stores .accounts).base),
    ⟨fun id => ?_, ⟨_, d.undo.survives_contents, rfl⟩, rfl⟩, rfl, by decide⟩
  by_cases hid : id = .accounts
  · subst hid
    exact ⟨_, ⟨1, by decide, rfl⟩, rfl⟩
  · refine ⟨_, (d.stores id).survives_contents, ?_⟩
    show update d.reopened.stores .accounts _ id = _
    rw [update_of_ne hid]
    rfl

end TronGoblin
