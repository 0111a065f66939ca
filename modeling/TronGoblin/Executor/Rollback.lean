import TronGoblin.Executor.BlockSession

/-!
# Applying and rolling back blocks

* `commitDrained_spec`: on any disk a commit succeeds, and each store has the block's writes applied.
* `rollbackBlock_spec`: rolling a block back writes its old values, one plain write each.
* `rollback_inverts_apply`: **blocks with distinct numbers, applied one after the other through block
  sessions and rolled back in reverse order, leave every store as it was and no undo record.**
-/

namespace TronGoblin

open List Prog Function Disk
open Kv (applyAll preimages)

variable {st : StateBackends} {s s' : Disk}

/-! ## What a commit does, on any disk -/

/-- Nothing that can be read from the stores has changed. -/
structure Silent (s s' : Disk) : Prop where
  contents : ∀ id, s'.contents id = s.contents id
  undo : s'.undo = s.undo

theorem Silent.refl (s : Disk) : Silent s s := ⟨fun _ => rfl, rfl⟩

theorem Silent.syncWal (h : Silent s s') (id : StoreId) : Silent s (s'.setStore id (s'.stores id).sync) :=
  ⟨fun id' => (contents_syncStore s' id id').trans (h.contents id'), h.undo⟩

theorem flushStateWals_silent :
    wp handle.sem (fun _ _ => True)
      (post (fun _ s' => Silent s s') fun _ _ => False)
      (flushStateWalsAndClearCheckpoints st) s := by
  have hsync : wp handle.sem (fun _ _ => True)
      (post (fun _ s' => Silent s s') fun _ _ => False) (syncAllStateWals st) s := by
    refine wp_forM (fun _ => Silent s) ?_ (Silent.refl s)
    rintro done id rest - t ht
    exact (wp_handler _ _ t).2 ⟨trivial, ht.syncWal id⟩
  refine wp_seq hsync nofun fun u t ht => ?_
  refine (wp_diskOp (G := fun _ _ => True) _ _ _ t).2 ⟨trivial, ?_⟩
  refine wp_forM (fun _ => Silent s) ?_ ht
  rintro done id rest - t' ht'
  exact (wp_diskOp _ _ _ t').2 ⟨trivial, ht'.contents, ht'.undo⟩

structure Committing (s : Disk) (done : List (DrainedStore st)) (s' : Disk) : Prop where
  contents : ∀ id, s'.contents id = applyAll (opsFor id done) (s.contents id)
  undo : s'.undo = s.undo

theorem Committing.silent {done : List (DrainedStore st)} {s'' : Disk} (h : Committing s done s')
    (hs : Silent s' s'') : Committing s done s'' :=
  ⟨fun id => (hs.contents id).trans (h.contents id), hs.undo.trans h.undo⟩

theorem committing_step {done : List (DrainedStore st)} (d : DrainedStore st) (sync : Bool) (h : Committing s done s') :
    Committing s (done ++ [d]) (s'.setStore d.id (batch (s'.stores d.id) d.ops sync)) := by
  refine ⟨fun id => ?_, h.undo⟩
  rw [opsFor_append, Kv.applyAll_append, ← h.contents, opsFor_singleton, contents_writeBatch]

/-- **A commit on any disk**: it cannot fail when the stores do not. -/
theorem commitDrained_spec (stores : List (DrainedStore st)) (defer : Bool) :
    wp handle.sem (fun _ _ => True)
      (post (fun _ s' => Committing s stores s') fun _ _ => False)
      (commitDrained st stores defer) s := by
  unfold commitDrained
  split
  · rename_i hempty
    rw [isEmpty_iff.1 hempty]
    exact ⟨fun _ => rfl, rfl⟩
  refine (wp_diskOp _ _ _ s).2 ⟨trivial, ?_⟩
  let s₁ := s.addManifest (manifestEntries stores)
  have hown : ∃ m ∈ s₁.manifests, m.id = s.uniqueMs :=
    ⟨_, mem_append_right _ (mem_singleton.2 rfl), rfl⟩
  -- the flush also leaves the directory alone, so the own manifest is found
  have hflush : wp handle.sem (fun _ _ => True)
      (post (fun _ t => Committing s stores t ∧ t.manifests = s₁.manifests) fun _ _ => False)
      (stores.forM fun d => writeBatch d.id d.ops (!defer) : DiskM CheckpointError PUnit) s₁ := by
    refine wp_forM (fun done t => Committing s done t ∧ t.manifests = s₁.manifests) ?_
      ⟨⟨fun _ => rfl, rfl⟩, rfl⟩
    rintro done d rest - t ⟨hc, hm⟩
    exact (wp_handler _ _ t).2 ⟨trivial, committing_step d _ hc, hm⟩
  refine wp_seq hflush nofun fun _ t ⟨hc, hm⟩ => ?_
  have hbarrier : ∀ t', Silent t t' → wp handle.sem (fun _ _ => True)
      (post (fun _ s' => Committing s stores s') fun _ _ => False)
      (flushStateWalsAndClearCheckpoints st) t' := fun t' ht' =>
    wp_post flushStateWals_silent nofun fun _ _ => (hc.silent ht').silent
  cases defer with
  | true =>
    refine (wp_diskOp (G := fun _ _ => True) _ _ _ t).2 ⟨trivial, ?_⟩
    split
    · exact hbarrier t (Silent.refl t)
    · exact hc
  | false =>
    rw [← hm] at hown
    refine (wp_deleteManifest (G := fun _ _ => True) hown _ _).2 ⟨trivial, ?_⟩
    refine (wp_diskOp (G := fun _ _ => True) _ _ _ _).2 ⟨trivial, ?_⟩
    have hdrop : Silent t (t.dropManifest s.uniqueMs) := ⟨fun _ => rfl, rfl⟩
    split
    · exact hc.silent hdrop
    · exact hbarrier _ hdrop

/-! ## What a rollback does -/

variable (id : StoreId)

/-- The writes that undo entries make to one store. -/
def undoFor (record : BlockUndoRecord) : List WriteOp :=
  record.filterMap fun e => if e.store = id then some ⟨e.key, e.before⟩ else none

theorem undoFor_append (es es' : BlockUndoRecord) :
    undoFor id (es ++ es') = undoFor id es ++ undoFor id es' := filterMap_append

theorem undoFor_singleton (e : UndoEntry) : undoFor id [e] = if e.store = id then [⟨e.key, e.before⟩] else [] := by
  unfold undoFor
  split <;> simp [*]

theorem undoFor_undoRecord (parent : StoreId → Contents) (stores : List (DrainedStore st)) :
    undoFor id (undoRecord parent stores) = preimages (parent id) (opsFor id stores) := by
  induction stores with
  | nil => rfl
  | cons d ds ih =>
    have hcons : undoRecord parent (d :: ds) =
        (d.ops.map fun w => ⟨d.id, w.key, parent d.id w.key⟩) ++ undoRecord parent ds := rfl
    have hops : opsFor id (d :: ds) = (if d.id = id then d.ops else []) ++ opsFor id ds := rfl
    rw [hcons, undoFor_append, ih, hops, preimages, preimages, map_append]
    congr 1
    unfold undoFor
    by_cases h : d.id = id
    · subst h
      simp
    · simp [h]

theorem undoRecord_attached {parent : StoreId → Contents} {stores : List (DrainedStore st)}
    {e : UndoEntry} (h : e ∈ undoRecord parent stores) : st.attached e.store = true := by
  obtain ⟨d, _, he⟩ := mem_flatMap.1 h
  obtain ⟨w, _, rfl⟩ := mem_map.1 he
  exact d.attached

/-- The disk with the old values of `record` written back, one plain write each. -/
def Disk.restore (s : Disk) (record : BlockUndoRecord) : Disk :=
  { s with stores := fun id => (s.stores id).appendEach (undoFor id record) }

theorem restore_step (s : Disk) (done : BlockUndoRecord) (e : UndoEntry) :
    (s.restore done).setStore e.store
      (((s.restore done).stores e.store).append [⟨e.key, e.before⟩]) = s.restore (done ++ [e]) := by
  unfold restore setStore
  congr 1
  funext id
  rw [undoFor_append, Kv.Durable.appendEach_append, undoFor_singleton]
  by_cases hid : id = e.store
  · subst hid
    rw [update_self, if_pos rfl]; rfl
  · rw [update_of_ne hid, if_neg (Ne.symm hid)]; rfl

def Disk.rolledBack (s : Disk) (num : Int) (record : BlockUndoRecord) : Disk :=
  { s.restore record with undo := s.undo.append [⟨num, none⟩] }

/-- **A rollback** of a block whose record is stored cannot fail. -/
theorem rollbackBlock_spec {num : Int} {record : BlockUndoRecord} (hrec : s.undo.contents num = some record)
    (hatt : ∀ e ∈ record, st.attached e.store = true) :
    exec handle (rollbackBlock st num) s = (.ok record.length, s.rolledBack num record) := by
  have hwp : wp handle.sem (fun _ _ => True)
      (post (fun n t => n = record.length ∧ t = s.rolledBack num record) fun _ _ => False)
      (rollbackBlock st num) s := by
    refine (wp_diskOp (G := fun _ _ => True) _ _ _ s).2 ⟨trivial, ?_⟩
    have hget : (handle (.undoGet num) s).1 = some record := hrec
    simp only [hget]
    have hloop : wp handle.sem (fun _ _ => True)
        (post (fun _ t => t = s.restore record) fun _ _ => False)
        (record.forM (rollbackEntry st) : DiskM RollbackError PUnit) s := by
      refine wp_forM (fun done t => t = s.restore done) ?_ rfl
      rintro done e rest hes t rfl
      rw [rollbackEntry, if_pos (hatt e (by rw [hes]; simp))]
      exact (wp_handler _ _ _).2 ⟨trivial, restore_step s done e⟩
    refine wp_seq hloop nofun fun u t ht => ?_
    cases ht
    exact (wp_diskOp (G := fun _ _ => True) _ _ _ _).2 ⟨trivial, rfl, rfl⟩
  obtain ⟨n, hok, rfl, hdisk⟩ := exec_ok hwp
  exact Prod.ext hok hdisk

theorem contents_rolledBack (s : Disk) (num : Int) (record : BlockUndoRecord) (id : StoreId) :
    (s.rolledBack num record).contents id = applyAll (undoFor id record) (s.contents id) :=
  Kv.Durable.contents_appendEach _ _

theorem undo_rolledBack (s : Disk) (num : Int) (record : BlockUndoRecord) :
    (s.rolledBack num record).undo.contents = update s.undo.contents num none :=
  Kv.Durable.contents_append _ _

/-! ## Blocks -/

/-- One block's durable work. -/
structure CommitJob (st : StateBackends) where
  blockNum : Int
  stores : List (DrainedStore st)
  record : BlockUndoRecord
  deferStoreFsync : Bool

/-- Commit the write-set, then store the undo record. -/
def CommitJob.prog (job : CommitJob st) : DiskM CheckpointError Unit := do
  commitDrained st job.stores job.deferStoreFsync
  diskOp (.undoPut job.blockNum job.record)

theorem commitJob_spec (job : CommitJob st) :
    wp handle.sem (fun _ _ => True)
      (post (fun _ t =>
        (∀ id, t.contents id = applyAll (opsFor id job.stores) (s.contents id)) ∧
        t.undo.contents = update s.undo.contents job.blockNum (some job.record))
        fun _ _ => False)
      job.prog s := by
  refine wp_seq (commitDrained_spec _ _) nofun fun u t ht => ?_
  have hundo : (t.undo.append [⟨job.blockNum, some job.record⟩]).sync.contents =
      update s.undo.contents job.blockNum (some job.record) := by
    rw [Kv.Durable.contents_sync, Kv.Durable.contents_append, ht.undo]; rfl
  exact (wp_handler (G := fun _ _ => True) _ _ t).2 ⟨trivial, ht.contents, hundo⟩

/-- How a block is committed: through a checkpoint, in either fsync mode, or store by store. -/
inductive CommitPath
  | checkpoint (deferStoreFsync : Bool)
  | direct
  deriving DecidableEq

/-- A block as it reaches the stores: its number, its puts and deletes through the block session,
the order in which its sessions happen to be drained, and how it is committed. -/
structure SessionBlock (st : StateBackends) where
  num : Int
  writes : List (BlockWrite st)
  order : StoreId → HashOrder
  path : CommitPath
  captureDeltas : Bool

variable (b : SessionBlock st)

/-- The block's write-set over these contents. -/
def SessionBlock.drain (contents : StoreId → Contents) : DrainedBlock st :=
  drainBlockSession st b.order contents (BlockSession.ofWrites b.writes) b.captureDeltas

/-- The part of `execute_block_inner` after the block's logic: commit the session and store the undo
record under the block's number. -/
def applyBlock (s : Disk) : Except CheckpointError Unit × Disk :=
  match b.path with
  | .checkpoint defer =>
    let drained := b.drain s.contents
    exec handle (CommitJob.prog ⟨b.num, drained.stores, drained.record, defer⟩) s
  | .direct =>
    let r := commitWithUndo st b.order (BlockSession.ofWrites b.writes) b.captureDeltas s
    exec handle (diskOp (.undoPut b.num r.1.record) : DiskM CheckpointError Unit) r.2

/-- **Applying a block**, on either path: it succeeds, the stores have its writes, and its number
leads to the values its keys had before. -/
theorem applyBlock_spec (s : Disk) :
    (applyBlock b s).1 = .ok () ∧
      (∀ id, (applyBlock b s).2.contents id = applyAll (opsFor id (b.drain s.contents).stores) (s.contents id)) ∧
      (applyBlock b s).2.undo.contents = update s.undo.contents b.num
        (some (undoRecord s.contents (b.drain s.contents).stores)) := by
  have hrec : (b.drain s.contents).record = undoRecord s.contents (b.drain s.contents).stores :=
    record_drain ..
  unfold applyBlock
  split
  · rename_i defer hpath
    obtain ⟨u, hok, hc, hu⟩ := exec_ok (commitJob_spec (s := s)
      ⟨b.num, (b.drain s.contents).stores, (b.drain s.contents).record, defer⟩)
    exact ⟨hok, hc, by rw [← hrec]; exact hu⟩
  · obtain ⟨h₁, h₂, h₃⟩ := @commitWithUndo_spec st b.order (BlockSession.ofWrites b.writes)
      b.captureDeltas s
    refine ⟨rfl, h₂, ?_⟩
    show ((commitWithUndo st b.order _ b.captureDeltas s).2.undo.append _).contents = _
    rw [Kv.Durable.contents_append, h₃, h₁, ← hrec]
    rfl

def applyBlocks : List (SessionBlock st) → Disk → Except CheckpointError Disk
  | [], s => .ok s
  | b :: bs, s =>
    match applyBlock b s with
    | (.ok (), s') => applyBlocks bs s'
    | (.error e, _) => .error e

def rollbackBlocks (st : StateBackends) : List Int → Disk → Except RollbackError Disk
  | [], s => .ok s
  | num :: nums, s =>
    match exec handle (rollbackBlock st num) s with
    | (.ok _, s') => rollbackBlocks st nums s'
    | (.error e, _) => .error e

theorem rollbackBlocks_append (nums nums' : List Int) (s : Disk) :
    rollbackBlocks st (nums ++ nums') s = (rollbackBlocks st nums s).bind fun s' => rollbackBlocks st nums' s' := by
  induction nums generalizing s with
  | nil => rfl
  | cons num nums ih =>
    simp only [cons_append, rollbackBlocks]
    split
    · exact ih _
    · rfl

/-- One block is undone: the stores are back, its record is gone, the other records are untouched. -/
theorem rollback_applyBlock {b : SessionBlock st} {s t : Disk}
    (hc : ∀ id, t.contents id = (applyBlock b s).2.contents id)
    (hu : t.undo.contents b.num = (applyBlock b s).2.undo.contents b.num) :
    ∃ t', rollbackBlocks st [b.num] t = .ok t' ∧ (∀ id, t'.contents id = s.contents id) ∧
      t'.undo.contents = update t.undo.contents b.num none := by
  obtain ⟨-, hcon, hundo⟩ := applyBlock_spec b s
  let record := undoRecord s.contents (b.drain s.contents).stores
  have hrec : t.undo.contents b.num = some record := by
    rw [hu, hundo, update_self]
  refine ⟨t.rolledBack b.num record, ?_, fun id => ?_, undo_rolledBack t b.num record⟩
  · simp [rollbackBlocks, rollbackBlock_spec hrec fun e he => undoRecord_attached he]
  · rw [contents_rolledBack, undoFor_undoRecord, hc, hcon, Kv.applyAll_preimages]

/-- **Rollback inverts apply.**  For blocks with distinct numbers, on whatever path they are committed and in whatever
order their sessions are drained: applying them and rolling them back in reverse order succeeds, every store is back to
its initial contents, and none of the numbers has an undo record. -/
theorem rollback_inverts_apply (s : Disk) (blocks : List (SessionBlock st)) (hnum : (blocks.map (·.num)).Nodup) :
    ∃ s₁ s₂, applyBlocks blocks s = .ok s₁ ∧ rollbackBlocks st (blocks.map (·.num)).reverse s₁ = .ok s₂ ∧
      (∀ id, s₂.contents id = s.contents id) ∧
      ∀ num ∈ blocks.map (·.num), s₂.undo.contents num = none := by
  suffices ∃ s₁ s₂, applyBlocks blocks s = .ok s₁ ∧ rollbackBlocks st (blocks.map (·.num)).reverse s₁ = .ok s₂ ∧
      (∀ id, s₂.contents id = s.contents id) ∧
      (∀ num ∈ blocks.map (·.num), s₂.undo.contents num = none) ∧
      ∀ num, num ∉ blocks.map (·.num) → s₂.undo.contents num = s.undo.contents num by
    obtain ⟨s₁, s₂, h₁, h₂, h₃, h₄, -⟩ := this
    exact ⟨s₁, s₂, h₁, h₂, h₃, h₄⟩
  induction blocks generalizing s with
  | nil => exact ⟨s, s, rfl, rfl, fun _ => rfl, nofun, fun _ _ => rfl⟩
  | cons b bs ih =>
    obtain ⟨hb, hbs⟩ := nodup_cons.1 hnum
    -- the later blocks are undone first, which leaves this block's record alone
    obtain ⟨s₁, s₂, hap, hroll, hcon, hnone, hkeep⟩ := ih (applyBlock b s).2 hbs
    obtain ⟨s₃, hlast, hcon', hundo'⟩ := rollback_applyBlock hcon (hkeep b.num hb)
    obtain ⟨hok, -, hundo⟩ := applyBlock_spec b s
    refine ⟨s₁, s₃, ?_, ?_, hcon', fun num hmem => ?_, fun num hmem => ?_⟩
    · rw [applyBlocks, show applyBlock b s = (.ok (), (applyBlock b s).2) from Prod.ext hok rfl]
      exact hap
    · rw [map_cons, reverse_cons, rollbackBlocks_append, hroll]
      exact hlast
    · rw [hundo']
      by_cases hn : num = b.num
      · rw [hn, update_self]
      · rw [update_of_ne hn]
        exact hnone num ((mem_cons.1 hmem).resolve_left hn)
    · obtain ⟨hn, hnot⟩ := not_or.1 fun h => hmem (mem_cons.2 h)
      rw [hundo', update_of_ne hn, hkeep num hnot, hundo, update_of_ne hn]

/-- Two blocks: one writes an account twice and a vote, the other overwrites the account and deletes
the vote; they take different paths and are drained in different orders. -/
def twoBlocks : List (SessionBlock allAttached) :=
  [{ num := 7
     writes := [⟨.accounts, ⟨[0], some [1]⟩, attached_all _⟩, ⟨.votes, ⟨[5], some [1]⟩, attached_all _⟩,
       ⟨.accounts, ⟨[0], some [2]⟩, attached_all _⟩]
     order := fun _ => .inserted
     path := .checkpoint true
     captureDeltas := true },
   { num := 8
     writes := [⟨.accounts, ⟨[0], some [3]⟩, attached_all _⟩, ⟨.votes, ⟨[5], none⟩, attached_all _⟩]
     order := fun _ => ⟨List.reverse, fun ws => ws.reverse_perm⟩
     path := .direct
     captureDeltas := false }]

theorem rollback_inverts_apply_two : ∃ s₁ s₂, applyBlocks twoBlocks emptyDisk = .ok s₁ ∧
    rollbackBlocks allAttached [8, 7] s₁ = .ok s₂ ∧
    (∀ id, s₂.contents id = emptyDisk.contents id) ∧
    ∀ num ∈ [(7 : Int), 8], s₂.undo.contents num = none :=
  rollback_inverts_apply emptyDisk twoBlocks (by decide)

end TronGoblin
