import TronGoblin.Executor.CommitCrash

/-!
# How long a manifest stays on disk

Runs of commits, barriers and recoveries in which any store write or sync may fail; the call then
returns the error and later calls follow.

* `DurablyApplied`: each entry of a manifest has been written to its store since the manifest was
  written, and a sync has made that write durable.
* `manifest_outlives_writes`: **a manifest is deleted only once it is durably applied, in every run in
  which a barrier finds no half-written manifest and recovery reads no manifest whose writes were not
  durable before.**
* `manifest_dropped_early`: what happens in the other runs: recovery deletes a manifest after plain
  writes of its entries, and a barrier deletes the manifest that a failed commit left behind.
-/

namespace TronGoblin

open List Prog Disk DiskOp Kv

inductive Call (st : StateBackends)
  | commit (c : CommitCall st)
  | barrier
  | replay

variable {st : StateBackends} {s s' : Disk}

def Call.prog : Call st → Prog DiskOp Res (Except CheckpointError Unit)
  | .commit c => commitDrained st c.stores c.deferStoreFsync
  | .barrier => flushStateWalsAndClearCheckpoints st
  | .replay => (do let _ ← replayPendingCheckpoints st : DiskM CheckpointError Unit)

/-- Each entry of the manifest stands in relation `R` to the store it is routed to, counted from
the length that the store's log had when the manifest was written. -/
def EntriesHold (R : Durable Bytes Bytes → Nat → WriteOp → Prop) (st : StateBackends)
    (m : Manifest) (s : Disk) : Prop :=
  ∀ e ∈ m.entries, ∃ id, byName st e.dbName = some id ∧ R (s.stores id) (m.start id) ⟨e.key, e.value⟩

/-- Each entry has been written to its store since the manifest was written. -/
abbrev Applied := EntriesHold Durable.WrittenSince

/-- Moreover each of these writes has been made durable by a sync. -/
abbrev DurablyApplied := EntriesHold Durable.DurableSince

/-- A barrier syncs only when no manifest on disk is half-written, and recovery reads only manifests
whose writes are durable already. -/
def Orderly (st : StateBackends) : DiskOp → Disk → Prop
  | .syncWal _, s => ∀ m ∈ s.manifests, Applied st m s
  | .readManifest id, s => ∀ m ∈ s.manifests, m.id = id → DurablyApplied st m s
  | _, _ => True

/-- A manifest that is about to be deleted is durably applied. -/
def SafeDelete (st : StateBackends) : DiskOp → Disk → Prop
  | .deleteManifest id, s => ∀ m ∈ s.manifests, m.id = id → DurablyApplied st m s
  | _, _ => True

/-- Store operations may fail, and every step is orderly. -/
abbrev orderlySem (st : StateBackends) : Sem DiskOp Res Disk :=
  restrict faulty (Orderly st)

/-- No identifier on disk is above the last one handed out. -/
def IdsBelow (s : Disk) : Prop := ∀ m ∈ s.manifests, m.id ≤ s.lastId

/-! ## Single operations -/

variable {m : Manifest}

theorem EntriesHold.mono {R R' : Durable Bytes Bytes → Nat → WriteOp → Prop} (h : EntriesHold R st m s)
    (hR : ∀ id, st.attached id = true → ∀ n w, R (s.stores id) n w → R' (s'.stores id) n w) :
    EntriesHold R' st m s' := by
  intro e he
  obtain ⟨id, hid, hw⟩ := h e he
  have hatt := List.find?_some hid
  exact ⟨id, hid, hR id (Bool.and_eq_true_iff.1 hatt).1 _ _ hw⟩

theorem stores_setStore (id id' : StoreId) (d : Durable Bytes Bytes) :
    (s.setStore id d).stores id' = if id' = id then d else s.stores id' := by
  by_cases h : id' = id
  · subst h; simp [setStore]
  · simp [setStore, h]

variable {d : Durable Bytes Bytes} {id : StoreId}

/-- What holds of every store but one, and of the new value of that one. -/
theorem EntriesHold.setStore {R : Durable Bytes Bytes → Nat → WriteOp → Prop} (h : EntriesHold R st m s)
    (hd : ∀ n w, R (s.stores id) n w → R d n w) : EntriesHold R st m (s.setStore id d) := by
  refine h.mono fun id' _ n w hw => ?_
  rw [stores_setStore]
  split
  · rename_i hid
    subst hid
    exact hd n w hw
  · exact hw

variable {o : DiskOp}

theorem handle_idsBelow (h : IdsBelow s) : IdsBelow (handle o s).2 := by
  cases o with
  | writeManifest entries =>
    intro m hm
    rcases mem_append.1 hm with hm | hm
    · exact le_of_lt (lt_of_le_of_lt (h m hm) (uniqueMs_gt s))
    · rw [mem_singleton.1 hm]; exact le_refl _
  | deleteManifest id => exact fun m hm => h m (mem_filter.1 hm).1
  | _ => exact h

theorem faulty_idsBelow {r : o.Res} (h : IdsBelow s) (hs : faulty o s r s') : IdsBelow s' := by
  rcases hs with hs | ⟨-, rfl⟩
  · have := handle_idsBelow (o := o) h
    rwa [hs] at this
  · exact h

variable {Q : Unit → Disk → Prop} {ops : List WriteOp}

/-- A store operation: after an error nothing remains to be shown. -/
theorem writeBatch_wp {sync : Bool} (h : Q () (s.setStore id (batch (s.stores id) ops sync))) :
    wp (orderlySem st) (SafeDelete st) (post Q fun _ _ => True) (writeBatch id ops sync) s := by
  refine ⟨trivial, ?_⟩
  rintro r t ⟨-, hs | ⟨⟨e, rfl⟩, rfl⟩⟩
  · cases hs; exact h
  · trivial

theorem putOrDelete_wp {op : WriteOp} (h : Q () (s.setStore id ((s.stores id).append [op]))) :
    wp (orderlySem st) (SafeDelete st) (post Q fun _ _ => True)
      (putOrDelete CheckpointError.decode id op) s := by
  refine ⟨trivial, ?_⟩
  rintro r t ⟨-, hs | ⟨⟨e, rfl⟩, rfl⟩⟩
  · cases hs; exact h
  · trivial

/-- A sync is part of a barrier, so no manifest is half-written. -/
theorem syncWal_wp (h : (∀ m ∈ s.manifests, Applied st m s) → Q () (s.setStore id (s.stores id).sync)) :
    wp (orderlySem st) (SafeDelete st) (post Q fun _ _ => True) (syncWal id) s := by
  refine ⟨trivial, ?_⟩
  rintro r t ⟨ho, hs | ⟨⟨e, rfl⟩, rfl⟩⟩
  · cases hs; exact h ho
  · trivial

theorem faulty_eq {r : o.Res} (ho : ∀ r, ¬storeError o r) (h : faulty o s r s') : handle o s = (r, s') := by
  rcases h with h | ⟨h, -⟩
  · exact h
  · exact absurd h (ho r)

theorem wp_directory {β : Type} (ho : ∀ r, ¬storeError o r) {f : o.Res → DiskM CheckpointError β}
    {Q : Except CheckpointError β → Disk → Prop} (hg : SafeDelete st o s)
    (h : wp (orderlySem st) (SafeDelete st) Q (f (handle o s).1) (handle o s).2) :
    wp (orderlySem st) (SafeDelete st) Q (diskOp o >>= f : DiskM CheckpointError β) s := by
  refine (wp_bindE _ _ _ s).2 ⟨hg, ?_⟩
  rintro r t ⟨-, hs⟩
  rw [faulty_eq ho hs] at h
  exact h

theorem deleteManifest_wp {id : Nat} (hg : SafeDelete st (.deleteManifest id) s) (h : ∀ t, Q () t) :
    wp (orderlySem st) (SafeDelete st) (post Q fun _ _ => True) (deleteManifest id) s := by
  refine ⟨hg, ?_⟩
  rintro r t -
  cases (r : Bool) with
  | true => exact h t
  | false => trivial

/-- After a barrier's syncs every manifest on disk is durably applied. -/
theorem syncAllStateWals_durable :
    wp (orderlySem st) (SafeDelete st)
      (post (fun _ s' => ∀ m ∈ s'.manifests, DurablyApplied st m s') fun _ _ => True)
      (syncAllStateWals st) s := by
  -- `done` is synced, and each sync found the manifests fully written
  let J : List StoreId → Disk → Prop := fun done t =>
    (done ≠ [] → ∀ m ∈ t.manifests, Applied st m t) ∧ ∀ id ∈ done, (t.stores id).sync = t.stores id
  refine wp_post (wp_forM (E := fun _ _ => True) J ?_ ⟨fun hne => absurd rfl hne, nofun⟩) (fun _ _ => id) fun _ t ht => ?_
  · rintro done id rest - t ⟨-, hsync⟩
    refine syncWal_wp fun happ => ⟨fun _ m hm => ?_, fun id' hid' => ?_⟩
    · exact (happ m hm).setStore fun n w hw => hw
    · rw [stores_setStore]
      split
      · rfl
      · rename_i hne
        refine hsync id' ((mem_append.1 hid').resolve_right fun hmem => hne ?_)
        exact mem_singleton.1 hmem
  · have hacc : StoreId.accounts ∈ StoreId.commitOrder.filter st.attached :=
      mem_filter.2 ⟨StoreId.mem_commitOrder _, st.mandatory _ rfl⟩
    intro m hm
    refine EntriesHold.mono (ht.1 (ne_nil_of_mem hacc) m hm) fun id hid n w hw => ?_
    rw [← ht.2 id (mem_filter.2 ⟨StoreId.mem_commitOrder id, hid⟩)]
    exact Durable.durableSince_sync hw

theorem barrier_safe :
    wp (orderlySem st) (SafeDelete st) (fun _ _ => True)
      (flushStateWalsAndClearCheckpoints st) s := by
  refine wp_seq syncAllStateWals_durable (fun _ _ => id) fun _ t ht => ?_
  refine wp_directory (by exact fun _ => not_false) trivial ?_
  let J : List Nat → Disk → Prop := fun _ t' => ∀ m ∈ t'.manifests, DurablyApplied st m t'
  refine wp_mono (fun r t' _ => trivial) (wp_forM (E := fun _ _ => True) J ?_ ht)
  rintro done id rest - t' ht'
  refine wp_directory (by exact fun _ => not_false) (fun m hm _ => ht' m hm) fun m hm => ?_
  exact ht' m (mem_filter.1 hm).1

/-! ## The commit -/

/-- In the middle of a steady-state flush: the batches of `done` are durable. -/
structure Flushing (st : StateBackends) (m : Manifest) (old : List Manifest) (sync : Bool)
    (done : List (DrainedStore st)) (s : Disk) : Prop where
  manifests : s.manifests = old ++ [m]
  start : ∀ id, m.start id ≤ (s.stores id).log.length
  durable : sync = true → ∀ d ∈ done, ∀ w ∈ d.ops, (s.stores d.id).DurableSince (m.start d.id) w

theorem length_batch (d : Durable Bytes Bytes) (ops : List WriteOp) (sync : Bool) :
    d.log.length ≤ (batch d ops sync).log.length := by
  unfold batch
  split
  · exact le_refl _
  · split <;> exact le_of_lt (by simp [Durable.sync, Durable.append])

theorem durableSince_batch {n : Nat} {w : WriteOp} (h : d.DurableSince n w) : (batch d ops true).DurableSince n w := by
  unfold batch
  split
  · exact h
  · exact Durable.durableSince_sync
      (Durable.writtenSince_of_durable (Durable.durableSince_append _ h))

theorem durableSince_own_batch {n : Nat} (hn : n ≤ d.log.length) {w : WriteOp} (hw : w ∈ ops) :
    (batch d ops true).DurableSince n w := by
  unfold batch
  rw [if_neg (by simpa using ne_nil_of_mem hw)]
  exact Durable.durableSince_append_sync hn hw

theorem flushing_step {old : List Manifest} {sync : Bool} {done : List (DrainedStore st)} (d : DrainedStore st)
    (h : Flushing st m old sync done s) :
    Flushing st m old sync (done ++ [d])
      (s.setStore d.id (batch (s.stores d.id) d.ops sync)) where
  manifests := h.manifests
  start := by
    intro id
    rw [stores_setStore]
    split
    · rename_i hid
      subst hid
      exact le_trans (h.start d.id) (length_batch ..)
    · exact h.start id
  durable := by
    rintro rfl d' hd' w hw
    rw [stores_setStore]
    rcases mem_append.1 hd' with hd' | hd'
    · have hold := h.durable rfl d' hd' w hw
      split
      · rename_i hid
        rw [hid] at hold ⊢
        exact durableSince_batch hold
      · exact hold
    · rw [mem_singleton.1 hd', if_pos rfl]
      rw [mem_singleton.1 hd'] at hw
      exact durableSince_own_batch (h.start d.id) hw

/-- The writes of a flushed block are the entries of its manifest. -/
theorem durablyApplied_own {old : List Manifest} {stores : List (DrainedStore st)}
    (hm : m.entries = manifestEntries stores) (h : Flushing st m old true stores s) : DurablyApplied st m s := by
  intro e he
  rw [hm] at he
  obtain ⟨d, hd, he⟩ := mem_flatMap.1 he
  obtain ⟨w, hw, rfl⟩ := mem_map.1 he
  exact ⟨d.id, byName_dbName d.attached, h.durable rfl d hd w hw⟩

theorem commit_safe (stores : List (DrainedStore st)) (defer : Bool) (h : IdsBelow s) :
    wp (orderlySem st) (SafeDelete st) (fun _ _ => True) (commitDrained st stores defer) s := by
  unfold commitDrained
  split
  · trivial
  refine wp_directory (by exact fun _ => not_false) trivial ?_
  let m := s.newManifest (manifestEntries stores)
  have hflush : wp (orderlySem st) (SafeDelete st)
      (post (fun _ t => Flushing st m s.manifests (!defer) stores t) fun _ _ => True)
      (stores.forM fun d => writeBatch d.id d.ops (!defer) : DiskM CheckpointError PUnit)
      (s.addManifest (manifestEntries stores)) := by
    refine wp_forM (Flushing st m s.manifests (!defer)) ?_ ?_
    · rintro done d rest - t ht
      exact writeBatch_wp (flushing_step d ht)
    · exact ⟨rfl, fun _ => le_refl _, nofun⟩
  refine wp_seq hflush (fun _ _ => id) fun _ t ht => ?_
  cases defer with
  | true =>
    refine wp_directory (by exact fun _ => not_false) trivial ?_
    split
    · exact barrier_safe
    · trivial
  | false =>
    have hown : ∀ m' ∈ t.manifests, m'.id = s.uniqueMs → DurablyApplied st m' t := by
      intro m' hm' hid
      rw [ht.manifests] at hm'
      rcases mem_append.1 hm' with hm' | hm'
      · -- the identifiers of the older manifests are smaller
        have hlt := lt_of_le_of_lt (h m' hm') (uniqueMs_gt s)
        exact absurd hid (ne_of_lt hlt)
      · rw [mem_singleton.1 hm']
        exact durablyApplied_own rfl ht
    refine (wp_bindE _ _ _ t).2 (deleteManifest_wp hown fun t' => ?_)
    refine wp_directory (by exact fun _ => not_false) trivial ?_
    split
    · trivial
    · exact barrier_safe

/-! ## Recovery -/

theorem replayEntries_durable {id : Nat} {ms : List Manifest} (hms : s.manifests = ms)
    (h : ∀ m ∈ ms, m.id = id → DurablyApplied st m s) (es : List CheckpointEntry) :
    wp (orderlySem st) (SafeDelete st)
      (post (fun _ t => t.manifests = ms ∧ ∀ m ∈ ms, m.id = id → DurablyApplied st m t) fun _ _ => True)
      (es.forM (replayEntry st id) : DiskM CheckpointError PUnit) s := by
  let J : List CheckpointEntry → Disk → Prop := fun _ t =>
    t.manifests = ms ∧ ∀ m ∈ ms, m.id = id → DurablyApplied st m t
  refine wp_forM J ?_ ⟨hms, h⟩
  rintro done e rest - t ⟨hmt, ht⟩
  unfold replayEntry
  split
  · refine putOrDelete_wp ⟨hmt, fun m hm hid => ?_⟩
    exact (ht m hm hid).setStore fun n w => Durable.durableSince_append _
  · trivial

theorem replayManifest_safe (id : Nat) :
    wp (orderlySem st) (SafeDelete st) (post (fun _ _ => True) fun _ _ => True) (replayManifest st id) s := by
  refine (wp_bindE _ _ _ s).2 ⟨trivial, ?_⟩
  rintro r t ⟨ho, hs⟩
  have hs := faulty_eq (by exact fun _ => not_false) hs
  have hst : t = s := (congrArg Prod.snd hs).symm
  subst hst
  cases (r : Option (List CheckpointEntry)) with
  | none => trivial
  | some entries =>
    refine wp_seq (replayEntries_durable rfl ho _) (fun _ _ h => h) fun _ t ht => ?_
    exact wp_seq (deleteManifest_wp (Q := fun _ _ => True) (fun m hm => ht.2 m (ht.1 ▸ hm)) fun _ => trivial)
      (fun _ _ h => h) fun _ _ _ => trivial

theorem replay_safe :
    wp (orderlySem st) (SafeDelete st) (post (fun _ _ => True) fun _ _ => True) (replayPendingCheckpoints st) s := by
  refine wp_directory (by exact fun _ => not_false) trivial ?_
  suffices ∀ (ids : List Nat) (t : Disk), wp (orderlySem st) (SafeDelete st) (post (fun _ _ => True) fun _ _ => True)
      (replayManifests st ids) t from this _ _
  intro ids
  induction ids with
  | nil => exact fun t => trivial
  | cons id ids ih =>
    intro t
    refine wp_seq (replayManifest_safe id) (fun _ _ h => h) fun _ t' _ => ?_
    exact wp_seq (ih t') (fun _ _ h => h) fun _ _ _ => trivial

/-! ## Whole runs -/

theorem call_safe (c : Call st) (h : IdsBelow s) : wp (orderlySem st) (SafeDelete st) (fun _ => IdsBelow) c.prog s := by
  have hsafe : wp (orderlySem st) (SafeDelete st) (fun _ _ => True) c.prog s := by
    cases c with
    | commit c => exact commit_safe c.stores c.deferStoreFsync h
    | barrier => exact barrier_safe
    | replay => exact wp_seq replay_safe (fun _ _ => id) fun _ _ _ => trivial
  have hids : wp (orderlySem st) (fun _ => IdsBelow) (fun _ => IdsBelow) c.prog s :=
    wp_onlyOps (fun o t r t' _ hs ht => faulty_idsBelow ht hs.2) (onlyOps_true _) h
  exact wp_mono (fun _ _ ht => ht.2)
    (wp_guard_mono (fun _ _ ht => ht.1) (wp_and hsafe hids))

/-- **A manifest outlives its writes.** In every run of commits, barriers and recoveries whose steps
are orderly, with any store write or sync failing anywhere, a manifest that is about to be deleted has
every entry written to its store, and that write synced. -/
theorem manifest_outlives_writes {init : Disk} (hinit : IdsBelow init) (calls : List (Call st)) {id : Nat}
    {next : Res (.deleteManifest id) → Prog DiskOp Res (List (Except CheckpointError Unit))}
    (hreach : Reach (orderlySem st) (runAll Call.prog calls, init) (.op (.deleteManifest id) next, s)) :
    ∀ m ∈ s.manifests, m.id = id → DurablyApplied st m s := by
  have hrun : wp (orderlySem st) (SafeDelete st) (fun _ => IdsBelow)
      (runAll Call.prog calls) init :=
    wp_runAll (fun _ => IdsBelow) (fun _ c _ _ t ht => call_safe c ht) hinit
  exact (wp_reach hrun hreach).1

instance (m : Manifest) (s : Disk) : Decidable (Applied st m s) :=
  inferInstanceAs (Decidable (∀ e ∈ m.entries, ∃ id ∈ byName st e.dbName,
    ∃ ws ∈ (s.stores id).log.drop (m.start id), (⟨e.key, e.value⟩ : WriteOp) ∈ ws))

/-- The next step is orderly, and does not read a manifest. -/
def orderlyNext {α : Type} (st : StateBackends) : Prog DiskOp Res α × Disk → Bool
  | (.op (.syncWal _) _, s) => decide (∀ m ∈ s.manifests, Applied st m s)
  | (.op (.readManifest _) _, _) => false
  | _ => true

theorem reach_orderly {α : Type} (n : Nat) (c : Prog DiskOp Res α × Disk)
    (h : ∀ k < n, orderlyNext st (steps handle k c) = true) : Reach (orderlySem st) c (steps handle n c) := by
  induction n generalizing c with
  | zero => exact .refl
  | succ n ih =>
    obtain ⟨p, s⟩ := c
    cases p with
    | ret a => exact .refl
    | op o next =>
      have ho : Orderly st o s := by
        have hfirst := h 0 (Nat.succ_pos n)
        cases o with
        | syncWal id => exact (of_decide_eq_true hfirst : ∀ m ∈ s.manifests, Applied st m s)
        | readManifest id => cases hfirst
        | _ => trivial
      exact .head (.mk ⟨ho, Or.inl rfl⟩) (ih _ fun k hk => h (k + 1) (Nat.succ_lt_succ hk))

/-- Two deferred blocks, then a barrier. -/
def steadyCalls : List (Call allAttached) :=
  [.commit ⟨putAccount [1], true⟩, .commit ⟨putAccount [2], true⟩, .barrier]

/-- The barrier is about to delete the first manifest. -/
def steadyPoint : Disk :=
  (steps handle 32 (runAll Call.prog steadyCalls, emptyDisk)).2

theorem manifest_outlives_writes_steady : steadyPoint.manifests.length = 2 ∧
    ∀ m ∈ steadyPoint.manifests, m.id = 1 → DurablyApplied allAttached m steadyPoint := by
  have hinit : IdsBelow emptyDisk := nofun
  exact ⟨by decide +kernel, manifest_outlives_writes hinit steadyCalls (reach_orderly 32 _ (by decide +kernel))⟩

/-! ## Manifests deleted too early -/

/-- The next store write returns an error. -/
def failWrite {α : Type} : Prog DiskOp Res α × Disk → Prog DiskOp Res α × Disk
  | (.op (.writeBatch _ _ _) next, s) => (next (some "IO error"), s)
  | c => c

theorem reach_failWrite {α : Type} (c : Prog DiskOp Res α × Disk) : Reach faulty c (failWrite c) := by
  unfold failWrite
  split
  · exact .single (.mk (Or.inr ⟨⟨_, rfl⟩, rfl⟩))
  · exact .refl

theorem reach_succeed {α : Type} (n : Nat) (c : Prog DiskOp Res α × Disk) : Reach faulty c (steps handle n c) :=
  reach_mono (fun _ _ _ _ h => Or.inl h) (reach_steps handle n c)

/-- A manifest that is not durably applied is about to be deleted. -/
def EarlyDelete {α : Type} (st : StateBackends) (c : Prog DiskOp Res α × Disk) : Prop :=
  ∃ id next, c.1 = .op (.deleteManifest id) next ∧ ∃ m ∈ c.2.manifests, m.id = id ∧ ¬DurablyApplied st m c.2

/-- A deferred block, then recovery. -/
def replayCalls : List (Call allAttached) := [.commit ⟨putAccount [1], true⟩, .replay]

/-- Recovery has come to its delete. -/
def replayPoint : Prog DiskOp Res (List (Except CheckpointError Unit)) × Disk :=
  steps handle 6 (runAll Call.prog replayCalls, emptyDisk)

/-- A block over two stores. -/
def putTwo : List (DrainedStore allAttached) :=
  [⟨.accounts, [⟨[0], some [1]⟩], attached_all _⟩, ⟨.votes, [⟨[0], some [1]⟩], attached_all _⟩]

/-- That block, then a barrier. -/
def failedCalls : List (Call allAttached) := [.commit ⟨putTwo, false⟩, .barrier]

/-- The commit's second store write has failed, and the barrier has come to its delete. -/
def failedPoint : Prog DiskOp Res (List (Except CheckpointError Unit)) × Disk :=
  steps handle 26 (failWrite (steps handle 2 (runAll Call.prog failedCalls, emptyDisk)))

/-- **Two ways to lose a manifest.** Recovery deletes a manifest right after plain, un-synced writes
of its entries; and a barrier deletes the manifest of a commit that failed half way, one of whose
entries was never written at all. -/
theorem manifest_dropped_early :
    (Reach faulty (runAll Call.prog replayCalls, emptyDisk) replayPoint ∧ EarlyDelete allAttached replayPoint) ∧
    Reach faulty (runAll Call.prog failedCalls, emptyDisk) failedPoint ∧ EarlyDelete allAttached failedPoint := by
  have hname : ∀ id : StoreId, byName allAttached id.dbName = some id := fun _ => byName_dbName rfl
  refine ⟨⟨reach_succeed 6 _, 1, _, rfl, _, mem_singleton.2 rfl, rfl, fun h => ?_⟩, ?_, 1, _, rfl,
    _, mem_singleton.2 rfl, rfl, fun h => ?_⟩
  · obtain ⟨id, hid, ws, hws, -⟩ := h _ (mem_singleton.2 rfl)
    cases (hname .accounts).symm.trans hid
    cases hws
  · exact (reach_succeed 2 _).trans ((reach_failWrite _).trans (reach_succeed 26 _))
  · obtain ⟨id, hid, ws, hws, -⟩ := h _ (mem_cons_of_mem _ (mem_singleton.2 rfl))
    cases (hname .votes).symm.trans hid
    cases hws

end TronGoblin
