import TronGoblin.Executor.Replay

/-!
# Checkpointed commits across a crash

A run of `commit_drained` calls, cut by a crash between any two of its elementary operations, and
recovery from what survived.

* `commit_recovers_iff`: **recovery leaves every store after the last block whose manifest was
  written, if and only if every value that the manifests on disk would replay is the newest one that a
  manifest has recorded for its key.**
* `own_manifest_first`: a commit that is not deferred deletes its own manifest before the older,
  retained ones, so that a crash in between puts an older value back.
-/

namespace TronGoblin

open List Prog Disk
open Kv (applyAll lastWrite)

structure CommitCall (st : StateBackends) where
  stores : List (DrainedStore st)
  deferStoreFsync : Bool

open CommitCall

variable {st : StateBackends} {s s' : Disk}

def CommitCall.prog (c : CommitCall st) : Prog DiskOp DiskOp.Res (Except CheckpointError Unit) :=
  commitDrained st c.stores c.deferStoreFsync

def stateAfter (contents : StoreId → Contents) (calls : List (CommitCall st)) (id : StoreId) : Contents :=
  applyAll (opsFor id (calls.flatMap (·.stores))) (contents id)

/-- The manifests that these blocks write: none for a block without writes. -/
def manifestsOf (calls : List (CommitCall st)) : List (List CheckpointEntry) :=
  (calls.filter fun c => !c.stores.isEmpty).map fun c => manifestEntries c.stores

/-- Everything in the stores is durable and no manifest has been written yet. -/
structure Disk.Fresh (s : Disk) : Prop where
  synced : ∀ id k, ¬(s.stores id).Unsynced k
  manifests : s.manifests = []
  written : s.written = []

/-- No value that the manifests on disk would replay has been overwritten in a manifest since. -/
def NewestValues (s : Disk) : Prop :=
  ∀ id k v, lastWrite (manifestWrites id s.manifests) k = some v → lastWrite (manifestWrites id s.written) k = some v

/-! ## Which manifests have been written -/

theorem manifestsOf_append (cs cs' : List (CommitCall st)) :
    manifestsOf (cs ++ cs') = manifestsOf cs ++ manifestsOf cs' := by
  simp [manifestsOf, filter_append, map_append]

/-- The operations of a commit after its manifest has been written. -/
def AfterManifest : DiskOp → Prop
  | .writeBatch _ _ _ | .syncWal _ | .listManifests | .deleteManifest _ => True
  | _ => False

/-- A commit writes its manifest first; what the later operations keep holds at all later points. -/
theorem commitDrained_points {J : Disk → Prop} (stores : List (DrainedStore st)) (defer : Bool)
    (hJ : ∀ o t, AfterManifest o → J t → J (handle o t).2) (h : J (s.addManifest (manifestEntries stores))) :
    wp handle.sem (fun _ t => t = s ∨ stores ≠ [] ∧ J t)
      (fun _ t => stores = [] ∧ t = s ∨ stores ≠ [] ∧ J t) (commitDrained st stores defer) s := by
  unfold commitDrained
  split
  · rename_i hempty
    exact Or.inl ⟨isEmpty_iff.1 hempty, rfl⟩
  · rename_i hempty
    have hne : stores ≠ [] := fun hnil => hempty (isEmpty_iff.2 hnil)
    refine (wp_diskOp _ _ _ s).2 ⟨Or.inl rfl, ?_⟩
    refine wp_guard_mono (fun o t ht => Or.inr ⟨hne, ht⟩) (wp_mono
      (fun r t ht => Or.inr ⟨hne, ht⟩) (wp_onlyOps (P := AfterManifest) ?_ ?_ h))
    · rintro o t r t' ho hsem ht
      have hnext := hJ o t ho ht
      rwa [hsem] at hnext
    · exact flushDrained_onlyOps (fun _ _ _ => trivial) (fun _ => trivial) trivial fun _ => trivial

/-- After the manifest of a commit, no other manifest is written and the undo store is not touched. -/
theorem handle_afterManifest {o : DiskOp} (h : AfterManifest o) (s : Disk) :
    (handle o s).2.written = s.written ∧ (handle o s).2.undo = s.undo := by
  cases o with
  | writeManifest entries => exact h.elim
  | undoPut num record => exact h.elim
  | undoDelete num => exact h.elim
  | _ => exact ⟨rfl, rfl⟩

/-- A call writes its manifest first, and no other. -/
theorem commitCall_written (c : CommitCall st) {W : List (List CheckpointEntry)} (h : s.written.map (·.entries) = W) :
    wp handle.sem
      (fun _ s' => s'.written.map (·.entries) = W ∨ s'.written.map (·.entries) = W ++ manifestsOf [c])
      (fun _ s' => s'.written.map (·.entries) = W ++ manifestsOf [c]) c.prog s := by
  have hnew : (s.addManifest (manifestEntries c.stores)).written.map (·.entries) = W ++ [manifestEntries c.stores] := by
    show (s.written ++ [s.newManifest (manifestEntries c.stores)]).map _ = _
    rw [map_append, h]; rfl
  have hone : c.stores ≠ [] → manifestsOf [c] = [manifestEntries c.stores] := fun hne => by
    simp [manifestsOf, hne]
  have hwp := commitDrained_points (J := fun t => t.written.map (·.entries) =
    W ++ [manifestEntries c.stores]) c.stores c.deferStoreFsync
    (fun o t ho ht => by rw [(handle_afterManifest ho t).1, ht]) hnew
  refine wp_mono (fun r t ht => ?_) (wp_guard_mono (fun o t ht => ?_) hwp)
  · rcases ht with ⟨hnil, rfl⟩ | ⟨hne, ht⟩
    · have hnone : manifestsOf [c] = [] := by simp [manifestsOf, hnil]
      rw [hnone, append_nil, h]
    · rw [hone hne, ht]
  · rcases ht with rfl | ⟨hne, ht⟩
    · exact Or.inl h
    · exact Or.inr (by rw [hone hne, ht])

theorem handle_manifests_subset {o : DiskOp} (h : s.manifests ⊆ s.written) :
    (handle o s).2.manifests ⊆ (handle o s).2.written := by
  cases o with
  | writeManifest entries =>
    intro m hm
    rcases mem_append.1 hm with hm | hm
    · exact mem_append_left _ (h hm)
    · exact mem_append_right _ hm
  | deleteManifest id => exact fun m hm => h (mem_filter.1 hm).1
  | _ => exact h

/-! ## Every point of a run -/

/-- The reference of a run: what the stores held when it began. -/
def Disk.origin (s : Disk) : Reference := ⟨s.contents, 0, fun _ => 0⟩

theorem Disk.Fresh.boundary (h : s.Fresh) : Boundary st s.origin s := by
  have htarget : ∀ id, s.origin.target s id = s.contents id := fun id => by
    simp only [Reference.target, h.written, drop_nil]; rfl
  refine ⟨⟨Nat.zero_le _, ?_, ?_, ?_, fun id k _ hk => absurd hk (h.synced id k), ?_⟩, ?_, ?_⟩
  · rw [h.manifests]; exact .nil
  · intro m hm
    rw [h.manifests] at hm
    exact absurd hm not_mem_nil
  · intro m hm
    rw [h.manifests] at hm
    exact absurd hm not_mem_nil
  · exact fun id k _ => congrFun (htarget id).symm k
  · exact fun id => (htarget id).symm
  · rw [h.manifests]; exact nil_suffix

/-- What holds at every point of a run over `calls` that began in `init`. -/
structure AtPoint (init : Disk) (calls : List (CommitCall st)) (s : Disk) : Prop where
  recoverable : Recoverable st init.origin s
  subset : s.manifests ⊆ s.written
  /-- The manifests of the first `n` blocks have been written. -/
  progress : ∃ n ≤ calls.length, s.written.map (·.entries) = manifestsOf (calls.take n)

/-- What holds after the calls of `done`. -/
structure AfterCalls (init : Disk) (done : List (CommitCall st)) (s : Disk) : Prop where
  boundary : Boundary st init.origin s
  subset : s.manifests ⊆ s.written
  progress : s.written.map (·.entries) = manifestsOf done

variable {init : Disk}

theorem commitCall_wp {calls done rest : List (CommitCall st)} {c : CommitCall st}
    (hcalls : calls = done ++ c :: rest) (h : AfterCalls init done s) :
    wp handle.sem (fun _ => AtPoint init calls)
      (fun _ => AfterCalls init (done ++ [c])) c.prog s := by
  have hsub : wp handle.sem (fun _ t => t.manifests ⊆ t.written)
      (fun _ t => t.manifests ⊆ t.written) c.prog s := by
    refine wp_onlyOps (J := fun t : Disk => t.manifests ⊆ t.written) ?_
      (onlyOps_true _) h.subset
    rintro o t r t' - hsem ht
    have hmem := handle_manifests_subset (o := o) ht
    rwa [hsem] at hmem
  have hall := wp_and (commitDrained_wp c.stores c.deferStoreFsync h.boundary)
    (wp_and (commitCall_written c h.progress) hsub)
  refine wp_mono (fun r t ht => ?_) (wp_guard_mono (fun o t ht => ?_) hall)
  · obtain ⟨hc, hw, hm⟩ := ht
    cases r with
    | error e => exact hc.elim
    | ok u => exact ⟨hc.boundary, hm, by rw [hw, manifestsOf_append]⟩
  · refine ⟨ht.1, ht.2.2, ?_⟩
    rcases ht.2.1 with hw | hw
    · refine ⟨done.length, by rw [hcalls, length_append]; exact Nat.le_add_right .., ?_⟩
      rw [hw, hcalls, take_left]
    · refine ⟨(done ++ [c]).length, by rw [hcalls]; simp, ?_⟩
      have hsplit : calls = (done ++ [c]) ++ rest := by rw [hcalls, append_assoc]; rfl
      rw [hw, hsplit, take_left, manifestsOf_append]

variable {calls : List (CommitCall st)}

theorem AfterCalls.atPoint (h : AfterCalls init calls s) : AtPoint init calls s :=
  ⟨h.boundary.recoverable, h.subset, calls.length, Nat.le_refl _, by rw [take_length]; exact h.progress⟩

/-- A run: every point between two elementary operations, of any call. -/
theorem commitCalls_point (hinit : init.Fresh) {p : Prog DiskOp DiskOp.Res (List (Except CheckpointError Unit))}
    (hreach : Reach handle.sem (runAll prog calls, init) (p, s)) : AtPoint init calls s := by
  have hrun : wp handle.sem (fun _ => AtPoint init calls) (fun _ => AfterCalls init calls)
      (runAll prog calls) init := by
    refine wp_runAll (AfterCalls init) (fun done c rest hcalls t ht => commitCall_wp hcalls ht) ?_
    refine ⟨hinit.boundary, ?_, ?_⟩
    · rw [hinit.manifests]; exact nil_subset _
    · rw [hinit.written]; rfl
  have hp := wp_reach hrun hreach
  exact wp_point (wp_mono (fun _ t ht => ht.atPoint) hp)

/-! ## The target of a run -/

theorem manifestWrites_eq_flatMap (id : StoreId) (ms : List Manifest) :
    manifestWrites id ms = (ms.map (·.entries)).flatMap (entriesFor id) := by
  rw [manifestWrites, flatMap_map]

theorem manifestsOf_writes (id : StoreId) (calls : List (CommitCall st)) :
    (manifestsOf calls).flatMap (entriesFor id) = opsFor id (calls.flatMap (·.stores)) := by
  induction calls with
  | nil => rfl
  | cons c cs ih =>
    have hcons : manifestsOf (c :: cs) = manifestsOf [c] ++ manifestsOf cs := manifestsOf_append [c] cs
    rw [hcons, flatMap_append, ih, flatMap_cons, opsFor_append]
    congr 1
    cases hc : c.stores with
    | nil => simp [manifestsOf, hc, opsFor]
    | cons d ds =>
      have hone : manifestsOf [c] = [manifestEntries c.stores] := by simp [manifestsOf, hc]
      rw [hone, flatMap_singleton, entriesFor_manifestEntries, hc]

/-- The target is the state after the blocks whose manifests have been written. -/
theorem target_eq_stateAfter (h : s.written.map (·.entries) = manifestsOf calls) :
    init.origin.target s = stateAfter init.contents calls := by
  funext id
  rw [Reference.target, stateAfter, ← manifestsOf_writes, ← h, ← manifestWrites_eq_flatMap]
  rfl

/-- A value is the target's exactly if it is the newest one in a manifest. -/
theorem newestValues_iff (h : s.manifests ⊆ s.written) :
    (∀ id k v, lastWrite (manifestWrites id s.manifests) k = some v →
      v = init.origin.target s id k) ↔ NewestValues s := by
  refine forall₃_congr fun id k v => imp_congr_right fun hv => ?_
  obtain ⟨w, hw, rfl, -⟩ := Kv.exists_mem_of_lastWrite hv
  have hne : lastWrite (manifestWrites id s.written) w.key ≠ none := fun hnone => by
    obtain ⟨m, hm, he⟩ := mem_flatMap.1 hw
    exact Kv.lastWrite_eq_none.1 hnone w (mem_flatMap.2 ⟨m, h hm, he⟩) rfl
  obtain ⟨u, hu⟩ := Option.ne_none_iff_exists'.1 hne
  have htarget : init.origin.target s id w.key = u := by
    have happly := Kv.applyAll_apply (manifestWrites id s.written) (init.contents id) w.key
    rw [hu] at happly
    exact happly
  rw [htarget, hu, Option.some.injEq]
  exact eq_comm

/-- **Commits across a crash.**  Between any two elementary operations of a run of `commit_drained` calls, in any mix of
modes: the manifests written so far are those of the first `n` blocks, and whatever a crash loses, recovery returns
with every store after block `n` if and only if no manifest on disk replays a value that a later manifest, deleted
already, has overwritten. -/
theorem commit_recovers_iff {init : Disk} (hinit : init.Fresh) (calls : List (CommitCall st))
    {p : Prog DiskOp DiskOp.Res (List (Except CheckpointError Unit))}
    (hreach : Reach handle.sem (runAll prog calls, init) (p, s)) :
    ∃ n ≤ calls.length, s.written.map (·.entries) = manifestsOf (calls.take n) ∧ ∀ s', s.Crash s' →
        (RecoversTo st s' (stateAfter init.contents (calls.take n)) ↔ NewestValues s) := by
  obtain ⟨hr, hsub, n, hn, hw⟩ := commitCalls_point hinit hreach
  refine ⟨n, hn, hw, fun s' hc => ?_⟩
  rw [← target_eq_stateAfter hw, recovered_iff hr (fun _ => Nat.zero_le _) hc]
  exact newestValues_iff hsub

/-! ## The order in which manifests are deleted -/

/-- A crash that loses nothing. -/
def Disk.reopened (s : Disk) : Disk :=
  { s with
    stores := fun id => .ofMap (s.contents id)
    undo := .ofMap s.undo.contents }

theorem Disk.crash_reopened (s : Disk) : s.Crash s.reopened :=
  ⟨fun id => ⟨_, (s.stores id).survives_contents, rfl⟩, ⟨_, s.undo.survives_contents, rfl⟩, rfl⟩

theorem emptyDisk_fresh : emptyDisk.Fresh :=
  ⟨fun _ k => Kv.Durable.not_unsynced_ofMap _ k, rfl, rfl⟩

def putAccount (v : Bytes) : List (DrainedStore allAttached) := [⟨.accounts, [⟨[0], some v⟩], attached_all _⟩]

/-- A deferred block and, after it, a block that overwrites the account and is not deferred. -/
def overwriteCalls : List (CommitCall allAttached) := [⟨putAccount [1], true⟩, ⟨putAccount [2], false⟩]

/-- The second commit has deleted its own manifest, but not yet the first block's. -/
def overwritePoint : Prog DiskOp DiskOp.Res (List (Except CheckpointError Unit)) × Disk :=
  steps handle 6 (runAll prog overwriteCalls, emptyDisk)

theorem commit_recovers_iff_overwrite :
    ∃ n ≤ overwriteCalls.length,
      overwritePoint.2.written.map (·.entries) = manifestsOf (overwriteCalls.take n) ∧
      ∀ s', overwritePoint.2.Crash s' →
        (RecoversTo allAttached s' (stateAfter emptyDisk.contents (overwriteCalls.take n)) ↔
          NewestValues overwritePoint.2) :=
  commit_recovers_iff emptyDisk_fresh overwriteCalls (reach_steps handle 6 _)

/-- **A commit that is not deferred deletes its own manifest first.** A crash before the older
manifest is deleted loses nothing, and yet recovery puts the first block's value back over the
second's, although the manifests of both blocks had been written. -/
theorem own_manifest_first :
    Reach handle.sem (runAll prog overwriteCalls, emptyDisk)
      overwritePoint ∧
    overwritePoint.2.Crash overwritePoint.2.reopened ∧
    overwritePoint.2.written.map (·.entries) = manifestsOf overwriteCalls ∧
    stateAfter emptyDisk.contents overwriteCalls .accounts [0] = some [2] ∧
    (recover allAttached overwritePoint.2.reopened).2.contents .accounts [0] = some [1] ∧
    ¬RecoversTo allAttached overwritePoint.2.reopened
      (stateAfter emptyDisk.contents overwriteCalls) := by
  have hstale : (recover allAttached overwritePoint.2.reopened).2.contents .accounts [0] = some [1] := by decide
  refine ⟨reach_steps _ 6 _, crash_reopened _, by decide, by decide, hstale, ?_⟩
  rintro ⟨-, hcon⟩
  rw [hcon .accounts] at hstale
  exact absurd hstale (by decide)

end TronGoblin
