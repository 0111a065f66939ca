import TronGoblin.Executor.BlockSession

/-!
# What recovery does

* `replayPendingCheckpoints_wp`: over any disk whose manifests name attached stores, recovery returns,
  the stores have every manifest applied in the order of their identifiers, and the checkpoint
  directory is empty.
* `recovered_iff`: after a crash of a recoverable point, recovery yields the target exactly when no
  value it replays is stale.
-/

namespace TronGoblin

open Prog List Disk

open Kv (applyAll lastWrite)

variable {st : StateBackends} {s s' : Disk}

/-! ## One manifest -/

theorem byName_dbName {id : StoreId} (h : st.attached id = true) : byName st id.dbName = some id := by
  unfold byName
  cases hf : StoreId.commitOrder.find? fun x => st.attached x && x.dbName == id.dbName with
  | none =>
    have hnot := find?_eq_none.1 hf id (StoreId.mem_commitOrder id)
    simp [h] at hnot
  | some x =>
    have hx := find?_some hf
    rw [Bool.and_eq_true, beq_iff_eq] at hx
    rw [StoreId.dbName_injective hx.2]

theorem entriesFor_singleton (id : StoreId) (e : CheckpointEntry) :
    entriesFor id [e] = if e.dbName = id.dbName then [⟨e.key, e.value⟩] else [] := by
  unfold entriesFor
  split <;> simp [*]

structure Replayed (s : Disk) (done : List CheckpointEntry) (s' : Disk) : Prop where
  manifests : s'.manifests = s.manifests
  undo : s'.undo = s.undo
  contents : ∀ id, s'.contents id = applyAll (entriesFor id done) (s.contents id)

theorem replayEntries_wp {id : Nat} {es : List CheckpointEntry} (h : Routed st es) :
    wp handle.sem (fun _ _ => True)
      (post (fun _ s' => Replayed s es s') fun _ _ => False)
      (es.forM (replayEntry st id) : DiskM CheckpointError PUnit) s := by
  refine wp_forM (Replayed s) ?_ ⟨rfl, rfl, fun _ => rfl⟩
  rintro done e rest hes t ⟨hm, hu, hc⟩
  obtain ⟨store, hatt, hname⟩ := h e (by rw [hes]; simp)
  rw [replayEntry, hname, byName_dbName hatt]
  refine (wp_handler _ _ t).2 ⟨trivial, hm, hu, fun id' => ?_⟩
  rw [entriesFor_append, Kv.applyAll_append, ← hc, entriesFor_singleton, hname]
  show (t.setStore store ((t.stores store).append _)).contents id' = _
  rw [contents_setStore]
  by_cases hid : id' = store
  · subst hid
    rw [if_pos rfl, if_pos rfl, Kv.Durable.contents_append]; rfl
  · have hne : store.dbName ≠ id'.dbName := fun hn => hid (StoreId.dbName_injective hn).symm
    rw [if_neg hid, if_neg hne]; rfl

/-! ## All manifests -/

/-- The disk that recovery expects: manifests in ascending order, naming attached stores only. -/
structure Replayable (st : StateBackends) (s : Disk) : Prop where
  ids : s.manifests.Pairwise fun m m' => m.id < m'.id
  routed : ∀ m ∈ s.manifests, Routed st m.entries

theorem listIds_eq (h : s.manifests.Pairwise fun m m' => m.id < m'.id) : s.listIds = s.manifests.map (·.id) :=
  (pairwise_map.2 (h.imp fun hlt => Nat.le_of_lt hlt)).insertionSort_eq

variable {ms : List Manifest} {m : Manifest}

/-- The oldest manifest is found under its identifier, and deleting it leaves the others. -/
theorem find_oldest (h : s.manifests = m :: ms) : (s.manifests.find? fun m' => m'.id = m.id) = some m := by
  rw [h]
  exact find?_cons_of_pos (decide_eq_true rfl)

theorem dropManifest_oldest (h : s.manifests = m :: ms) (hids : s.manifests.Pairwise fun m m' => m.id < m'.id) :
    (s.dropManifest m.id).manifests = ms := by
  rw [h] at hids
  show s.manifests.filter _ = ms
  rw [h, filter_cons_of_neg (by simp)]
  refine filter_eq_self.2 fun m' hm' => decide_eq_true ?_
  exact Nat.ne_of_gt ((pairwise_cons.1 hids).1 m' hm')

theorem replayManifest_wp (h : Replayable st s) (hm : s.manifests = m :: ms) :
    wp handle.sem (fun _ _ => True)
      (post (fun n s' => n = m.entries.length ∧ s'.manifests = ms ∧ s'.undo = s.undo ∧
        ∀ id, s'.contents id = applyAll (entriesFor id m.entries) (s.contents id)) fun _ _ => False)
      (replayManifest st m.id) s := by
  have hmem : m ∈ s.manifests := by rw [hm]; simp
  refine (wp_bindE _ _ _ s).2 ((wp_handler _ _ s).2 ⟨trivial, ?_⟩)
  have hread : (handle (.readManifest m.id) s).1 = some m.entries := by
    show Option.map _ (s.manifests.find? _) = _
    rw [find_oldest hm]; rfl
  simp only [hread]
  refine wp_seq (replayEntries_wp (h.routed m hmem)) (fun _ _ he => he) fun u t ht => ?_
  obtain ⟨hmt, hu, hc⟩ := ht
  have hfound : ∃ m' ∈ t.manifests, m'.id = m.id := ⟨m, by rw [hmt]; exact hmem, rfl⟩
  have hms : (t.dropManifest m.id).manifests = ms :=
    dropManifest_oldest (hmt.trans hm) (by rw [hmt]; exact h.ids)
  refine (wp_deleteManifest (G := fun _ _ => True) hfound (fun _ => pure m.entries.length) _).2 ⟨trivial, ?_⟩
  exact ⟨rfl, hms, hu, hc⟩

theorem replayManifests_wp (h : Replayable st s) (hm : s.manifests = ms) :
    wp handle.sem (fun _ _ => True)
      (post (fun n s' => n = (ms.length, (ms.flatMap (·.entries)).length) ∧ s'.manifests = [] ∧
        s'.undo = s.undo ∧ ∀ id, s'.contents id = applyAll (manifestWrites id ms) (s.contents id))
        fun _ _ => False)
      (replayManifests st (ms.map (·.id))) s := by
  induction ms generalizing s with
  | nil => exact ⟨rfl, hm, rfl, fun _ => rfl⟩
  | cons m ms ih =>
    refine wp_seq (replayManifest_wp h hm) (fun _ _ he => he) fun n t ht => ?_
    obtain ⟨rfl, hmt, hut, hct⟩ := ht
    have htail : ∀ m' ∈ ms, m' ∈ s.manifests := fun m' hm' => by
      rw [hm]; exact mem_cons_of_mem _ hm'
    have hids := h.ids
    rw [hm] at hids
    have hrt : Replayable st t :=
      ⟨by rw [hmt]; exact hids.of_cons, fun m' hm' => h.routed m' (htail m' (hmt ▸ hm'))⟩
    refine wp_seq (ih hrt hmt) (fun _ _ he => he) fun total t' ht' => ?_
    obtain ⟨rfl, hmt', hut', hct'⟩ := ht'
    refine ⟨?_, hmt', hut'.trans hut, fun id => ?_⟩
    · simp [Nat.add_comm]
    · have hcons : manifestWrites id (m :: ms) = entriesFor id m.entries ++ manifestWrites id ms := rfl
      rw [hct' id, hct id, hcons, Kv.applyAll_append]

/-- **Recovery applies every manifest, oldest first, and clears the directory.** -/
theorem replayPendingCheckpoints_wp (h : Replayable st s) :
    wp handle.sem (fun _ _ => True)
      (post (fun n s' =>
        n = (s.manifests.length, (s.manifests.flatMap (·.entries)).length) ∧ s'.manifests = [] ∧
        s'.undo = s.undo ∧
        ∀ id, s'.contents id = applyAll (manifestWrites id s.manifests) (s.contents id))
        fun _ _ => False)
      (replayPendingCheckpoints st) s := by
  refine (wp_diskOp _ _ _ s).2 ⟨trivial, ?_⟩
  have hlist : (handle .listManifests s).1 = s.manifests.map (·.id) := listIds_eq h.ids
  rw [hlist]
  exact replayManifests_wp h rfl

/-! ## Recovery after a crash -/

def recover (st : StateBackends) (s : Disk) : Except CheckpointError (Nat × Nat) × Disk :=
  exec handle (replayPendingCheckpoints st) s

/-- Recovery returns without an error and leaves these contents in the stores. -/
def RecoversTo (st : StateBackends) (s : Disk) (contents : StoreId → Contents) : Prop :=
  (∃ n, (recover st s).1 = .ok n) ∧ ∀ id, (recover st s).2.contents id = contents id

theorem recover_spec (h : Replayable st s) :
    (∃ n, (recover st s).1 = .ok n) ∧ (recover st s).2.undo = s.undo ∧
      ∀ id, (recover st s).2.contents id = applyAll (manifestWrites id s.manifests) (s.contents id) := by
  obtain ⟨n, hok, -, -, hundo, hcon⟩ := exec_ok (replayPendingCheckpoints_wp h)
  exact ⟨⟨n, hok⟩, hundo, hcon⟩

variable {a : Reference}

theorem replayable_of_crash (h : Recoverable st a s) (hc : s.Crash s') : Replayable st s' :=
  ⟨by rw [hc.manifests]; exact h.ids, by rw [hc.manifests]; exact h.routed⟩

/-- **Recovery of a recoverable point.** Whatever the crash loses, recovery yields the target if and
only if each value that it replays is the target's. -/
theorem recovered_iff (h : Recoverable st a s) (hmark : ∀ id, a.marks id ≤ (s.stores id).mark) (hc : s.Crash s') :
    RecoversTo st s' (a.target s) ↔
      ∀ id k v, lastWrite (manifestWrites id s.manifests) k = some v → v = a.target s id k := by
  obtain ⟨hok, -, hcon⟩ := recover_spec (replayable_of_crash h hc)
  rw [hc.manifests] at hcon
  refine ⟨fun hr id k v hv => ?_, fun hv => ⟨hok, fun id => ?_⟩⟩
  · rw [← hr.2 id, hcon id, Kv.applyAll_apply, hv, Option.getD_some]
  · rw [hcon id]
    refine Kv.applyAll_covering (hv id) fun k hk => ?_
    -- a key of no manifest survived the crash with the target's value
    obtain ⟨m, hm, hs⟩ := hc.stores id
    rw [← h.settled id k hk, contents, hs]
    refine Kv.Durable.survives_of_untouched hm fun hun => ?_
    exact h.covered id k (hmark id) hun hk

/-- The newest manifests written since the reference only replay values of the target. -/
theorem replays_target (h : s.manifests <:+ s.written.drop a.written) (id : StoreId) (k : Bytes) (v : Option Bytes)
    (hv : lastWrite (manifestWrites id s.manifests) k = some v) : v = a.target s id k := by
  obtain ⟨old, hold⟩ := h
  rw [Reference.target, ← hold, manifestWrites_append, Kv.applyAll_apply, Kv.lastWrite_append, hv]
  rfl

end TronGoblin
