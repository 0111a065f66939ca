import TronGoblin.Executor.Commit

/-!
# What a commit keeps at every step

The crash invariant of the commit path.  A `Reference` is a point of a run from which contents are
counted: the contents there, how many manifests had been written, and how far each store's log must
be durable for the point itself to survive.

* `Recoverable`: every key written by a call that a crash may lose, and every key whose store does
  not yet hold the target value, is mentioned by a manifest on disk.
* `Boundary`: between two calls the stores also hold the target, and the manifests on disk are the
  newest ones written.
* `commitDrained_wp`: **every point of `commit_drained` is `Recoverable`, and it ends at a boundary.**
-/

namespace TronGoblin

open List Disk Prog Function Kv
open Kv (applyAll lastWrite)

variable {st : StateBackends} {s s' : Disk}

/-! ## The writes of manifests and drained stores -/

def entriesFor (id : StoreId) (es : List CheckpointEntry) : List WriteOp :=
  es.filterMap fun e => if e.dbName = id.dbName then some ⟨e.key, e.value⟩ else none

def opsFor (id : StoreId) (stores : List (DrainedStore st)) : List WriteOp :=
  stores.flatMap fun d => if d.id = id then d.ops else []

/-- The writes that a list of manifests makes to one store. -/
def manifestWrites (id : StoreId) (ms : List Manifest) : List WriteOp :=
  ms.flatMap fun m => entriesFor id m.entries

section

variable (id : StoreId)
include id

theorem entriesFor_append (es es' : List CheckpointEntry) :
    entriesFor id (es ++ es') = entriesFor id es ++ entriesFor id es' := filterMap_append

theorem manifestWrites_append (ms ms' : List Manifest) :
    manifestWrites id (ms ++ ms') = manifestWrites id ms ++ manifestWrites id ms' :=
  flatMap_append

theorem manifestWrites_singleton (m : Manifest) :
    manifestWrites id [m] = entriesFor id m.entries := flatMap_singleton ..

theorem opsFor_append (ds ds' : List (DrainedStore st)) :
    opsFor id (ds ++ ds') = opsFor id ds ++ opsFor id ds' := flatMap_append

theorem opsFor_singleton (d : DrainedStore st) :
    opsFor id [d] = if d.id = id then d.ops else [] := flatMap_singleton ..

theorem entriesFor_manifestEntries (stores : List (DrainedStore st)) :
    entriesFor id (manifestEntries stores) = opsFor id stores := by
  induction stores with
  | nil => rfl
  | cons d ds ih =>
    have hcons : manifestEntries (d :: ds) =
        (d.ops.map fun w => ⟨d.id.dbName, w.key, w.value⟩) ++ manifestEntries ds := rfl
    have hops : opsFor id (d :: ds) = (if d.id = id then d.ops else []) ++ opsFor id ds := rfl
    rw [hcons, entriesFor_append, ih, hops]
    congr 1
    simp only [entriesFor, filterMap_map, comp_def]
    by_cases h : d.id = id
    · simp [h]
    · have hne : d.id.dbName ≠ id.dbName := fun hn => h (StoreId.dbName_injective hn)
      simp [h, hne]

end

/-- Every entry names an attached store. -/
def Routed (st : StateBackends) (es : List CheckpointEntry) : Prop :=
  ∀ e ∈ es, ∃ id, st.attached id = true ∧ e.dbName = id.dbName

theorem manifestEntries_routed (stores : List (DrainedStore st)) : Routed st (manifestEntries stores) := by
  intro e h
  obtain ⟨d, _, he⟩ := mem_flatMap.1 h
  obtain ⟨w, _, rfl⟩ := mem_map.1 he
  exact ⟨d.id, d.attached, rfl⟩

variable {id : StoreId}

theorem entriesFor_eq_nil (hid : st.attached id = false) {es : List CheckpointEntry} (h : Routed st es) :
    entriesFor id es = [] := by
  rw [entriesFor, filterMap_eq_nil_iff]
  intro e he
  obtain ⟨id', hid', hname⟩ := h e he
  rw [if_neg]
  intro hn
  rw [StoreId.dbName_injective (hname.symm.trans hn), hid] at hid'
  cases hid'

/-! ## The invariant -/

/-- A point of a run from which contents are counted. -/
structure Reference where
  contents : StoreId → Contents
  /-- How many manifests had been written. -/
  written : Nat
  /-- How much of each store's log has to be durable for the point itself to survive. -/
  marks : StoreId → Nat

/-- The contents the stores are to have: the reference and every manifest written since. -/
def Reference.target (a : Reference) (s : Disk) (id : StoreId) : Contents :=
  applyAll (manifestWrites id (s.written.drop a.written)) (a.contents id)

structure Recoverable (st : StateBackends) (a : Reference) (s : Disk) : Prop where
  written_le : a.written ≤ s.written.length
  ids : s.manifests.Pairwise fun m m' => m.id < m'.id
  ids_le : ∀ m ∈ s.manifests, m.id ≤ s.lastId
  routed : ∀ m ∈ s.manifests, Routed st m.entries
  covered : ∀ id k, a.marks id ≤ (s.stores id).mark → (s.stores id).Unsynced k →
    lastWrite (manifestWrites id s.manifests) k ≠ none
  settled : ∀ id k, lastWrite (manifestWrites id s.manifests) k = none → s.contents id k = a.target s id k

def Flushed (a : Reference) (s : Disk) : Prop := ∀ id, s.contents id = a.target s id

/-- Between two calls. -/
structure Boundary (st : StateBackends) (a : Reference) (s : Disk) : Prop where
  recoverable : Recoverable st a s
  flushed : Flushed a s
  newest : s.manifests <:+ s.written

variable {a : Reference}

theorem target_congr (h : s'.written = s.written) (id : StoreId) : a.target s' id = a.target s id := by
  rw [Reference.target, Reference.target, h]

theorem target_addManifest (h : a.written ≤ s.written.length) (entries : List CheckpointEntry) (id : StoreId) :
    a.target (s.addManifest entries) id = applyAll (entriesFor id entries) (a.target s id) := by
  simp only [Reference.target, addManifest, drop_append_of_le_length h,
    manifestWrites_append, manifestWrites_singleton, applyAll_append]
  rfl

theorem uniqueMs_gt (s : Disk) : s.lastId < s.uniqueMs :=
  Nat.lt_of_lt_of_le (Nat.lt_succ_self _) (Nat.le_max_right _ _)

/-! ## One operation -/

theorem addManifest_recoverable (h : Recoverable st a s) {entries : List CheckpointEntry}
    (hr : Routed st entries) : Recoverable st a (s.addManifest entries) where
  written_le := by
    have := h.written_le
    simp only [addManifest, length_append]
    omega
  ids := by
    refine pairwise_append.2 ⟨h.ids, pairwise_singleton .., fun m hm m' hm' => ?_⟩
    rw [mem_singleton.1 hm']
    exact Nat.lt_of_le_of_lt (h.ids_le m hm) (uniqueMs_gt s)
  ids_le := by
    intro m hm
    rcases mem_append.1 hm with hm | hm
    · exact Nat.le_of_lt (Nat.lt_of_le_of_lt (h.ids_le m hm) (uniqueMs_gt s))
    · rw [mem_singleton.1 hm]; exact Nat.le_refl _
  routed := by
    intro m hm
    rcases mem_append.1 hm with hm | hm
    · exact h.routed m hm
    · rw [mem_singleton.1 hm]; exact hr
  covered := by
    intro id k hmark hk
    have hold := h.covered id k hmark hk
    simp only [addManifest, manifestWrites_append, lastWrite_append]
    intro hnone
    exact hold (Option.or_eq_none_iff.1 hnone).2
  settled := by
    intro id k hnone
    simp only [addManifest, manifestWrites_append, manifestWrites_singleton, lastWrite_append] at hnone
    obtain ⟨hnew, hold⟩ := Option.or_eq_none_iff.1 hnone
    rw [target_addManifest h.written_le, applyAll_apply]
    have hnew : lastWrite (entriesFor id entries) k = none := hnew
    rw [hnew]
    exact h.settled id k hold

variable {d : Durable Bytes Bytes}

/-- A store changes, but only keys of manifests on disk, and nothing un-synced escapes them. -/
theorem setStore_recoverable (h : Recoverable st a s)
    (hcov : ∀ k, a.marks id ≤ d.mark → d.Unsynced k → lastWrite (manifestWrites id s.manifests) k ≠ none)
    (hcon : ∀ k, lastWrite (manifestWrites id s.manifests) k = none → d.contents k = s.contents id k) :
    Recoverable st a (s.setStore id d) where
  written_le := h.written_le
  ids := h.ids
  ids_le := h.ids_le
  routed := h.routed
  covered := by
    intro id' k
    by_cases hid : id' = id
    · subst hid
      simp only [setStore, update_self]
      exact hcov k
    · simp only [setStore, update_of_ne hid]
      exact h.covered id' k
  settled := by
    intro id' k hnone
    by_cases hid : id' = id
    · subst hid
      simp only [contents, setStore, update_self]
      exact (hcon k hnone).trans (h.settled id' k hnone)
    · simp only [contents, setStore, update_of_ne hid]
      exact h.settled id' k hnone

variable {ops : List WriteOp} {sync : Bool}

/-- A batch that is not synced leaves the mark; one that is leaves nothing un-synced. -/
theorem unsynced_batch {k : Bytes} (h : (batch d ops sync).Unsynced k) :
    (batch d ops sync).mark = d.mark ∧ (d.Unsynced k ∨ ∃ w ∈ ops, w.key = k) := by
  unfold batch at h ⊢
  split_ifs at h ⊢
  · exact ⟨rfl, .inl h⟩
  · exact absurd h (Durable.not_unsynced_sync _ _)
  · exact ⟨rfl, Durable.unsynced_append.1 h⟩

theorem contents_batch (d : Durable Bytes Bytes) (ops : List WriteOp) (sync : Bool) :
    (batch d ops sync).contents = applyAll ops d.contents := by
  unfold batch
  split
  · rename_i h
    rw [isEmpty_iff.1 h]; rfl
  · split
    · rw [Durable.contents_sync, Durable.contents_append]
    · rw [Durable.contents_append]

theorem contents_setStore {s : Disk} (id id' : StoreId) (d : Durable Bytes Bytes) :
    (s.setStore id d).contents id' = if id' = id then d.contents else s.contents id' := by
  by_cases h : id' = id
  · subst h; simp [contents, setStore]
  · simp [contents, setStore, h]

theorem contents_writeBatch (s : Disk) (id id' : StoreId) (ops : List WriteOp) (sync : Bool) :
    (s.setStore id (batch (s.stores id) ops sync)).contents id' =
      applyAll (if id = id' then ops else []) (s.contents id') := by
  rw [contents_setStore]
  by_cases hid : id = id'
  · subst hid
    rw [if_pos rfl, if_pos rfl, contents_batch]; rfl
  · rw [if_neg hid, if_neg (Ne.symm hid)]; rfl

theorem contents_syncStore (s : Disk) (id id' : StoreId) :
    (s.setStore id (s.stores id).sync).contents id' = s.contents id' := by
  rw [contents_setStore]
  split
  · rename_i hid
    rw [hid]; rfl
  · rfl


theorem batch_recoverable (h : Recoverable st a s) (sync : Bool)
    (hops : ∀ w ∈ ops, lastWrite (manifestWrites id s.manifests) w.key ≠ none) :
    Recoverable st a (s.setStore id (batch (s.stores id) ops sync)) := by
  refine setStore_recoverable h (fun k hmark hk => ?_) fun k hnone => ?_
  · obtain ⟨hsame, hold | ⟨w, hw, rfl⟩⟩ := unsynced_batch hk
    · exact h.covered id k (hsame ▸ hmark) hold
    · exact hops w hw
  · rw [contents_batch]
    refine applyAll_of_not_mem (fun w hw hwk => ?_) _
    subst hwk
    exact hops w hw hnone

theorem syncWal_recoverable (h : Recoverable st a s) (id : StoreId) :
    Recoverable st a (s.setStore id (s.stores id).sync) :=
  setStore_recoverable h (fun _ _ hk => absurd hk (Durable.not_unsynced_sync _ _)) fun _ _ => rfl

/-- Nothing that a crash may lose matters to the reference. -/
def AllSynced (a : Reference) (s : Disk) : Prop :=
  ∀ id k, a.marks id ≤ (s.stores id).mark → ¬(s.stores id).Unsynced k

/-- With the target flushed and synced, any manifest may go. -/
theorem dropManifest_recoverable (h : Recoverable st a s) (hf : Flushed a s) (id : Nat)
    (hs : ∀ id' k, a.marks id' ≤ (s.stores id').mark → (s.stores id').Unsynced k →
      lastWrite (manifestWrites id' (s.dropManifest id).manifests) k ≠ none) :
    Recoverable st a (s.dropManifest id) where
  written_le := h.written_le
  ids := h.ids.filter _
  ids_le := fun m hm => h.ids_le m (mem_filter.1 hm).1
  routed := fun m hm => h.routed m (mem_filter.1 hm).1
  covered := hs
  settled := fun id' k _ => congrFun (hf id') k

/-- Every store is either attached and synced, or not attached and never written. -/
theorem allSynced_of_attached (h : Recoverable st a s)
    (hs : ∀ id, st.attached id = true → ∀ k, ¬(s.stores id).Unsynced k) : AllSynced a s := by
  intro id k hmark hk
  cases hid : st.attached id with
  | true => exact hs id hid k hk
  | false =>
    refine h.covered id k hmark hk ?_
    have hnil : manifestWrites id s.manifests = [] := by
      rw [manifestWrites, flatMap_eq_nil_iff]
      exact fun m hm => entriesFor_eq_nil hid (h.routed m hm)
    rw [hnil, lastWrite_nil]

theorem flushStateWals_onlyOps {P : DiskOp → Prop} (hsync : ∀ id, P (.syncWal id))
    (hlist : P .listManifests) (hdel : ∀ id, P (.deleteManifest id)) :
    OnlyOps P (flushStateWalsAndClearCheckpoints st) := by
  refine onlyOps_bindE (onlyOps_forM fun id _ => ⟨hsync id, fun r => trivial⟩) fun _ => ?_
  refine onlyOps_bindE ⟨hlist, fun r => trivial⟩ fun ids => ?_
  exact onlyOps_forM fun id _ => ⟨hdel id, fun r => trivial⟩

variable {stores : List (DrainedStore st)}

theorem flushDrained_onlyOps {P : DiskOp → Prop} {defer : Bool} {checkpointId : Nat}
    (hbatch : ∀ d ∈ stores, ∀ sync, P (.writeBatch d.id d.ops sync)) (hsync : ∀ id, P (.syncWal id))
    (hlist : P .listManifests) (hdel : ∀ id, P (.deleteManifest id)) :
    OnlyOps P (flushDrained st stores defer checkpointId) := by
  have hflush := @flushStateWals_onlyOps st P hsync hlist hdel
  refine onlyOps_bindE (onlyOps_forM fun d hd => ⟨hbatch d hd _, fun r => trivial⟩) fun _ => ?_
  split
  · refine onlyOps_bindE ⟨hlist, fun r => trivial⟩ fun ids => ?_
    split
    · exact hflush
    · trivial
  · refine onlyOps_bindE ⟨hdel _, fun r => trivial⟩ fun _ => ?_
    refine onlyOps_bindE ⟨hlist, fun r => trivial⟩ fun ids => ?_
    split
    · trivial
    · exact hflush

/-! ## The durability barrier -/

/-- The crash invariant as the guard of every operation. -/
abbrev guard (st : StateBackends) (a : Reference) : DiskOp → Disk → Prop :=
  fun _ s => Recoverable st a s

/-- What a barrier or a commit leaves alone. -/
structure Kept (s s' : Disk) : Prop where
  written : s'.written = s.written
  lastId : s'.lastId = s.lastId
  undo : s'.undo = s.undo

theorem Kept.trans {s'' : Disk} (h : Kept s s') (h' : Kept s' s'') : Kept s s'' :=
  ⟨h'.written.trans h.written, h'.lastId.trans h.lastId, h'.undo.trans h.undo⟩

theorem Flushed.congr (h : Flushed a s) (hc : ∀ id, s'.contents id = s.contents id)
    (hw : s'.written = s.written) : Flushed a s' := fun id => by
  rw [hc, h id, target_congr hw]

/-- An operation that cannot fail, followed by the rest of the program. -/
theorem wp_diskOp {ε β : Type} {G : DiskOp → Disk → Prop} (o : DiskOp) (f : o.Res → DiskM ε β)
    (Q : Except ε β → Disk → Prop) (s : Disk) :
    wp handle.sem G Q (diskOp o >>= f : DiskM ε β) s ↔ G o s ∧ wp handle.sem G Q (f (handle o s).1) (handle o s).2 :=
  (wp_bindE _ _ _ s).trans (wp_handler _ _ s)

theorem wp_deleteManifest {β : Type} {G : DiskOp → Disk → Prop} {id : Nat} (h : ∃ m ∈ s.manifests, m.id = id)
    (f : Unit → DiskM CheckpointError β) (Q : Except CheckpointError β → Disk → Prop) :
    wp handle.sem G Q (deleteManifest id >>= f : DiskM CheckpointError β) s ↔
      G (.deleteManifest id) s ∧ wp handle.sem G Q (f ()) (s.dropManifest id) := by
  have hfound : (handle (.deleteManifest id) s).1 = true := by
    obtain ⟨m, hm, rfl⟩ := h
    exact any_eq_true.2 ⟨m, hm, decide_eq_true rfl⟩
  refine (wp_bindE _ _ _ s).trans ((wp_handler _ _ s).trans ?_)
  refine and_congr_right fun _ => ?_
  simp only [hfound, if_true]
  exact Iff.rfl

theorem syncAllStateWals_wp (h : Recoverable st a s) :
    wp handle.sem (guard st a)
      (post (fun _ s' => Recoverable st a s' ∧ Kept s s' ∧ s'.manifests = s.manifests ∧
        (∀ id, s'.contents id = s.contents id) ∧ AllSynced a s') fun _ _ => False)
      (syncAllStateWals st) s := by
  -- the stores visited so far are synced
  let J : List StoreId → Disk → Prop := fun done s' =>
    Recoverable st a s' ∧ Kept s s' ∧ s'.manifests = s.manifests ∧
      (∀ id, s'.contents id = s.contents id) ∧ ∀ id ∈ done, ∀ k, ¬(s'.stores id).Unsynced k
  refine wp_post (wp_forM (E := fun _ _ => False) J ?_ ⟨h, ⟨rfl, rfl, rfl⟩, rfl, fun _ => rfl, nofun⟩) nofun
    fun _ t ⟨hr, hk, hm, hc, hs⟩ => ?_
  · rintro done id rest - t ⟨hr, hk, hm, hc, hs⟩
    refine (wp_handler _ _ t).2 ⟨hr, syncWal_recoverable hr id, ⟨hk.written, hk.lastId, hk.undo⟩, hm, fun id' => ?_, ?_⟩
    · exact (contents_syncStore t id id').trans (hc id')
    · intro id' hmem k
      by_cases hid : id' = id
      · subst hid
        simp [handle, setStore]
      · simp only [handle, setStore, update_of_ne hid]
        rcases mem_append.1 hmem with hmem | hmem
        · exact hs id' hmem k
        · exact absurd (mem_singleton.1 hmem) hid
  · refine ⟨hr, hk, hm, hc, allSynced_of_attached hr fun id hid => hs id ?_⟩
    exact mem_filter.2 ⟨StoreId.mem_commitOrder id, hid⟩

theorem mem_listIds {id : Nat} : id ∈ s.listIds ↔ ∃ m ∈ s.manifests, m.id = id := by
  rw [listIds, mem_insertionSort, mem_map]

theorem manifests_eq_nil (h : s.listIds = []) : s.manifests = [] := by
  rw [eq_nil_iff_forall_not_mem]
  intro m hm
  have hid : m.id ∈ s.listIds := mem_listIds.2 ⟨m, hm, rfl⟩
  rw [h] at hid
  cases hid

/-- **The barrier** clears the checkpoint directory and keeps the target. -/
theorem flushStateWals_wp (h : Recoverable st a s) (hf : Flushed a s) :
    wp handle.sem (guard st a)
      (post (fun _ s' => Recoverable st a s' ∧ Kept s s' ∧
        (∀ id, s'.contents id = s.contents id) ∧ s'.manifests = []) fun _ _ => False)
      (flushStateWalsAndClearCheckpoints st) s := by
  refine wp_seq (syncAllStateWals_wp h) nofun fun _ t ⟨hr, hk, hm, hc, hs⟩ => ?_
  have hft : Flushed a t := hf.congr hc hk.written
  refine (wp_diskOp _ _ _ t).2 ⟨hr, ?_⟩
  -- the manifests deleted so far are gone, the stores are untouched
  let J : List Nat → Disk → Prop := fun done t' => Recoverable st a t' ∧ Kept t t' ∧
    t'.stores = t.stores ∧ t'.manifests = t.manifests.filter fun m => m.id ∉ done
  refine wp_post (wp_forM (E := fun _ _ => False) J ?_ ?_) nofun fun _ t' ⟨hr', hk', hst, hm'⟩ => ?_
  · rintro done id rest - t' ⟨hr', hk', hst, hm'⟩
    have hsync : AllSynced a t' := fun id' k => by rw [hst]; exact hs id' k
    have hft' : Flushed a t' := hft.congr (fun id' => by rw [contents, hst]; rfl) hk'.written
    refine (wp_diskOp _ _ _ t').2 ⟨hr', ?_⟩
    refine ⟨dropManifest_recoverable hr' hft' id fun id' k hmark hun => ?_,
      ⟨hk'.written, hk'.lastId, hk'.undo⟩, hst, ?_⟩
    · exact absurd hun (hsync id' k hmark)
    · show t'.manifests.filter _ = _
      rw [hm', filter_filter]
      refine filter_congr fun m _ => ?_
      simp [and_comm]
  · refine ⟨hr, ⟨rfl, rfl, rfl⟩, rfl, ?_⟩
    show t.manifests = _
    simp
  · refine ⟨hr', hk.trans hk', fun id => ?_, ?_⟩
    · rw [← hc id, contents, contents, hst]
    · rw [hm', filter_eq_nil_iff]
      intro m hmem
      show ¬decide (m.id ∉ t.listIds) = true
      simpa using mem_listIds.2 ⟨m, hmem, rfl⟩

/-! ## The commit -/

theorem lastWrite_of_mem_ops {d : DrainedStore st} (hd : d ∈ stores) {w : WriteOp} (hw : w ∈ d.ops) :
    lastWrite (opsFor d.id stores) w.key ≠ none := by
  intro hnone
  refine lastWrite_eq_none.1 hnone w (mem_flatMap.2 ⟨d, hd, ?_⟩) rfl
  rw [if_pos rfl]; exact hw

theorem covered_addManifest {d : DrainedStore st} (hd : d ∈ stores) {w : WriteOp} (hw : w ∈ d.ops) :
    lastWrite (manifestWrites d.id (s.addManifest (manifestEntries stores)).manifests) w.key ≠
      none := by
  intro hnone
  simp only [addManifest, manifestWrites_append, manifestWrites_singleton, newManifest,
    entriesFor_manifestEntries, lastWrite_append] at hnone
  exact lastWrite_of_mem_ops hd hw (Option.or_eq_none_iff.1 hnone).1

/-- After the per-store flush: every batch is in its store, and durable if it was synced. -/
structure Written (st : StateBackends) (a : Reference) (sync : Bool) (s₁ : Disk)
    (done : List (DrainedStore st)) (s' : Disk) : Prop where
  recoverable : Recoverable st a s'
  kept : Kept s₁ s'
  manifests : s'.manifests = s₁.manifests
  contents : ∀ id, s'.contents id = applyAll (opsFor id done) (s₁.contents id)
  synced : sync = true → ∀ id, opsFor id done ≠ [] → ∀ k, ¬(s'.stores id).Unsynced k

theorem not_unsynced_batch_sync (h : ops ≠ []) (k : Bytes) : ¬(batch d ops true).Unsynced k := by
  unfold batch
  rw [if_neg (by simpa [List.isEmpty_iff] using h), if_pos rfl]
  exact Durable.not_unsynced_sync _ k

theorem written_step {s₁ : Disk} {done : List (DrainedStore st)} {d : DrainedStore st}
    (h : Written st a sync s₁ done s')
    (hkeys : ∀ w ∈ d.ops, lastWrite (manifestWrites d.id s₁.manifests) w.key ≠ none) :
    Written st a sync s₁ (done ++ [d])
      (s'.setStore d.id (batch (s'.stores d.id) d.ops sync)) where
  recoverable := batch_recoverable h.recoverable sync (by rw [h.manifests]; exact hkeys)
  kept := ⟨h.kept.written, h.kept.lastId, h.kept.undo⟩
  manifests := h.manifests
  contents := by
    intro id
    rw [opsFor_append, applyAll_append, ← h.contents id, opsFor_singleton, contents_writeBatch]
  synced := by
    intro hsync id hne k
    subst hsync
    by_cases hid : id = d.id
    · subst hid
      simp only [setStore, update_self]
      by_cases hops : d.ops = []
      · -- an empty batch is a no-op, so an earlier batch did the sync
        rw [hops]
        refine h.synced rfl d.id (fun hnil => hne ?_) k
        rw [opsFor_append, hnil, opsFor_singleton, if_pos rfl, hops]; rfl
      · exact not_unsynced_batch_sync hops k
    · simp only [setStore, update_of_ne hid]
      refine h.synced rfl id (fun hnil => hne ?_) k
      rw [opsFor_append, hnil, opsFor_singleton, if_neg (Ne.symm hid)]; rfl

/-- The per-store flush of a block whose manifest is the newest on disk. -/
theorem flushStores_wp {s₁ : Disk} (sync : Bool) (h : Recoverable st a s₁)
    (hkeys : ∀ d ∈ stores, ∀ w ∈ d.ops, lastWrite (manifestWrites d.id s₁.manifests) w.key ≠ none) :
    wp handle.sem (guard st a)
      (post (fun _ s' => Written st a sync s₁ stores s') fun _ _ => False)
      (stores.forM fun d => writeBatch d.id d.ops sync : DiskM CheckpointError PUnit) s₁ := by
  refine wp_forM (fun done s' => Written st a sync s₁ done s') ?_ ?_
  · rintro done d rest hstores t ht
    refine (wp_handler _ _ t).2 ⟨ht.recoverable, ?_⟩
    refine written_step ht (hkeys d ?_)
    rw [hstores]; simp
  · exact ⟨h, ⟨rfl, rfl, rfl⟩, rfl, fun _ => rfl, fun _ _ hne => absurd rfl hne⟩

/-- The state a commit ends in. -/
structure Committed (st : StateBackends) (a : Reference) (stores : List (DrainedStore st)) (s s' : Disk) : Prop where
  boundary : Boundary st a s'
  contents : ∀ id, s'.contents id = applyAll (opsFor id stores) (s.contents id)
  undo : s'.undo = s.undo

theorem flushed_addManifest (hle : a.written ≤ s.written.length) (hf : Flushed a s)
    (hw : s'.written = (s.addManifest (manifestEntries stores)).written)
    (hc : ∀ id, s'.contents id = applyAll (opsFor id stores) (s.contents id)) : Flushed a s' := by
  intro id
  rw [hc id, hf id, target_congr hw, target_addManifest hle, entriesFor_manifestEntries]

theorem newest_addManifest {entries : List CheckpointEntry} (h : s.manifests <:+ s.written) :
    (s.addManifest entries).manifests <:+ (s.addManifest entries).written := by
  obtain ⟨old, hold⟩ := h
  refine ⟨old, ?_⟩
  show old ++ (s.manifests ++ _) = s.written ++ _
  rw [← append_assoc, hold]

/-- Own manifest gone, what is un-synced belongs to the older manifests. -/
theorem covered_of_drop_own {t : Disk} (h : Recoverable st a s)
    (ht : Written st a true (s.addManifest (manifestEntries stores)) stores t) :
    ∀ id k, a.marks id ≤ (t.stores id).mark → (t.stores id).Unsynced k →
      lastWrite (manifestWrites id (t.dropManifest s.uniqueMs).manifests) k ≠ none := by
  intro id k hmark hk
  have hnil : opsFor id stores = [] := by
    by_contra hne
    exact ht.synced rfl id hne k hk
  have hcov := ht.recoverable.covered id k hmark hk
  have hdrop : (t.dropManifest s.uniqueMs).manifests = s.manifests := by
    have hlt : ∀ m ∈ s.manifests, m.id ≠ s.uniqueMs := fun m hm =>
      Nat.ne_of_lt (Nat.lt_of_le_of_lt (h.ids_le m hm) (uniqueMs_gt s))
    simp only [dropManifest, ht.manifests, addManifest, filter_append]
    rw [filter_eq_self.2 (fun m hm => decide_eq_true (hlt m hm))]
    simp [newManifest]
  rw [hdrop]
  have hsplit : manifestWrites id t.manifests = manifestWrites id s.manifests := by
    rw [ht.manifests]
    simp [addManifest, manifestWrites_append, manifestWrites_singleton, newManifest, entriesFor_manifestEntries, hnil,
      append_nil]
  rwa [hsplit] at hcov

/-- **Every point of `commit_drained` is recoverable, it cannot fail when the stores do not, and it
ends at a boundary.** -/
theorem commitDrained_wp (stores : List (DrainedStore st)) (defer : Bool) (h : Boundary st a s) :
    wp handle.sem (guard st a)
      (post (fun _ s' => Committed st a stores s s') fun _ _ => False)
      (commitDrained st stores defer) s := by
  obtain ⟨hr, hf, hnew⟩ := h
  unfold commitDrained
  split
  · rename_i hempty
    have hnil := isEmpty_iff.1 hempty
    subst hnil
    exact ⟨⟨hr, hf, hnew⟩, fun _ => rfl, rfl⟩
  have hr₁ := addManifest_recoverable hr (manifestEntries_routed stores)
  refine (wp_diskOp _ _ _ s).2 ⟨hr, ?_⟩
  refine wp_seq (flushStores_wp (!defer) hr₁ fun d hd w hw => covered_addManifest hd hw) nofun fun _ t ht => ?_
  have hft : Flushed a t := flushed_addManifest hr.written_le hf ht.kept.written ht.contents
  have hbarrier : ∀ t', Recoverable st a t' → Kept t t' → (∀ id, t'.contents id = t.contents id) → t'.manifests = [] →
      Committed st a stores s t' := fun t' hr' hk hc hm =>
    ⟨⟨hr', hft.congr hc hk.written, by rw [hm]; exact nil_suffix⟩,
      fun id => (hc id).trans (ht.contents id), hk.undo.trans ht.kept.undo⟩
  cases defer with
  | true =>
    refine (wp_diskOp _ _ _ t).2 ⟨ht.recoverable, ?_⟩
    split
    · exact wp_post (flushStateWals_wp ht.recoverable hft) nofun fun _ t' ⟨hr', hk, hc, hm⟩ => hbarrier t' hr' hk hc hm
    · refine ⟨⟨ht.recoverable, hft, ?_⟩, ht.contents, ht.kept.undo⟩
      show t.manifests <:+ t.written
      rw [ht.manifests, ht.kept.written]
      exact newest_addManifest hnew
  | false =>
    have hcov := covered_of_drop_own hr ht
    have hrd := dropManifest_recoverable ht.recoverable hft s.uniqueMs hcov
    have hown : ∃ m ∈ t.manifests, m.id = s.uniqueMs := by
      rw [ht.manifests]
      exact ⟨_, mem_append_right _ (mem_singleton.2 rfl), rfl⟩
    refine (wp_deleteManifest hown _ _).2 ⟨ht.recoverable, (wp_diskOp _ _ _ _).2 ⟨hrd, ?_⟩⟩
    split
    · rename_i hempty
      exact hbarrier _ hrd ⟨rfl, rfl, rfl⟩ (fun _ => rfl)
        (manifests_eq_nil (isEmpty_iff.1 hempty))
    · have hfd : Flushed a (t.dropManifest s.uniqueMs) := hft.congr (fun _ => rfl) rfl
      refine wp_post (flushStateWals_wp hrd hfd) nofun fun _ t' ⟨hr', hk', hc', hm'⟩ => ?_
      exact hbarrier t' hr' ⟨hk'.written, hk'.lastId, hk'.undo⟩ hc' hm'

end TronGoblin
