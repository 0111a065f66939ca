import TronGoblin.Chainbase.Session
import TronGoblin.Executor.CommitInv

/-!
# Block sessions

Model of `BlockSession` (`tron-executor/src/lib.rs`): one session per attached store, opened over
the stores a block is executed against and drained when the block is done.

* `drainBlockSession`: the write-set of a block and its undo record, from one pass over the stores.
* `commitWithUndo`: the same without a checkpoint: each store's session is committed by itself.
* `record_drain`: **the undo record lists, for every drained write, the value its key had before the
  block.**
-/

namespace TronGoblin

open List
open Kv (applyAll)

/-- The sessions of a block; those of stores that are not attached stay empty. -/
abbrev BlockSession := StoreId → SessionBackend

/-- A write of a block to one of the attached stores. -/
structure BlockWrite (st : StateBackends) where
  id : StoreId
  op : WriteOp
  attached : st.attached id = true

variable {st : StateBackends}

namespace BlockSession

/-- `BlockSession::wrap`: an empty session over every store. -/
def wrap : BlockSession := fun _ => .new

/-- A put or delete through the block's session. -/
def write (session : BlockSession) (w : BlockWrite st) : BlockSession :=
  Function.update session w.id ((session w.id).write w.op)

/-- The session after a block's puts and deletes. -/
def ofWrites (ws : List (BlockWrite st)) : BlockSession := ws.foldl write wrap

end BlockSession

/-- The before and after values of one key of a block. -/
structure CapturedDelta where
  store : StoreId
  key : Bytes
  before : Option Bytes
  after : Option Bytes
  deriving DecidableEq

/-- The order in which deltas are reported: by store, then by key. -/
def CapturedDelta.le (a b : CapturedDelta) : Bool :=
  a.store.ctorIdx < b.store.ctorIdx || (a.store.ctorIdx == b.store.ctorIdx && a.key ≤ b.key)

/-- A block's write-set, ready to commit. -/
structure DrainedBlock (st : StateBackends) where
  stores : List (DrainedStore st)
  record : BlockUndoRecord
  deltas : Option (List CapturedDelta)

open DrainedBlock

def captureDeltas (id : StoreId) (drained : List WriteOp × List (Bytes × Option Bytes)) : List CapturedDelta :=
  (drained.1.zip drained.2).map fun p => ⟨id, p.1.key, p.2.2, p.1.value⟩

def undoEntries (id : StoreId) (undo : List (Bytes × Option Bytes)) : BlockUndoRecord :=
  undo.map fun p => ⟨id, p.1, p.2⟩

/-- Add the drain of one store, unless the block did not write to it. -/
def DrainedBlock.push (acc : DrainedBlock st) (id : StoreId) (h : st.attached id = true)
    (drained : List WriteOp × List (Bytes × Option Bytes)) : DrainedBlock st :=
  if drained.1.isEmpty then acc
  else
    { stores := acc.stores ++ [⟨id, drained.1, h⟩]
      record := acc.record ++ undoEntries id drained.2
      deltas := acc.deltas.map (· ++ captureDeltas id drained) }

/-- Drain one store, if it is attached. -/
def DrainedBlock.take (order : StoreId → HashOrder) (parent : StoreId → Contents)
    (session : BlockSession) (acc : DrainedBlock st) (id : StoreId) : DrainedBlock st :=
  if h : st.attached id = true then
    acc.push id h ((session id).drainPendingWithUndo (order id) (parent id))
  else acc

def DrainedBlock.empty (capture : Bool) : DrainedBlock st :=
  ⟨[], [], if capture then some [] else none⟩

def DrainedBlock.sortDeltas (d : DrainedBlock st) : DrainedBlock st :=
  { d with deltas := d.deltas.map (·.insertionSort fun a b => CapturedDelta.le a b = true) }

/-- Drain every session; `parent` is what the sessions were opened over. -/
def drainBlockSession (st : StateBackends) (order : StoreId → HashOrder)
    (parent : StoreId → Contents) (session : BlockSession) (capture : Bool) : DrainedBlock st :=
  (StoreId.commitOrder.foldl (take order parent session) (.empty capture)).sortDeltas

/-- The undo record of a write-set: the value each key had in `parent`. -/
def undoRecord (parent : StoreId → Contents) (stores : List (DrainedStore st)) : BlockUndoRecord :=
  stores.flatMap fun d => d.ops.map fun w => ⟨d.id, w.key, parent d.id w.key⟩

theorem undoRecord_append (parent : StoreId → Contents) (ds ds' : List (DrainedStore st)) :
    undoRecord parent (ds ++ ds') = undoRecord parent ds ++ undoRecord parent ds' :=
  flatMap_append

variable {order : StoreId → HashOrder} {session : BlockSession} {acc : DrainedBlock st}

theorem record_take {parent : StoreId → Contents} (h : acc.record = undoRecord parent acc.stores) (id : StoreId) :
    (acc.take order parent session id).record = undoRecord parent (acc.take order parent session id).stores := by
  unfold DrainedBlock.take
  split
  · unfold push
    split
    · exact h
    · dsimp only
      rw [undoRecord_append, ← h]
      congr 1
      simp [undoEntries, undoRecord, SessionBackend.drainPendingWithUndo]
  · exact h

theorem record_drain (order : StoreId → HashOrder) (parent : StoreId → Contents)
    (session : BlockSession) (capture : Bool) :
    (drainBlockSession st order parent session capture).record =
      undoRecord parent (drainBlockSession st order parent session capture).stores := by
  suffices ∀ (ids : List StoreId) (acc : DrainedBlock st), acc.record = undoRecord parent acc.stores →
        (ids.foldl (take order parent session) acc).record =
          undoRecord parent (ids.foldl (take order parent session) acc).stores from
    this _ _ rfl
  intro ids
  induction ids with
  | nil => exact fun acc h => h
  | cons id ids ih => exact fun acc h => ih _ (record_take h id)

theorem opsFor_take {parent : StoreId → Contents} (id id' : StoreId) :
    opsFor id' (acc.take order parent session id).stores = opsFor id' acc.stores ++
      if st.attached id = true ∧ id = id' then (order id).iter (session id).pending else [] := by
  unfold DrainedBlock.take
  split
  · rename_i hatt
    unfold push
    split
    · rename_i hempty
      have hnil : (order id).iter (session id).pending = [] := isEmpty_iff.1 hempty
      rw [hnil, ite_self, append_nil]
    · rw [opsFor_append]
      congr 1
      by_cases hid : id = id'
      · subst hid; simp [opsFor, hatt, SessionBackend.drainPendingWithUndo]
      · simp [opsFor, hid]
  · rename_i hatt
    rw [if_neg fun h => hatt h.1, append_nil]

theorem commitOrder_nodup : StoreId.commitOrder.Nodup := StoreId.dbNames_nodup.of_map _

variable {id : StoreId}

/-- The writes of a drained block to a store are the session's pending writes, in some order. -/
theorem opsFor_drain (order : StoreId → HashOrder) (parent : StoreId → Contents) (session : BlockSession)
    (capture : Bool) (h : st.attached id = true) :
    opsFor id (drainBlockSession st order parent session capture).stores = (order id).iter (session id).pending := by
  suffices ∀ (ids : List StoreId), ids.Nodup → ∀ acc : DrainedBlock st,
      opsFor id (ids.foldl (take order parent session) acc).stores =
        opsFor id acc.stores ++ if id ∈ ids then (order id).iter (session id).pending else [] from
    (this _ commitOrder_nodup _).trans (by rw [if_pos (StoreId.mem_commitOrder id)]; rfl)
  intro ids
  induction ids with
  | nil => intro _ acc; simp
  | cons x xs ih =>
    intro hnd acc
    obtain ⟨hx, hnd⟩ := nodup_cons.1 hnd
    rw [foldl_cons, ih hnd, opsFor_take, append_assoc]
    congr 1
    by_cases hid : x = id
    · subst hid
      simp [h, hx]
    · simp [hid, Ne.symm hid]

theorem stores_drain_nodup (order : StoreId → HashOrder) (parent : StoreId → Contents)
    (session : BlockSession) (capture : Bool) :
    ((drainBlockSession st order parent session capture).stores.map (·.id)).Nodup := by
  suffices ∀ (ids : List StoreId) (acc : DrainedBlock st), (acc.stores.map (·.id) ++ ids).Nodup →
        ((ids.foldl (take order parent session) acc).stores.map (·.id)).Nodup from
    this _ _ commitOrder_nodup
  intro ids
  induction ids with
  | nil => exact fun acc h => by rwa [append_nil] at h
  | cons id ids ih =>
    intro acc h
    refine ih _ ?_
    unfold DrainedBlock.take DrainedBlock.push
    -- a store that is skipped only drops out of the list
    have hskip : (acc.stores.map (·.id) ++ ids).Nodup :=
      h.sublist (List.Sublist.append (List.Sublist.refl _) (sublist_cons_self ..))
    split
    · split
      · exact hskip
      · rw [map_append, append_assoc]
        exact h
    · exact hskip

/-- With one batch per store, a store's writes are those of its batch. -/
theorem opsFor_eq_find {stores : List (DrainedStore st)} (h : (stores.map (·.id)).Nodup) (id : StoreId) :
    opsFor id stores = match stores.find? fun d => d.id = id with
      | some d => d.ops
      | none => [] := by
  induction stores with
  | nil => rfl
  | cons d ds ih =>
    obtain ⟨hd, hds⟩ := nodup_cons.1 h
    have hcons : opsFor id (d :: ds) = (if d.id = id then d.ops else []) ++ opsFor id ds := rfl
    rw [hcons]
    by_cases hid : d.id = id
    · have hnil : opsFor id ds = [] := by
        refine flatMap_eq_nil_iff.2 fun d' hd' => if_neg fun hid' => hd ?_
        exact mem_map.2 ⟨d', hd', hid'.trans hid.symm⟩
      rw [if_pos hid, hnil, append_nil, List.find?_cons_of_pos (by simpa using hid)]
    · rw [if_neg hid, nil_append, ih hds, List.find?_cons_of_neg (by simpa using hid)]

/-- **A committed session.** Applying the drained writes to the stores the session was opened over
gives what the session showed. -/
theorem applyAll_drain (order : StoreId → HashOrder) (parent : StoreId → Contents) (session : BlockSession)
    (capture : Bool) (h : st.attached id = true) :
    applyAll (opsFor id (drainBlockSession st order parent session capture).stores) (parent id) =
      (session id).get (parent id) := by
  rw [opsFor_drain order parent session capture h]
  exact SessionBackend.applyAll_drained (order id) (parent id) (session id)

/-! ## Committing without a checkpoint -/

/-- Commit one store's session by itself: read the old values, then write the batch. -/
def commitStore (order : StoreId → HashOrder) (session : BlockSession)
    (acc : DrainedBlock st × Disk) (id : StoreId) : DrainedBlock st × Disk :=
  (acc.1.take order acc.2.contents session id, if st.attached id = true then
      acc.2.setStore id (Disk.batch (acc.2.stores id) ((order id).iter (session id).pending) false)
    else acc.2)

/-- `BlockSession::commit_with_undo`: commit store after store, collecting the undo record. -/
def commitWithUndo (st : StateBackends) (order : StoreId → HashOrder) (session : BlockSession)
    (capture : Bool) (s : Disk) : DrainedBlock st × Disk :=
  let done := StoreId.commitOrder.foldl (commitStore order session) (.empty capture, s)
  (done.1.sortDeltas, done.2)

theorem take_congr {parent parent' : StoreId → Contents} (h : parent id = parent' id) :
    acc.take order parent session id = acc.take order parent' session id := by
  simp [DrainedBlock.take, h]

theorem contents_commitStore {acc : DrainedBlock st × Disk} (id id' : StoreId) :
    (commitStore order session acc id).2.contents id' =
      applyAll (if st.attached id = true ∧ id = id' then (order id).iter (session id).pending else [])
        (acc.2.contents id') := by
  unfold commitStore
  by_cases hatt : st.attached id = true
  · simp only [hatt, if_true, true_and]
    exact contents_writeBatch ..
  · rw [if_neg hatt, if_neg fun h => hatt h.1]; rfl

theorem undo_commitStore {acc : DrainedBlock st × Disk} (id : StoreId) :
    (commitStore order session acc id).2.undo = acc.2.undo := by
  unfold commitStore
  split <;> rfl

/-- **Both ways of committing agree.** Store after store, the write-set and the undo record are those
of a drain over the contents before the block, and every store ends with its writes applied. -/
theorem commitWithUndo_spec (order : StoreId → HashOrder) (session : BlockSession) (capture : Bool) (s : Disk) :
    (commitWithUndo st order session capture s).1 = drainBlockSession st order s.contents session capture ∧
      (∀ id, (commitWithUndo st order session capture s).2.contents id = applyAll (opsFor id
        (drainBlockSession st order s.contents session capture).stores) (s.contents id)) ∧
      (commitWithUndo st order session capture s).2.undo = s.undo := by
  -- the stores still to be visited have their old contents
  suffices ∀ (ids : List StoreId), ids.Nodup → ∀ acc : DrainedBlock st × Disk,
      (∀ id ∈ ids, acc.2.contents id = s.contents id) →
      (∀ id, acc.2.contents id = applyAll (opsFor id acc.1.stores) (s.contents id)) →
      acc.2.undo = s.undo →
      let r := ids.foldl (commitStore order session) acc
      r.1 = ids.foldl (take order s.contents session) acc.1 ∧
        (∀ id, r.2.contents id = applyAll (opsFor id r.1.stores) (s.contents id)) ∧
        r.2.undo = s.undo by
    obtain ⟨h₁, h₂, h₃⟩ := this _ commitOrder_nodup (.empty capture, s)
      (fun _ _ => rfl) (fun _ => rfl) rfl
    refine ⟨?_, fun id => ?_, h₃⟩
    · exact congrArg sortDeltas h₁
    · rw [h₁] at h₂
      exact h₂ id
  intro ids
  induction ids with
  | nil => exact fun _ acc _ hc hu => ⟨rfl, hc, hu⟩
  | cons x xs ih =>
    intro hnd acc hold hc hu
    obtain ⟨hx, hnd⟩ := nodup_cons.1 hnd
    have htake : (commitStore order session acc x).1 = acc.1.take order s.contents session x :=
      take_congr (hold x (mem_cons_self ..))
    rw [foldl_cons, foldl_cons, ← htake]
    refine ih hnd _ (fun id hid => ?_) (fun id => ?_) ((undo_commitStore x).trans hu)
    · have hne : x ≠ id := fun h => hx (h ▸ hid)
      rw [contents_commitStore, if_neg fun h => hne h.2]
      exact hold id (mem_cons_of_mem _ hid)
    · rw [contents_commitStore, htake, opsFor_take, Kv.applyAll_append, ← hc id]

end TronGoblin
