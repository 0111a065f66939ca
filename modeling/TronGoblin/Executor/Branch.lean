import TronGoblin.Executor.Pipeline

/-!
# Executing and undoing a branch

`execute_block_inner` with an undo store (`tron-executor/src/lib.rs`), and what it means that a list
of blocks has been executed on top of each other.

* `Executed`: the blocks lead from one state to another, and each has its undo record.
* `Executed.rollback`: rolled back in reverse order, they lead back.
* `Executed.reapply`: executed again, they lead to the same state, and leave the same records up to
  the order of the entries, which is that of a hash map.
-/

namespace TronGoblin

open List BlockSession Function DrainedBlock
open Kv (applyAll)

variable {st : StateBackends} {E : Type}

/-- The part of a block that the executor sees; the number is that of its header. -/
structure BranchBlock (st : StateBackends) (E : Type) where
  num : Int
  /-- `execute_block_logic`. -/
  logic : Prog ReadOp ReadOp.Res (Except E (List (BlockWrite st)))

structure ExecConfig where
  path : CommitPath
  captureDeltas : Bool

/-- `execute_block_inner` with an undo store: execute, commit the session, store the undo record. -/
def executeBlock (cfg : ExecConfig) (order : StoreId → HashOrder) (b : BranchBlock st E) (d : Disk) :
    Except (ApplyError E) Unit × Disk :=
  match evalReads d.contents b.logic with
  | .error e => (.error (.exec e), d)
  | .ok writes =>
    match applyBlock ⟨b.num, writes, order, cfg.path, cfg.captureDeltas⟩ d with
    | (.ok (), d') => (.ok (), d')
    | (.error e, d') => (.error (.commit e), d')

/-! ## One block -/

def writesTo (id : StoreId) (writes : List (BlockWrite st)) : List WriteOp :=
  writes.filterMap fun w => if w.id = id then some w.op else none

def applyWrites (writes : List (BlockWrite st)) (c : StoreId → Contents) : StoreId → Contents :=
  fun id => applyAll (writesTo id writes) (c id)

theorem get_ofWrites (writes : List (BlockWrite st)) (c : StoreId → Contents) (id : StoreId) :
    (ofWrites writes id).get (c id) = applyWrites writes c id := by
  induction writes using List.reverseRecOn with
  | nil => rfl
  | append_singleton ws w ih =>
    have hlast : ofWrites (ws ++ [w]) = (ofWrites ws).write w :=
      foldl_concat ..
    rw [hlast, applyWrites, writesTo, filterMap_append, Kv.applyAll_append]
    show _ = applyAll _ (applyWrites ws c id)
    rw [← ih, write]
    by_cases hid : w.id = id
    · subst hid
      rw [update_self, SessionBackend.get_write]
      simp [Kv.applyAll]
    · rw [update_of_ne (Ne.symm hid)]
      simp [hid, Kv.applyAll]

theorem opsFor_eq_nil {stores : List (DrainedStore st)} {id : StoreId} (h : st.attached id ≠ true) :
    opsFor id stores = [] := by
  refine flatMap_eq_nil_iff.2 fun d _ => if_neg ?_
  rintro rfl
  exact h d.attached

theorem writesTo_eq_nil {writes : List (BlockWrite st)} {id : StoreId} (h : st.attached id ≠ true) :
    writesTo id writes = [] := by
  refine filterMap_eq_nil_iff.2 fun w _ => if_neg ?_
  rintro rfl
  exact h w.attached

def drainWrites (order : StoreId → HashOrder) (c : StoreId → Contents) (writes : List (BlockWrite st))
    (capture : Bool) : DrainedBlock st :=
  drainBlockSession st order c (ofWrites writes) capture

/-- In whatever order the write-set was drained, it leads to the state after the block. -/
theorem applyAll_drainWrites (order : StoreId → HashOrder) (c : StoreId → Contents)
    (writes : List (BlockWrite st)) (capture : Bool) (id : StoreId) :
    applyAll (opsFor id (drainWrites order c writes capture).stores) (c id) = applyWrites writes c id := by
  by_cases h : st.attached id = true
  · rw [drainWrites, applyAll_drain order c _ capture h, get_ofWrites]
  · rw [opsFor_eq_nil h, applyWrites, writesTo_eq_nil h]

theorem drainWrites_attached {order : StoreId → HashOrder} {c : StoreId → Contents} {writes : List (BlockWrite st)}
    {capture : Bool} {e : UndoEntry} (h : e ∈ (drainWrites order c writes capture).record) : st.attached e.store = true := by
  rw [drainWrites, record_drain] at h
  exact undoRecord_attached h

theorem undo_drainWrites (order : StoreId → HashOrder) (c : StoreId → Contents) (writes : List (BlockWrite st))
    (capture : Bool) (id : StoreId) :
    applyAll (undoFor id (drainWrites order c writes capture).record) (applyWrites writes c id) = c id := by
  rw [← applyAll_drainWrites order c writes capture, drainWrites, record_drain, undoFor_undoRecord, Kv.applyAll_preimages]

variable {cfg : ExecConfig}

theorem executeBlock_error {order : StoreId → HashOrder} {b : BranchBlock st E} {d : Disk} {e : E}
    (h : evalReads d.contents b.logic = .error e) : executeBlock cfg order b d = (.error (.exec e), d) := by
  rw [executeBlock, h]

/-- A block whose logic succeeds is committed, and its record is stored. -/
theorem executeBlock_ok {order : StoreId → HashOrder} {b : BranchBlock st E} {d : Disk}
    {writes : List (BlockWrite st)} (h : evalReads d.contents b.logic = .ok writes) :
    ∃ d', executeBlock cfg order b d = (.ok (), d') ∧ d'.contents = applyWrites writes d.contents ∧
      d'.undo.contents = update d.undo.contents b.num
        (some (drainWrites order d.contents writes cfg.captureDeltas).record) := by
  obtain ⟨hok, hcon, hundo⟩ :=
    applyBlock_spec (⟨b.num, writes, order, cfg.path, cfg.captureDeltas⟩ : SessionBlock st) d
  refine ⟨_, ?_, funext fun id => ?_, hundo.trans ?_⟩
  · rw [executeBlock, h]
    dsimp only
    rw [show applyBlock (⟨b.num, writes, order, cfg.path, cfg.captureDeltas⟩ : SessionBlock st) d =
      (.ok (), _) from Prod.ext hok rfl]
  · rw [hcon]
    exact applyAll_drainWrites order d.contents writes cfg.captureDeltas id
  · rw [drainWrites, record_drain]
    rfl

section Inversion

variable {cfg : ExecConfig} {order : StoreId → HashOrder} {b : BranchBlock st E} {d d' : Disk}

theorem executeBlock_failed {e : ApplyError E} (h : executeBlock cfg order b d = (.error e, d')) : d' = d := by
  cases hlogic : evalReads d.contents b.logic with
  | error err =>
    rw [executeBlock_error hlogic] at h
    cases h
    rfl
  | ok writes =>
    obtain ⟨t, ht, -⟩ := @executeBlock_ok st E cfg order b d writes hlogic
    rw [ht] at h
    cases h

variable (h : executeBlock cfg order b d = (.ok (), d'))
include h

theorem executeBlock_succeeded :
    ∃ writes, evalReads d.contents b.logic = .ok writes ∧ d'.contents = applyWrites writes d.contents ∧
      d'.undo.contents = update d.undo.contents b.num
        (some (drainWrites order d.contents writes cfg.captureDeltas).record) := by
  cases hlogic : evalReads d.contents b.logic with
  | error err =>
    rw [executeBlock_error hlogic] at h
    cases h
  | ok writes =>
    obtain ⟨t, ht, hc, hu⟩ := @executeBlock_ok st E cfg order b d writes hlogic
    rw [ht] at h
    cases h
    exact ⟨writes, rfl, hc, hu⟩

theorem undo_executeBlock {num : Int} (hne : num ≠ b.num) : d'.undo.contents num = d.undo.contents num := by
  obtain ⟨writes, -, -, hu⟩ := executeBlock_succeeded h
  rw [hu, update_of_ne hne]

end Inversion

theorem perm_take {order order' : StoreId → HashOrder} {c : StoreId → Contents} {session : BlockSession}
    {acc acc' : DrainedBlock st} (h : acc.record.Perm acc'.record) (id : StoreId) :
    (acc.take order c session id).record.Perm (acc'.take order' c session id).record := by
  have hperm : ((order id).iter (session id).pending).Perm ((order' id).iter (session id).pending) :=
    ((order id).perm _).trans ((order' id).perm _).symm
  unfold DrainedBlock.take
  split
  · unfold push SessionBackend.drainPendingWithUndo
    rw [hperm.isEmpty_eq]
    split
    · exact h
    · exact h.append ((hperm.map _).map _)
  · exact h

/-- The entries of an undo record do not depend on the order in which the sessions are drained. -/
theorem record_perm (order order' : StoreId → HashOrder) (c : StoreId → Contents)
    (writes : List (BlockWrite st)) (capture capture' : Bool) :
    (drainWrites order c writes capture).record.Perm (drainWrites order' c writes capture').record := by
  suffices ∀ (ids : List StoreId) (acc acc' : DrainedBlock st), acc.record.Perm acc'.record →
      (ids.foldl (take order c (ofWrites writes)) acc).record.Perm
        (ids.foldl (take order' c (ofWrites writes)) acc').record from
    this _ _ _ (List.Perm.refl _)
  intro ids
  induction ids with
  | nil => exact fun acc acc' h => h
  | cons id ids ih => exact fun acc acc' h => ih _ _ (perm_take h id)

/-! ## Branches -/

/-- The blocks, oldest first, lead from the state `c` to the state `top`, and `undo` has the record of
each. -/
inductive Executed (undo : Int → Option BlockUndoRecord) :
    (StoreId → Contents) → List (BranchBlock st E) → (StoreId → Contents) → Prop
  | nil (c : StoreId → Contents) : Executed undo c [] c
  | cons {c top : StoreId → Contents} {b : BranchBlock st E} {bs : List (BranchBlock st E)}
      {writes : List (BlockWrite st)} (order : StoreId → HashOrder) (capture : Bool)
      (logic : evalReads c b.logic = .ok writes)
      (record : undo b.num = some (drainWrites order c writes capture).record)
      (rest : Executed undo (applyWrites writes c) bs top) : Executed undo c (b :: bs) top

namespace Executed

variable {undo : Int → Option BlockUndoRecord} {c top : StoreId → Contents} {bs : List (BranchBlock st E)}

/-- **Undoing a branch.** Rolled back newest first, the blocks lead back to where they started; their
records are consumed, and no other. -/
theorem rollback (h : Executed undo c bs top) (hnum : (bs.map (·.num)).Nodup) {t : Disk}
    (hcon : t.contents = top) (hundo : ∀ b ∈ bs, t.undo.contents b.num = undo b.num) :
    ∃ t', rollbackBlocks st (bs.map (·.num)).reverse t = .ok t' ∧ t'.contents = c ∧ ∀ num, t'.undo.contents num =
        if num ∈ bs.map (·.num) then none else t.undo.contents num := by
  induction h with
  | nil c => exact ⟨t, rfl, hcon, fun _ => rfl⟩
  | @cons c top b bs writes order capture hlogic hrec _ ih =>
    obtain ⟨hb, hbs⟩ := nodup_cons.1 hnum
    obtain ⟨t₁, hroll, hc₁, hu₁⟩ := ih hbs hcon fun b' hb' => hundo b' (mem_cons_of_mem _ hb')
    -- the blocks above are gone; this block's record is still there
    have hrec₁ : t₁.undo.contents b.num = some (drainWrites order c writes capture).record := by
      rw [hu₁, if_neg hb, hundo b (mem_cons_self ..), hrec]
    have hspec := @rollbackBlock_spec st t₁ b.num _ hrec₁ fun e he => drainWrites_attached he
    refine ⟨t₁.rolledBack b.num (drainWrites order c writes capture).record, ?_, funext fun id => ?_, fun num => ?_⟩
    · rw [map_cons, reverse_cons, rollbackBlocks_append, hroll]
      show rollbackBlocks st [b.num] t₁ = _
      simp [rollbackBlocks, hspec]
    · rw [contents_rolledBack, hc₁, undo_drainWrites]
    · rw [undo_rolledBack]
      by_cases hn : num = b.num
      · rw [hn, update_self, map_cons, if_pos (mem_cons_self ..)]
      · rw [update_of_ne hn, hu₁, map_cons]
        simp [mem_cons, hn, false_or]

end Executed

/-- **Step lemma.** A block that has been executed, and the blocks above it. -/
theorem Executed.step {undo : Int → Option BlockUndoRecord} {b : BranchBlock st E} {bs : List (BranchBlock st E)}
    {d d' : Disk} {top : StoreId → Contents} {order : StoreId → HashOrder}
    (hexec : executeBlock cfg order b d = (.ok (), d')) (hrec : undo b.num = d'.undo.contents b.num)
    (h : Executed undo d'.contents bs top) : Executed undo d.contents (b :: bs) top := by
  obtain ⟨writes, hlogic, hc, hu⟩ := executeBlock_succeeded hexec
  rw [hc] at h
  exact .cons order cfg.captureDeltas hlogic (by rw [hrec, hu, update_self]) h

/-- Execute blocks one after the other until one fails; `n` counts executions, and `order n` is the
order in which the sessions of the `n`-th are drained. -/
def reapply (cfg : ExecConfig) (order : Nat → StoreId → HashOrder) :
    List (BranchBlock st E) → Nat → Disk → Option (Int × ApplyError E) × Nat × Disk
  | [], n, d => (none, n, d)
  | b :: bs, n, d =>
    match executeBlock cfg (order n) b d with
    | (.ok (), d') => reapply cfg order bs (n + 1) d'
    | (.error e, d') => (some (b.num, e), n + 1, d')

/-- **Executing a branch again** from where it started: it succeeds, leads to the same state, and
leaves the same records. -/
theorem Executed.reapply {undo : Int → Option BlockUndoRecord} {c top : StoreId → Contents}
    {bs : List (BranchBlock st E)} (h : Executed undo c bs top) (hnum : (bs.map (·.num)).Nodup)
    (cfg : ExecConfig) (order : Nat → StoreId → HashOrder) (n : Nat) {d : Disk} (hcon : d.contents = c) :
    ∃ n' d', reapply cfg order bs n d = (none, n', d') ∧ d'.contents = top ∧
      (∀ b ∈ bs, ∃ r r', undo b.num = some r ∧ d'.undo.contents b.num = some r' ∧ r'.Perm r) ∧
      ∀ num, num ∉ bs.map (·.num) → d'.undo.contents num = d.undo.contents num := by
  induction h generalizing n d with
  | nil c => exact ⟨n, d, rfl, hcon, nofun, fun _ _ => rfl⟩
  | @cons c top b bs writes order' capture hlogic hrec _ ih =>
    obtain ⟨hb, hbs⟩ := nodup_cons.1 hnum
    subst hcon
    obtain ⟨d₁, hexec, hc₁, hu₁⟩ := @executeBlock_ok st E cfg (order n) b d writes hlogic
    obtain ⟨n', d', hre, hc', hrecs, hkeep⟩ := ih hbs (n + 1) hc₁
    have hown : d'.undo.contents b.num = some (drainWrites (order n) d.contents writes cfg.captureDeltas).record := by
      rw [hkeep b.num hb, hu₁, update_self]
    refine ⟨n', d', by rw [TronGoblin.reapply, hexec]; exact hre, hc', fun b' hb' => ?_, fun num hn => ?_⟩
    · rcases mem_cons.1 hb' with rfl | hb'
      · exact ⟨_, _, hrec, hown, record_perm ..⟩
      · exact hrecs b' hb'
    · obtain ⟨hne, hnot⟩ := not_or.1 fun h => hn (mem_cons.2 h)
      exact (hkeep num hnot).trans (undo_executeBlock hexec hne)

/-- **How a node commits does not show in its state.**  Neither the commit path nor the capture of deltas nor the order
in which sessions are drained changes which block of a branch fails, how, and what the stores contain. -/
theorem reapply_any_config (cfg cfg' : ExecConfig) (order order' : Nat → StoreId → HashOrder)
    (bs : List (BranchBlock st E)) (n n' : Nat) (d : Disk) :
    (reapply cfg order bs n d).1 = (reapply cfg' order' bs n' d).1 ∧
      (reapply cfg order bs n d).2.2.contents = (reapply cfg' order' bs n' d).2.2.contents := by
  suffices ∀ d d' : Disk, d.contents = d'.contents → (reapply cfg order bs n d).1 = (reapply cfg' order' bs n' d').1 ∧
      (reapply cfg order bs n d).2.2.contents = (reapply cfg' order' bs n' d').2.2.contents from this d d rfl
  induction bs generalizing n n' with
  | nil => exact fun d d' h => ⟨rfl, h⟩
  | cons b bs ih =>
    intro d d' h
    cases hlogic : evalReads d.contents b.logic with
    | error e =>
      rw [reapply, reapply, executeBlock_error hlogic, executeBlock_error (h ▸ hlogic)]
      exact ⟨rfl, h⟩
    | ok writes =>
      obtain ⟨t, ht, hc, -⟩ := @executeBlock_ok st E cfg (order n) b d writes hlogic
      obtain ⟨t', ht', hc', -⟩ := @executeBlock_ok st E cfg' (order' n') b d' writes (h ▸ hlogic)
      rw [reapply, reapply, ht, ht']
      exact ih _ _ t t' (by rw [hc, hc', h])

end TronGoblin
