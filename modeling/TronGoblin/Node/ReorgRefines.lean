import TronGoblin.Node.Accept
import TronGoblin.Node.ReorgAbort

/-!
# The two levels of a fork switch

`Reorg` moves stores, which undo records lead back; `Accept` moves states, and keeps the state before a block.

* `Holding`: how stores hold a state, so that the execution of a block does the same to both.
* `InStep`: the stores hold the driver's state, and those that undo records lead back to hold the kept ones.
* `InStep.execute`, `InStep.rollback`: a block is executed, and rolled back, on both levels.
* `performReorg_refines`: **a fork switch ends alike on both levels, and its stores hold its state.**
-/

namespace TronGoblin

open List Function
open Assoc (Table lookup_erase_eq lookup_insert_eq)
open Kv (applyAll)
open Proto (Block)

variable {st : StateBackends} {T σ : Type} {node : Accept.Env T σ}

structure Holding (st : StateBackends) (node : Accept.Env T σ) where
  Holds : (StoreId → Contents) → Accept.ChainState T σ → Prop
  block : WireBlock (Block T) → NodeBlock st
  ok : ∀ {c s b writes}, Holds c s → evalReads c (block b).logic = .ok writes →
    ∃ s', Accept.executeBlock node b none s = .ok s' ∧ Holds (applyWrites writes c) s'
  error : ∀ {c s b e}, Holds c s → evalReads c (block b).logic = .error e →
    ∃ e', Accept.executeBlock node b none s = .error e'
  /-- The block index is not part of the state. -/
  index : ∀ {c s} (m : Contents), Holds c s → Holds (update c .blockIndex m) s

namespace Holding

/-- For instance, with a codec for states, in a row of its own. -/
def inRow (encode : Accept.ChainState T σ → Bytes) (decode : Bytes → Option (Accept.ChainState T σ))
    (hcodec : ∀ s, decode (encode s) = some s) : Holding st node where
  Holds c s := c .accounts [] = some (encode s)
  block b := ⟨.op (.get .accounts []) fun row => .ret ((row.bind decode).elim (.error "no state") fun s =>
    match Accept.executeBlock node b none s with
    | .ok s' => .ok [⟨.accounts, ⟨[], some (encode s')⟩, st.mandatory .accounts rfl⟩]
    | .error _ => .error "refused"), []⟩
  ok := by
    intro c s b writes hc hw
    cases hexec : Accept.executeBlock node b none s with
    | ok s' =>
      simp [evalReads, readFrom, Prog.exec, hc, hcodec, hexec] at hw
      subst hw
      exact ⟨s', rfl, by simp [applyWrites, writesTo, applyAll, Kv.Map.write]⟩
    | error e => simp [evalReads, readFrom, Prog.exec, hc, hcodec, hexec] at hw
  error := by
    intro c s b e hc he
    cases hexec : Accept.executeBlock node b none s with
    | ok s' => simp [evalReads, readFrom, Prog.exec, hc, hcodec, hexec] at he
    | error e' => exact ⟨e', rfl⟩
  index m hc := by simpa using hc

variable (H : Holding st node)

def toNode (kb : WireNode (Block T)) : KhaosNode (NodeBlock st) := ⟨H.block kb.block, kb.id, kb.num, kb.serial⟩

/-- The blocks, newest first, can be undone on both levels. -/
def Undoable (undo : Int → Option BlockUndoRecord) (records : Table Int (Accept.ChainState T σ)) :
    List Int → (StoreId → Contents) → Accept.ChainState T σ → Prop
  | [], c, s => H.Holds c s
  | num :: nums, c, s => H.Holds c s ∧ ∃ record s', undo num = some record ∧ records.lookup num = some s' ∧
      (∀ e ∈ record, st.attached e.store = true) ∧
      Undoable undo records nums (fun id => applyAll (undoFor id record) (c id)) s'

structure InStep (nums : List Int) (disk : Disk) (a : Accept.Driver T σ) : Prop where
  nodup : nums.Nodup
  undoable : ∃ records, a.versions = .undo records ∧ H.Undoable disk.undo.contents records nums disk.contents a.state

variable {H} {undo undo' : Int → Option BlockUndoRecord} {records records' : Table Int (Accept.ChainState T σ)}
  {nums applied : List Int} {num : Int} {c : StoreId → Contents} {s : Accept.ChainState T σ} {disk : Disk}
  {a : Accept.Driver T σ}

theorem Undoable.holds (h : H.Undoable undo records nums c s) : H.Holds c s := by
  cases nums with
  | nil => exact h
  | cons num nums => exact h.1

theorem Undoable.congr (h : H.Undoable undo records nums c s)
    (hkeep : ∀ num ∈ nums, undo' num = undo num ∧ records'.lookup num = records.lookup num) :
    H.Undoable undo' records' nums c s := by
  induction nums generalizing c s with
  | nil => exact h
  | cons num nums ih =>
    obtain ⟨hholds, record, s', hrec, hs, hatt, hrest⟩ := h
    obtain ⟨hu, hr⟩ := hkeep num (mem_cons_self ..)
    exact ⟨hholds, record, s', hu.trans hrec, hr.trans hs, hatt, ih hrest fun n hn => hkeep n (mem_cons_of_mem _ hn)⟩

theorem Undoable.recorded (h : H.Undoable undo records nums c s) (hnum : num ∈ nums) :
    (undo num).isSome ∧ (records.lookup num).isSome := by
  induction nums generalizing c s with
  | nil => cases hnum
  | cons n nums ih =>
    obtain ⟨-, record, s', hrec, hs, -, hrest⟩ := h
    rcases mem_cons.1 hnum with rfl | hnum
    · simp [hrec, hs]
    · exact ih hrest hnum

/-! ## One block -/

theorem InStep.rollback (h : H.InStep (num :: nums) disk a) :
    ∃ n disk' a', Prog.exec Disk.handle (rollbackBlock st num) disk = (.ok n, disk') ∧
      Accept.rollbackBlock num a = some a' ∧ H.InStep nums disk' a' := by
  obtain ⟨hnodup, records, hv, -, record, s', hrec, hs, hatt, hrest⟩ := h
  obtain ⟨hnum, hnums⟩ := nodup_cons.1 hnodup
  refine ⟨_, _, { a with view := { a.view with state := s' }, versions := .undo (records.erase num) },
    rollbackBlock_spec hrec hatt, by simp [Accept.rollbackBlock, hv, hs], hnums, _, rfl, ?_⟩
  rw [funext (contents_rolledBack disk num record)]
  refine hrest.congr fun n hn => ?_
  have hne : n ≠ num := fun h => hnum (h ▸ hn)
  rw [undo_rolledBack, update_of_ne hne, lookup_erase_eq, if_neg hne]
  exact ⟨rfl, rfl⟩

/-- A block succeeds on both levels, and can be undone, or fails on both. -/
theorem InStep.execute (h : H.InStep nums disk a) (hnum : num ∉ nums) (cfg : ExecConfig) (order : StoreId → HashOrder)
    (b : WireBlock (Block T)) :
    (∃ disk' a', executeBlock cfg order ⟨num, (H.block b).logic⟩ disk = (.ok (), disk') ∧
      Accept.applyBlock node b num none a = .ok a' ∧ H.InStep (num :: nums) disk' a') ∨
    ∃ e e', executeBlock cfg order ⟨num, (H.block b).logic⟩ disk = (.error e, disk) ∧
      Accept.applyBlock node b num none a = .error e' := by
  obtain ⟨hnodup, records, hv, hundo⟩ := h
  cases hlogic : evalReads disk.contents (H.block b).logic with
  | error e =>
    obtain ⟨e', he⟩ := H.error hundo.holds hlogic
    exact Or.inr ⟨_, e', executeBlock_error hlogic, by rw [Accept.applyBlock, he]; rfl⟩
  | ok writes =>
    obtain ⟨s', hs, hholds⟩ := H.ok hundo.holds hlogic
    obtain ⟨disk', hexec, hc, hu⟩ := @executeBlock_ok st _ cfg order ⟨num, _⟩ disk writes hlogic
    refine Or.inl ⟨disk', _, hexec, by rw [Accept.applyBlock, hs, hv]; rfl, nodup_cons.2 ⟨hnum, hnodup⟩, _, rfl, ?_⟩
    rw [hc, hu]
    -- the new record leads back to the stores that hold the state before the block
    refine ⟨hholds, _, a.state, update_self .., by rw [lookup_insert_eq, if_pos rfl],
      fun e he => drainWrites_attached he, ?_⟩
    rw [funext (undo_drainWrites order disk.contents writes cfg.captureDeltas)]
    refine hundo.congr fun n hn => ?_
    have hne : n ≠ num := fun h => hnum (h ▸ hn)
    rw [update_of_ne hne, lookup_insert_eq, if_neg hne]
    exact ⟨rfl, rfl⟩

/-! ## The loops -/

theorem InStep.rollbackAll (h : H.InStep nums disk a) : ∃ disk' a',
    rollbackUntil st nums disk = (none, disk') ∧ unwind st nums disk = ([], disk') ∧
      Accept.rollbackUntil nums a = (none, a') ∧ Accept.unwind nums a = ([], a') ∧ H.InStep [] disk' a' := by
  induction nums generalizing disk a with
  | nil => exact ⟨disk, a, rfl, rfl, rfl, rfl, h⟩
  | cons num nums ih =>
    obtain ⟨n, disk₁, a₁, hd, ha, h₁⟩ := h.rollback
    obtain ⟨disk', a', h'⟩ := ih h₁
    refine ⟨disk', a', ?_⟩
    rw [rollbackUntil, unwind, Accept.rollbackUntil, Accept.unwind, hd, ha]
    exact h'

variable {env : DriverEnv} {newBlock : Block T} {newNode : NodeBlock st} {newId : BlockId} {d : SyncDriver st}
  {path : List (WireNode (Block T))}

theorem blockToApply_toNode {kb : WireNode (Block T)}
    (h : kb.id = newId → H.block ⟨newBlock, kb.block.raw⟩ = newNode) :
    blockToApply newNode newId (H.toNode kb) = H.block (Accept.blockToApply newBlock newId kb) := by
  by_cases hid : kb.id = newId
  · simp [blockToApply, Accept.blockToApply, toNode, hid, h hid]
  · simp [blockToApply, Accept.blockToApply, toNode, hid]

theorem InStep.applyBranch (env : DriverEnv)
    (hnew : ∀ kb ∈ path, kb.id = newId → H.block ⟨newBlock, kb.block.raw⟩ = newNode)
    (hnodup : (path.map (·.num) ++ applied.reverse).Nodup) (h : H.InStep applied.reverse d.disk a) :
    ∃ failed failed' applied' d' a', applyBranch env newNode newId (path.map H.toNode) applied d = (failed, applied', d') ∧
      Accept.applyBranch node (path.map fun kb => (kb.num, Accept.blockToApply newBlock newId kb)) applied a =
        (failed', applied', a') ∧
      failed.map (·.1.num) = failed'.map (·.1) ∧ H.InStep applied'.reverse d'.disk a' := by
  induction path generalizing applied d a with
  | nil => exact ⟨none, none, applied, d, a, rfl, rfl, rfl, h⟩
  | cons kb path ih =>
    obtain ⟨hnum, -⟩ := nodup_cons.1 hnodup
    simp only [map_cons, TronGoblin.applyBranch, Accept.applyBranch, blockToApply_toNode (hnew kb (mem_cons_self ..)),
      show (H.toNode kb).num = kb.num from rfl]
    rcases h.execute (fun h => hnum (mem_append_right _ h)) env.exec (env.order d.executions)
      (Accept.blockToApply newBlock newId kb) with ⟨disk', a', hd, ha, h'⟩ | ⟨e, e', hd, ha⟩
    · rw [hd, ha]
      refine ih (fun kb hkb => hnew kb (mem_cons_of_mem _ hkb)) ?_ ?_
      · rw [reverse_append]
        exact (perm_middle.nodup_iff).2 hnodup
      · rw [reverse_append, (disk_onMempool _ _).1]
        exact h'
    · rw [hd, ha]
      exact ⟨_, _, _, _, _, rfl, rfl, rfl, h⟩

theorem InStep.reapply (env : DriverEnv) (hnodup : (path.map (·.num) ++ applied.reverse).Nodup)
    (h : H.InStep applied.reverse disk a) (n : Nat) : ∃ failed failed' applied' n' disk' a',
      reapply env.exec env.order ((path.map H.toNode).map toBranchBlock) n disk = (failed, n', disk') ∧
      Accept.applyBranch node (path.map fun kb => (kb.num, kb.block)) applied a = (failed', applied', a') ∧
      failed.map (·.1) = failed'.map (·.1) ∧ H.InStep applied'.reverse disk' a' := by
  induction path generalizing applied disk a n with
  | nil => exact ⟨none, none, applied, n, disk, a, rfl, rfl, rfl, h⟩
  | cons kb path ih =>
    obtain ⟨hnum, -⟩ := nodup_cons.1 hnodup
    simp only [map_cons, TronGoblin.reapply, Accept.applyBranch,
      show toBranchBlock (H.toNode kb) = ⟨kb.num, (H.block kb.block).logic⟩ from rfl]
    rcases h.execute (fun h => hnum (mem_append_right _ h)) env.exec (env.order n) kb.block
      with ⟨disk', a', hd, ha, h'⟩ | ⟨e, e', hd, ha⟩
    · rw [hd, ha]
      refine ih ?_ ?_ _
      · rw [reverse_append]
        exact (perm_middle.nodup_iff).2 hnodup
      · rw [reverse_append]
        exact h'
    · rw [hd, ha]
      exact ⟨_, _, _, _, _, _, rfl, rfl, rfl, h⟩

/-! ## The switch -/

/-- The outcomes of a switch that has begun; a failed block has an error of its level. -/
def SameOutcome : AcceptOutcome → Accept.AcceptOutcome → Prop
  | .accepted id, .accepted id' => id = id'
  | .rejectedExecution (.applyFailed num _), .rejectedExecution (.block num' _) => num = num'
  | .rejectedExecution (.recoveryFailed num _ undone redone), .rejectedExecution (.recovery num' _ undone' redone') =>
    num = num' ∧ undone.map (·.1) = undone' ∧ redone.map (·.1) = redone'.map (·.1)
  | _, _ => False

variable {head : BlockId} {pathOld pathNew : List (WireNode (Block T))}

theorem InStep.restoreOldBranch (hold : (pathOld.map (·.num)).Nodup) (h : H.InStep applied.reverse d.disk a)
    {failed : KhaosNode (NodeBlock st)} (e : ApplyError String) {failed' : Int × Accept.BlockExecError}
    (hf : failed.num = failed'.1) :
    let r := restoreOldBranch env head (pathOld.map H.toNode) (pathNew.map H.toNode) failed e applied d
    let r' := Accept.restoreOldBranch node head pathOld pathNew failed' applied a
    SameOutcome r.1 r'.1 ∧ H.Holds r.2.disk.contents r'.2.state := by
  obtain ⟨disk₁, a₁, -, hd₁, -, ha₁, h₁⟩ := h.rollbackAll
  have hnodup : (pathOld.reverse.map (·.num) ++ ([] : List Int).reverse).Nodup := by
    simpa [map_reverse] using hold
  obtain ⟨redone, redone', _, n, disk₂, a₂, hd₂, ha₂, hr, -, _, -, h₂⟩ := h₁.reapply env hnodup d.executions
  rw [map_reverse] at hd₂
  simp only [TronGoblin.restoreOldBranch, Accept.restoreOldBranch, hd₁, ha₁, hd₂, ha₂]
  cases redone with
  | none =>
    obtain rfl : redone' = none := Option.map_eq_none_iff.1 hr.symm
    exact ⟨hf, h₂.holds⟩
  | some f =>
    obtain ⟨f', rfl, -⟩ := Option.map_eq_some_iff.1 hr.symm
    exact ⟨⟨hf, rfl, hr⟩, h₂.holds⟩

theorem holds_reindex (blocks : List (KhaosNode (NodeBlock st))) (h : H.Holds d.disk.contents s) :
    H.Holds (reindexCanonicalBranch d blocks).disk.contents s := by
  unfold reindexCanonicalBranch
  split
  · refine foldlRecOn (motive := fun disk : Disk => H.Holds disk.contents s) blocks _ h fun disk h kb _ => ?_
    have hput := funext (apply_update (fun _ => Kv.Durable.contents) disk.stores .blockIndex
      ((disk.stores .blockIndex).append [⟨kb.id.take 8, some kb.id⟩]))
    exact (congrArg (H.Holds · s) hput).mpr (H.index _ h)
  · exact h

/-- **A fork switch on the two levels.**  If the stores hold the state and the old branch can be undone on both, the
switch ends alike, and the stores hold the state again. -/
theorem performReorg_refines {prevHead : Option (KhaosBlock (WireBlock (Block T)))} (hv : a.versions = .undo records)
    (h : H.InStep (pathOld.map (·.num)) d.disk a) (hnums : (pathNew.map (·.num)).Nodup)
    (hnew : ∀ kb ∈ pathNew, kb.id = newId → H.block ⟨newBlock, kb.block.raw⟩ = newNode)
    (hhead : executedHead d.disk.contents = some head) (hhead' : a.executedHead = some head)
    (hbranch' : Accept.getBranch a prevHead head newId = some (pathOld, pathNew))
    (hbranch : d.khaos.getBranch env.held head newId = some (pathOld.map H.toNode, pathNew.map H.toNode)) :
    let r := performReorg env newNode newId d
    let r' := Accept.performReorg node newBlock newId prevHead records a
    SameOutcome r.1 r'.1 ∧ H.Holds r.2.disk.contents r'.2.state := by
  obtain ⟨disk₁, a₁, hd₁, -, ha₁, -, h₁⟩ := h.rollbackAll
  obtain ⟨hold, records', hv', hundo⟩ := h
  cases hv.symm.trans hv'
  -- every block of the old branch has its record
  have hfind : (pathOld.map H.toNode).find? (fun kb => (d.disk.undo.contents kb.num).isNone) = none := by
    rw [find?_map, Option.map_eq_none_iff, find?_eq_none]
    intro kb hkb
    simp [toNode, Option.isSome_iff_ne_none.1 (hundo.recorded (mem_map_of_mem hkb)).1]
  have hfind' : pathOld.find? (fun kb => (records.lookup kb.num).isNone) = none := by
    rw [find?_eq_none]
    intro kb hkb
    simp [Option.isSome_iff_ne_none.1 (hundo.recorded (mem_map_of_mem hkb)).2]
  have hmap : (pathOld.map H.toNode).map (·.num) = pathOld.map (·.num) := map_map ..
  simp only [performReorg, hhead, hbranch, hfind, switchBranch, hmap, hd₁, Accept.performReorg, hhead', hbranch',
    hfind', Accept.switchBranch, Accept.newBranch, ha₁]
  rw [← map_reverse]
  obtain ⟨failed, failed', applied, d₂, a₂, hd₂, ha₂, hf, h₂⟩ := @InStep.applyBranch st T σ node H [] a₁ newBlock newNode
    newId (({ d with disk := disk₁ } : SyncDriver st).onMempool
      (repushReorgedTxs env disk₁.contents ((pathOld.map H.toNode).map (·.block)))) pathNew.reverse env
    (fun kb hkb => hnew kb (mem_reverse.1 hkb)) (by simpa [map_reverse] using hnums)
    (by rw [(disk_onMempool _ _).1]; exact h₁)
  rw [hd₂, ha₂]
  cases failed with
  | none =>
    obtain rfl : failed' = none := Option.map_eq_none_iff.1 hf.symm
    obtain ⟨-, _, -, h₂⟩ := h₂
    exact ⟨rfl, holds_reindex _ h₂.holds⟩
  | some f =>
    obtain ⟨f', rfl, hf'⟩ := Option.map_eq_some_iff.1 hf.symm
    exact h₂.restoreOldBranch hold f.2 hf'.symm

end Holding

end TronGoblin
