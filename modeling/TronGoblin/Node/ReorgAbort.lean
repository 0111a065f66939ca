import TronGoblin.Node.Reorg

/-!
# A fork switch that is given up

What `performReorg` leaves behind when a block of the new branch fails and the old branch has been
executed again.

* `aborted`: the stores and the undo records are back, the new branch is cut off the fork tree, and
  the pool is what the re-push and the applied blocks made of it: the recovery does not touch it.
* `abort_restores_iff`: **the node is as it was if and only if every transaction of the restored chain
  that the re-push left in the pool has left it again with a block of the new branch.**
-/

namespace TronGoblin

open List

variable {st : StateBackends} {env : DriverEnv} {newBlock : NodeBlock st} {newId : BlockId}

/-! ## The pool -/

theorem lookup_foldl_remove (clock : Nat → Int) (ids : List TxId) (acc : TxMempool × Nat) (k : TxId) :
    let removed := ids.foldl (fun acc id => (acc.1.remove (clock acc.2) id, acc.2 + 1)) acc
    removed.1.pending.lookup k = (if k ∈ ids then none else acc.1.pending.lookup k) ∧
      removed.1.config = acc.1.config ∧ removed.2 = acc.2 + ids.length := by
  induction ids generalizing acc with
  | nil => exact ⟨rfl, rfl, rfl⟩
  | cons id ids ih =>
    obtain ⟨hl, hc, hr⟩ := ih (acc.1.remove (clock acc.2) id, acc.2 + 1)
    refine ⟨hl.trans ?_, hc.trans (TxMempool.config_remove ..), hr.trans ?_⟩
    · rw [TxMempool.lookup_remove]
      by_cases hk : k = id
      · simp [hk]
      · simp [hk]
    · rw [length_cons]
      omega

theorem lookup_dropIncluded (b : NodeBlock st) (acc : TxMempool × Nat) (k : TxId) :
    (dropIncludedTxsFromMempool env b acc).1.pending.lookup k =
        (if k ∈ b.included env.codec then none else acc.1.pending.lookup k).filter (fun p =>
          !p.stale acc.1.config.pendingTimeoutMs (env.clock (acc.2 + (b.included env.codec).length))) ∧
      (dropIncludedTxsFromMempool env b acc).1.config = acc.1.config ∧
      (dropIncludedTxsFromMempool env b acc).2 = acc.2 + (b.included env.codec).length + 1 := by
  obtain ⟨hl, hc, hr⟩ := lookup_foldl_remove env.clock (b.included env.codec) acc k
  unfold dropIncludedTxsFromMempool
  dsimp only
  refine ⟨?_, hc, by rw [hr]⟩
  rw [TxMempool.lookup_evictExpired, hl, hc, hr]

/-- A pending transaction leaves the pool with one of these blocks: it is included in one, or the sweep
after one finds it stale; `reads` counts how often the clock has been read. -/
def Leaves (env : DriverEnv) (config : MempoolConfig) (k : TxId) (p : PendingTx) :
    List (NodeBlock st) → Nat → Prop
  | [], _ => False
  | b :: bs, reads =>
    let swept := reads + (b.included env.codec).length
    k ∈ b.included env.codec ∨ p.stale config.pendingTimeoutMs (env.clock swept) = true ∨
      Leaves env config k p bs (swept + 1)

def dropAll (env : DriverEnv) (blocks : List (NodeBlock st)) (acc : TxMempool × Nat) : TxMempool × Nat :=
  blocks.foldl (fun acc b => dropIncludedTxsFromMempool env b acc) acc

/-- A transaction is still pending after the blocks exactly if it was before and does not leave. -/
theorem lookup_dropAll (blocks : List (NodeBlock st)) (acc : TxMempool × Nat) (k : TxId) (p : PendingTx) :
    (dropAll env blocks acc).1.pending.lookup k = some p ↔
      acc.1.pending.lookup k = some p ∧ ¬Leaves env acc.1.config k p blocks acc.2 := by
  induction blocks generalizing acc with
  | nil => exact ⟨fun h => ⟨h, not_false⟩, And.left⟩
  | cons b bs ih =>
    obtain ⟨hl, hc, hr⟩ := @lookup_dropIncluded st env b acc k
    show (dropAll env bs (dropIncludedTxsFromMempool env b acc)).1.pending.lookup k = some p ↔ _
    rw [ih, hl, hc, hr]
    by_cases hk : k ∈ b.included env.codec
    · simp [Leaves, hk]
    · simp [Leaves, hk, Option.filter_eq_some_iff, and_assoc]

variable (d : SyncDriver st)

/-- The pool and the clock, if there is a pool. -/
def SyncDriver.pool : Option (TxMempool × Nat) := d.mempool.map (·, d.clockReads)

theorem pool_onMempool (f : TxMempool × Nat → TxMempool × Nat) : (d.onMempool f).pool = d.pool.map f := by
  unfold SyncDriver.onMempool SyncDriver.pool
  cases h : d.mempool with
  | none => simp [h]
  | some pool => rfl

theorem disk_onMempool (f : TxMempool × Nat → TxMempool × Nat) :
    (d.onMempool f).disk = d.disk ∧ (d.onMempool f).khaos = d.khaos := by
  unfold SyncDriver.onMempool
  split
  · exact ⟨rfl, rfl⟩
  · exact ⟨rfl, rfl⟩

/-- A node of the new branch as the executor sees it. -/
def toApply (newBlock : NodeBlock st) (newId : BlockId) (kb : KhaosNode (NodeBlock st)) : BranchBlock st String :=
  ⟨kb.num, (blockToApply newBlock newId kb).logic⟩

/-- **The blocks before the failing one** have been executed and their transactions dropped. -/
theorem applyBranch_failed {path : List (KhaosNode (NodeBlock st))} {applied applied' : List Int} {d d' : SyncDriver st}
    {failed : KhaosNode (NodeBlock st)} {e : ApplyError String} (hnum : (path.map (·.num)).Nodup)
    (h : applyBranch env newBlock newId path applied d = (some (failed, e), applied', d')) :
    ∃ before after, path = before ++ failed :: after ∧ applied' = applied ++ before.map (·.num) ∧
      Executed d'.disk.undo.contents d.disk.contents (before.map (toApply newBlock newId))
        d'.disk.contents ∧
      (∀ num, num ∉ before.map (·.num) → d'.disk.undo.contents num = d.disk.undo.contents num) ∧
      d'.khaos = d.khaos ∧
      d'.pool = d.pool.map (dropAll env (before.map (blockToApply newBlock newId))) := by
  induction path generalizing applied d with
  | nil => cases h
  | cons kb rest ih =>
    obtain ⟨hkb, hrest⟩ := nodup_cons.1 hnum
    unfold applyBranch at h
    dsimp only at h
    split at h
    · rename_i s hexec
      obtain ⟨before, after, rfl, happ, hex, hundo, hkhaos, hpool⟩ := ih hrest h
      rw [(disk_onMempool _ _).1] at hex hundo
      rw [(disk_onMempool _ _).2] at hkhaos
      rw [pool_onMempool, Option.map_map] at hpool
      have hnot : kb.num ∉ before.map (·.num) := by
        intro hmem
        refine hkb ?_
        rw [map_append]
        exact mem_append_left _ hmem
      refine ⟨kb :: before, after, rfl, ?_, .step hexec (hundo kb.num hnot) hex, fun num hn => ?_, hkhaos, hpool⟩
      · rw [happ, append_assoc]
        rfl
      · obtain ⟨hne, hnot⟩ := not_or.1 fun h => hn (mem_cons.2 h)
        exact (hundo num hnot).trans (undo_executeBlock hexec hne)
    · rename_i e' s hexec
      cases h
      have hs := executeBlock_failed hexec
      subst hs
      refine ⟨[], rest, rfl, (append_nil _).symm, .nil _, fun _ _ => rfl, rfl, ?_⟩
      show d.pool = _
      cases d.pool <;> rfl

/-! ## The whole switch -/

/-- Numbers being distinct, a branch splits at a given number in one way. -/
theorem split_unique {l l' r r' : List (KhaosNode (NodeBlock st))} {x y : KhaosNode (NodeBlock st)}
    (hnum : ((l ++ x :: r).map (·.num)).Nodup) (h : l ++ x :: r = l' ++ y :: r')
    (hxy : x.num = y.num) : l = l' ∧ x = y ∧ r = r' := by
  induction l generalizing l' with
  | nil =>
    cases l' with
    | nil => exact ⟨rfl, (List.cons.inj h).1, (List.cons.inj h).2⟩
    | cons z l' =>
      obtain ⟨rfl, rfl⟩ := h
      simp [hxy] at hnum
  | cons z l ih =>
    cases l' with
    | nil =>
      obtain ⟨rfl, rfl⟩ := h
      simp [hxy] at hnum
    | cons z' l' =>
      rw [cons_append, cons_append, List.cons.injEq] at h
      obtain ⟨rfl, h⟩ := h
      obtain ⟨rfl, hx, hr⟩ := ih (nodup_cons.1 hnum).2 h
      exact ⟨rfl, hx, hr⟩

/-- What is left after a switch that was given up at `failed`, with `before` applied and `after` not
reached; `base` is the state of the common ancestor. -/
structure Aborted (env : DriverEnv) (newBlock : NodeBlock st) (newId : BlockId)
    (pathOld before after : List (KhaosNode (NodeBlock st))) (failed : KhaosNode (NodeBlock st))
    (base : StoreId → Contents) (d d' : SyncDriver st) : Prop where
  state : d'.disk.contents = d.disk.contents
  records : ∀ kb ∈ pathOld, ∃ r r', d.disk.undo.contents kb.num = some r ∧
    d'.disk.undo.contents kb.num = some r' ∧ r'.Perm r
  unlinked : ∀ kb ∈ before ++ failed :: after, d'.khaos.containsInLinked kb.id = false
  pool : d'.pool = d.pool.map fun acc => dropAll env (before.map (blockToApply newBlock newId))
    (repushReorgedTxs env base (pathOld.map (·.block)) acc)

variable {pathOld pathNew before after : List (KhaosNode (NodeBlock st))}
  {failed : KhaosNode (NodeBlock st)} {base : StoreId → Contents} {d : SyncDriver st} {head : BlockId}

theorem linked_repointHead (db : KhaosDb (NodeBlock st)) (id : BlockId) :
    (repointHead head db).containsInLinked id = db.containsInLinked id := by
  unfold repointHead
  split <;> rfl

theorem restoreOldBranch_spec {d₂ : SyncDriver st} (head : BlockId) (e : ApplyError String)
    (hold : ((pathOld.reverse.map toBranchBlock).map (·.num)).Nodup) (hbefore : (before.map (·.num)).Nodup)
    (hex : Executed d.disk.undo.contents base (pathOld.reverse.map toBranchBlock) d.disk.contents)
    (hex₂ : Executed d₂.disk.undo.contents base (before.map (toApply newBlock newId))
      d₂.disk.contents) (hnew : pathNew.reverse = before ++ failed :: after)
    (hpool : d₂.pool = d.pool.map fun acc => dropAll env (before.map (blockToApply newBlock newId))
      (repushReorgedTxs env base (pathOld.map (·.block)) acc)) :
    let r := restoreOldBranch env head pathOld pathNew failed e (before.map (·.num)) d₂
    r.1 = .rejectedExecution (.applyFailed failed.num e) ∧
      Aborted env newBlock newId pathOld before after failed base d r.2 := by
  have hnums : (before.map (toApply newBlock newId)).map (·.num) = before.map (·.num) := by
    rw [map_map]
    rfl
  obtain ⟨s₃, hroll, hc₃, -⟩ := hex₂.rollback (by rw [hnums]; exact hbefore) rfl fun _ _ => rfl
  rw [hnums] at hroll
  obtain ⟨n, s₄, hre, hc₄, hrecs, -⟩ := hex.reapply hold env.exec env.order d₂.executions hc₃
  intro r
  have hr : r = (.rejectedExecution (.applyFailed failed.num e),
      { d₂ with
        disk := s₄
        executions := n
        khaos := repointHead head (d₂.khaos.removeAll pathNew) }) := by
    show restoreOldBranch env head pathOld pathNew failed e (before.map (·.num)) d₂ = _
    simp only [restoreOldBranch, (rollbackLoops_ok hroll).2, hre]
  rw [hr]
  refine ⟨rfl, hc₄, fun kb hkb => ?_, fun kb hkb => ?_, hpool⟩
  · refine hrecs (toBranchBlock kb) (mem_map.2 ⟨kb, ?_, rfl⟩)
    exact mem_reverse.2 hkb
  · rw [linked_repointHead, KhaosDb.linked_removeAll]
    have hmem : kb.id ∈ pathNew.map (·.id) := by
      refine mem_map.2 ⟨kb, ?_, rfl⟩
      rw [← hnew] at hkb
      exact mem_reverse.1 hkb
    simp [hmem]

/-- **A switch is made or given up.** Whichever block of the new branch fails, the old branch is
restored: the recovery cannot fail. -/
theorem switchBranch_cases (hold : (pathOld.map (·.num)).Nodup) (hnew : (pathNew.map (·.num)).Nodup)
    (hex : Executed d.disk.undo.contents base (pathOld.reverse.map toBranchBlock) d.disk.contents) :
    (switchBranch env newBlock newId head pathOld pathNew d).1 = .accepted newId ∨
      ∃ before failed after e, pathNew.reverse = before ++ failed :: after ∧
        (switchBranch env newBlock newId head pathOld pathNew d).1 = .rejectedExecution (.applyFailed failed.num e) ∧
        Aborted env newBlock newId pathOld before after failed base d
          (switchBranch env newBlock newId head pathOld pathNew d).2 := by
  have hnums : (pathOld.reverse.map toBranchBlock).map (·.num) = (pathOld.map (·.num)).reverse := by
    rw [map_map, map_reverse]
    rfl
  have hold' : ((pathOld.reverse.map toBranchBlock).map (·.num)).Nodup := by
    rw [hnums]
    exact nodup_reverse.2 hold
  -- the old branch is rolled back
  obtain ⟨s₁, hroll, hc₁, hu₁⟩ := hex.rollback hold' rfl fun _ _ => rfl
  rw [hnums, reverse_reverse] at hroll
  unfold switchBranch
  rw [(rollbackLoops_ok hroll).1]
  dsimp only
  rw [hc₁]
  -- the new branch is applied as far as it goes
  rcases hrun : applyBranch env newBlock newId pathNew.reverse []
    (({ d with disk := s₁ } : SyncDriver st).onMempool
      (repushReorgedTxs env base (pathOld.map (·.block)))) with ⟨_ | ⟨failed, e⟩, applied, d₂⟩
  · rw [hrun]
    exact Or.inl rfl
  · rw [hrun]
    have hnew' : (pathNew.reverse.map (·.num)).Nodup := by
      rw [map_reverse]
      exact nodup_reverse.2 hnew
    obtain ⟨before, after, hsplit, happ, hex₂, -, -, hpool⟩ := applyBranch_failed hnew' hrun
    subst happ
    rw [(disk_onMempool _ _).1, hc₁] at hex₂
    rw [pool_onMempool, Option.map_map] at hpool
    have hbefore : (before.map (·.num)).Nodup := by
      rw [hsplit, map_append] at hnew'
      exact hnew'.of_append_left
    obtain ⟨hout, hab⟩ := restoreOldBranch_spec head e hold' hbefore hex hex₂ hsplit hpool
    exact Or.inr ⟨before, failed, after, e, hsplit, hout, hab⟩

/-! ## The node after a switch that was given up -/

/-- The transactions of the restored chain: those of the blocks up to the common ancestor, and those of
the old branch. -/
def restoredTxs (codec : TxCodec) (older : List TxId) (pathOld : List (KhaosNode (NodeBlock st))) : List TxId :=
  older ++ (pathOld.flatMap (·.block.transactions)).filterMap (·.id codec)

/-- The node is as it was before the call, the rejected blocks are not linked any more, and no
transaction of the restored chain is pending.  An undo record lists its entries in the order of a hash
map, so records are compared up to that order. -/
structure AsBefore (codec : TxCodec) (older : List TxId)
    (pathOld rejected : List (KhaosNode (NodeBlock st))) (d d' : SyncDriver st) : Prop where
  state : ∀ id, d'.disk.contents id = d.disk.contents id
  records : ∀ kb ∈ pathOld, ∃ r r', d.disk.undo.contents kb.num = some r ∧
    d'.disk.undo.contents kb.num = some r' ∧ r'.Perm r
  head : executedHead d'.disk.contents = executedHead d.disk.contents
  unlinked : ∀ kb ∈ rejected, d'.khaos.containsInLinked kb.id = false
  mempool : ∀ pool, d'.mempool = some pool → ∀ id ∈ restoredTxs codec older pathOld, id ∉ pool.pending

/-- Every transaction of the restored chain that is in the pool after the re-push leaves it with one of
the blocks `before`. -/
def RepushedLeave (env : DriverEnv) (newBlock : NodeBlock st) (newId : BlockId) (older : List TxId)
    (pathOld before : List (KhaosNode (NodeBlock st))) (base : StoreId → Contents) (d : SyncDriver st) : Prop :=
  ∀ pool, d.mempool = some pool →
    let repushed := repushReorgedTxs env base (pathOld.map (·.block)) (pool, d.clockReads)
    ∀ id ∈ restoredTxs env.codec older pathOld, ∀ p, repushed.1.pending.lookup id = some p →
      Leaves env repushed.1.config id p (before.map (blockToApply newBlock newId)) repushed.2

/-- The pool of an aborted switch is free of restored transactions exactly if all of them left it. -/
theorem Aborted.mempool_iff {d' : SyncDriver st} (older : List TxId)
    (h : Aborted env newBlock newId pathOld before after failed base d d') :
    (∀ pool, d'.mempool = some pool → ∀ id ∈ restoredTxs env.codec older pathOld, id ∉ pool.pending) ↔
      RepushedLeave env newBlock newId older pathOld before base d := by
  have hpool := h.pool
  unfold SyncDriver.pool at hpool
  unfold RepushedLeave
  cases hm : d.mempool with
  | none =>
    rw [hm] at hpool
    have hnone : d'.mempool = none := Option.map_eq_none_iff.1 hpool
    rw [hnone]
    exact ⟨fun _ => nofun, fun _ => nofun⟩
  | some pool =>
    rw [hm] at hpool
    obtain ⟨pool', hm', heq⟩ := Option.map_eq_some_iff.1 hpool
    have hpool' : pool' = (dropAll env (before.map (blockToApply newBlock newId))
      (repushReorgedTxs env base (pathOld.map (·.block)) (pool, d.clockReads))).1 :=
      congrArg Prod.fst heq
    rw [hm']
    constructor
    · rintro hfree _ ⟨⟩ repushed id hid p hp
      by_contra hstay
      have hstill := (lookup_dropAll (before.map (blockToApply newBlock newId)) _ id p).2 ⟨hp, hstay⟩
      rw [← hpool'] at hstill
      exact hfree pool' rfl id hid (AList.lookup_isSome.1 (by rw [hstill]; rfl))
    · rintro hleave _ ⟨⟩ id hid hmem
      obtain ⟨p, hp⟩ := Option.isSome_iff_exists.1 (AList.lookup_isSome.2 hmem)
      rw [hpool'] at hp
      obtain ⟨hrep, hstay⟩ := (lookup_dropAll _ _ id p).1 hp
      exact hstay (hleave pool rfl id hid p hrep)

/-- **An aborted reorg.**  Whichever block of the new branch fails: when `performReorg` returns with the original chain
restored, the node is as it was before the call, the new branch from the failing block on is not linked and no
transaction of the restored chain is pending if and only if every such transaction that the re-push left in the pool
has left it with a block applied before the failing one. -/
theorem abort_restores_iff (env : DriverEnv) (newBlock : NodeBlock st) (newId : BlockId)
    (d : SyncDriver st) (hhead : executedHead d.disk.contents = some head)
    (hbranch : d.khaos.getBranch env.held head newId = some (pathOld, pathNew))
    (hold : Executed d.disk.undo.contents base (pathOld.reverse.map toBranchBlock) d.disk.contents)
    (hnew : pathNew.reverse = before ++ failed :: after) {e : ApplyError String}
    (hfail : (performReorg env newBlock newId d).1 =
      .rejectedExecution (.applyFailed failed.num e)) (older : List TxId) :
    AsBefore env.codec older pathOld (failed :: after) d (performReorg env newBlock newId d).2 ↔
      RepushedLeave env newBlock newId older pathOld before base d := by
  obtain ⟨hnumOld, hnumNew⟩ := KhaosDb.getBranch_nodup hbranch
  unfold performReorg at hfail ⊢
  rw [hhead] at hfail ⊢
  dsimp only at hfail ⊢
  rw [hbranch] at hfail ⊢
  dsimp only at hfail ⊢
  split at hfail
  · cases hfail
  · rcases @switchBranch_cases st env newBlock newId pathOld pathNew base d head hnumOld hnumNew hold with
      hacc | ⟨before', failed', after', e', hnew', hout, hab⟩
    · rw [hacc] at hfail
      cases hfail
    · rw [hout] at hfail
      obtain ⟨hnum, -⟩ := ReorgError.applyFailed.inj (AcceptOutcome.rejectedExecution.inj hfail)
      have hnums : ((before' ++ failed' :: after').map (·.num)).Nodup := by
        rw [← hnew', map_reverse]
        exact nodup_reverse.2 hnumNew
      obtain ⟨rfl, rfl, rfl⟩ := split_unique hnums (hnew'.symm.trans hnew) hnum
      refine ⟨fun h => (hab.mempool_iff older).1 h.mempool, fun h => ?_⟩
      refine ⟨fun id => congrFun hab.state id, hab.records, by rw [hab.state],
        fun kb hkb => hab.unlinked kb (mem_append_right _ hkb), (hab.mempool_iff older).2 h⟩

/-! ## Two small forks -/

namespace Fork

/-- A codec in which a transaction is its own encoding and identifier. -/
def plainCodec : TxCodec where
  decode raw := .ok ⟨some ⟨0, raw⟩, [List.replicate 65 0]⟩
  sha256 := id
  txIdFromTxBytes _ := none
  recoverAllSigners _ _ := .ok [[1]]

def plainEnv : DriverEnv where
  exec := ⟨.checkpoint false, false⟩
  order _ _ := .inserted
  clock _ := 0
  codec := plainCodec
  validator := none
  held _ := false

/-- The transaction with identifier `[7]`. -/
def tx : BlockTx := ⟨⟨some ⟨0, [7]⟩, [List.replicate 65 0]⟩, none, [7]⟩

def blockId (x : UInt8) : BlockId := List.replicate 32 x

/-- A block that only becomes the head. -/
def good (x : UInt8) (txs : List BlockTx) : NodeBlock allAttached :=
  ⟨pure (.ok [⟨.dynProps, ⟨latestBlockHeaderHash, some (blockId x)⟩, attached_all _⟩]), txs⟩

def bad : NodeBlock allAttached := ⟨pure (.error "invalid"), []⟩

def ancestor : KhaosNode (NodeBlock allAttached) := ⟨good 1 [], blockId 1, 1, 0⟩

/-- The old head, which includes the transaction. -/
def old : KhaosNode (NodeBlock allAttached) := ⟨good 2 [tx], blockId 2, 2, 1⟩

variable (b : NodeBlock allAttached)

/-- The two blocks of the new branch. -/
def first : KhaosNode (NodeBlock allAttached) := ⟨b, blockId 3, 2, 2⟩

def second : KhaosNode (NodeBlock allAttached) := ⟨bad, blockId 4, 3, 3⟩

/-- The old branch is one block on top of the ancestor, the new one two blocks; the pool is empty. -/
def driver : SyncDriver allAttached where
  disk := (executeBlock plainEnv.exec (plainEnv.order 0) (toBranchBlock old) emptyDisk).2
  khaos :=
    { head := none
      miniStore := ((((KhaosStore.empty.insert ⟨ancestor, [], by simp⟩).insert
        ⟨old, [ancestor], by simp [old, ancestor]⟩).insert
        ⟨first b, [ancestor], by simp [first, ancestor]⟩).insert
        ⟨second, [first b, ancestor], by simp [second, first, ancestor]⟩)
      miniUnlinkedStore := .empty }
  mempool := some ⟨.default, ∅, ∅, [], none⟩
  executions := 1
  clockReads := 0

theorem executed_old :
    Executed (driver b).disk.undo.contents emptyDisk.contents ([old].reverse.map toBranchBlock)
      (driver b).disk.contents := by
  obtain ⟨d, hexec, -⟩ := @executeBlock_ok allAttached String plainEnv.exec (plainEnv.order 0)
    (toBranchBlock old) emptyDisk _ rfl
  have hdisk : (driver b).disk = d := congrArg Prod.snd hexec
  rw [hdisk]
  exact .step hexec rfl (.nil _)

end Fork

section

open Fork

/-- The new branch's first block includes the transaction too; its second block fails. -/
theorem abort_restores_iff_included :
    AsBefore plainCodec [] [old] [second] (driver (good 3 [tx]))
      (performReorg plainEnv bad (blockId 4) (driver (good 3 [tx]))).2 := by
  have hhead : executedHead (driver (good 3 [tx])).disk.contents = some (blockId 2) := by decide
  have hbranch : (driver (good 3 [tx])).khaos.getBranch plainEnv.held (blockId 2) (blockId 4) =
      some ([old], [second, first (good 3 [tx])]) := rfl
  have hnew : [second, first (good 3 [tx])].reverse = [first (good 3 [tx])] ++ second :: [] := rfl
  have hfail : (performReorg plainEnv bad (blockId 4) (driver (good 3 [tx]))).1 =
      .rejectedExecution (.applyFailed second.num (.exec "invalid")) := rfl
  refine (abort_restores_iff plainEnv bad (blockId 4) _ hhead hbranch (executed_old _) hnew hfail []).2 ?_
  rintro pool ⟨⟩ repushed id hid p -
  rw [mem_singleton.1 hid]
  exact Or.inl (by decide)

/-- **A restored transaction stays pending.** The old head includes a transaction; the first block of
the new branch fails, the old head is executed again, and the transaction is in the pool. -/
theorem restored_tx_stays_pending :
    executedHead (driver bad).disk.contents = some (blockId 2) ∧
      (driver bad).khaos.getBranch plainEnv.held (blockId 2) (blockId 4) = some ([old], [second, first bad]) ∧
      Executed (driver bad).disk.undo.contents emptyDisk.contents ([old].reverse.map toBranchBlock)
        (driver bad).disk.contents ∧
      (performReorg plainEnv bad (blockId 4) (driver bad)).1 =
        .rejectedExecution (.applyFailed (first bad).num (.exec "invalid")) ∧
      ¬AsBefore plainCodec [] [old] [first bad, second] (driver bad)
        (performReorg plainEnv bad (blockId 4) (driver bad)).2 :=
  ⟨by decide, rfl, executed_old bad, rfl, fun h => h.mempool _ rfl [7] (by decide) (by decide)⟩

end

end TronGoblin
