import TronGoblin.Consensus.KhaosStore

/-!
# What a call does to the fork tree

* `linking`: the block that a call links; `linking_spec` says how it hangs in the tree.
* `LinkedMove`, `StashMove`: all that a call can do to the linked store, and to the stash with the
  bytes kept for it.
* `step_moves`: every call makes one move of each kind.
-/

namespace TronGoblin

open Option KhaosNode

namespace KhaosDb

open KhaosStore (Kept Agree Numbered notBelow)

variable {B : Type} {fmt : BlockFormat B} {g g' : Inner B} {c : Call B} {id : BlockId}

/-! ## What a call does -/

/-- The block that the call links. -/
def linking (fmt : BlockFormat B) (g : Inner B) : Call B → Option (KhaosBlock (WireBlock B))
  | .start block => (newWithRaw fmt g.allocated block none).map .root
  | .pushWithRaw block raw _ => do
    let n ← newWithRaw fmt g.allocated block raw
    if g.containsInLinked n.id then none
    else
      match g.parentToLink fmt n with
      | none => some (.root n)
      | some parentId => do
        let p ← g.miniStore.byHash.lookup parentId
        if h : n.num = p.node.num + 1 then some (.child n p h) else none
  | _ => none

/-- The block's parent is in the store, one number below. -/
def HasParent (fmt : BlockFormat B) (s : KhaosStore (WireBlock B)) (b : KhaosBlock (WireBlock B)) : Prop :=
  ∃ pid p, b.node.parentId fmt = some pid ∧ s.byHash.lookup pid = some p ∧ b.node.num = p.node.num + 1

/-- A block is linked by `start`, or by a push of a block that was not linked; in the second case it
has no parent pointer, or its parent is linked. -/
theorem linking_spec {b : KhaosBlock (WireBlock B)} (h : linking fmt g c = some b) :
    b.node.num = BlockId.height b.node.id ∧
      ((b.ancestors = [] ∧ ∃ block, c = .start block ∧ blockIdFromBlock fmt block = some b.node.id) ∨
        (g.miniStore.contains b.node.id = false ∧ (b.ancestors = [] ∨ HasParent fmt g.miniStore b))) := by
  cases c with
  | start block =>
    obtain ⟨n, hn, rfl⟩ := map_eq_some_iff.1 h
    refine ⟨newWithRaw_num hn, .inl ⟨rfl, block, rfl, ?_⟩⟩
    obtain ⟨id, hid, hn⟩ := map_eq_some_iff.1 hn
    rw [hid, ← hn]
    rfl
  | pushWithRaw block raw held =>
    obtain ⟨n, hn, h⟩ := bind_eq_some_iff.1 h
    have hnum := newWithRaw_num hn
    split at h
    · cases h
    · rename_i hlinked
      have hfresh : g.miniStore.contains n.id = false := Bool.eq_false_iff.2 hlinked
      split at h
      · cases h
        exact ⟨hnum, .inr ⟨hfresh, .inl rfl⟩⟩
      · rename_i pid hpid
        obtain ⟨p, hp, h⟩ := bind_eq_some_iff.1 h
        split at h
        · rename_i heq
          cases h
          refine ⟨hnum, .inr ⟨hfresh, .inr ⟨pid, p, ?_, hp, heq⟩⟩⟩
          unfold Inner.parentToLink at hpid
          split at hpid
          · exact (filter_eq_some_iff.1 hpid).1
          · cases hpid
        · cases h
  | takeOrphansWaitingOn parent => cases h
  | remove id => cases h
  | pop held => cases h
  | setHead b => cases h
  | setMaxSize m => cases h

inductive LinkedMove (fmt : BlockFormat B) (g g' : Inner B) (c : Call B) : Prop where
  | same (h : g'.miniStore = g.miniStore)
  | link (b : KhaosBlock (WireBlock B)) (t : Int) (hb : linking fmt g c = some b)
      (h : Kept (notBelow t) (g.miniStore.insert b) g'.miniStore)
  | drop (id : BlockId) (hc : c = .remove id) (hid : g.miniStore.contains id = true)
      (h : Kept (fun id' => decide (id' ≠ id)) g.miniStore g'.miniStore)

/-- What a call does to the stash and to the bytes kept for it. -/
inductive StashMove (g g' : Inner B) (c : Call B) : Prop where
  | same (h : g'.miniUnlinkedStore = g.miniUnlinkedStore) (hraw : g'.orphanRaw = g.orphanRaw)
  /-- A linked block prunes the stash. -/
  | prune (t : Int) (h : Kept (notBelow t) g.miniUnlinkedStore g'.miniUnlinkedStore)
      (hraw : ∀ id ∈ g'.orphanRaw, g'.miniUnlinkedStore.contains id = true)
  /-- A block is stashed, and prunes the stash. -/
  | stash (n : WireNode B) (t : Int) (hlinked : g.miniStore.contains n.id = false)
      (hsame : g'.miniStore = g.miniStore) (hnum : n.num = BlockId.height n.id)
      (hfresh : g.miniUnlinkedStore.contains n.id = false)
      (h : Kept (notBelow t) (g.miniUnlinkedStore.insert (.root n)) g'.miniUnlinkedStore)
      (hraw : ∀ id ∈ g'.orphanRaw, g'.miniUnlinkedStore.contains id = true)
  /-- Blocks are taken with the bytes kept for them. -/
  | take (keep : BlockId → Bool) (h : Kept keep g.miniUnlinkedStore g'.miniUnlinkedStore)
      (hraw : ∀ id ∈ g'.orphanRaw, keep id = true ∧ id ∈ g.orphanRaw)
  /-- A block is removed, and its bytes stay. -/
  | drop (id : BlockId) (hc : c = .remove id)
      (h : Kept (fun id' => decide (id' ≠ id)) g.miniUnlinkedStore g'.miniUnlinkedStore)
      (hraw : g'.orphanRaw = g.orphanRaw)

/-! ### Pushes -/

theorem stores_promote (g : Inner B) (b : KhaosBlock (WireBlock B)) :
    (g.promoteHeadIfHigher b).miniStore = g.miniStore ∧
      (g.promoteHeadIfHigher b).miniUnlinkedStore = g.miniUnlinkedStore ∧
      (g.promoteHeadIfHigher b).orphanRaw = g.orphanRaw := by
  unfold Inner.promoteHeadIfHigher
  split
  · exact ⟨rfl, rfl, rfl⟩
  · split <;> exact ⟨rfl, rfl, rfl⟩

theorem stashed_of_mem_pruneOrphanRaw (h : id ∈ g.pruneOrphanRaw.orphanRaw) :
    g.pruneOrphanRaw.miniUnlinkedStore.contains id = true := by
  rw [← AList.lookup_isSome] at h
  unfold Inner.pruneOrphanRaw at h
  rw [Assoc.lookup_retain] at h
  obtain ⟨v, hv⟩ := isSome_iff_exists.1 h
  exact (filter_eq_some_iff.1 hv).2

theorem stores_await (g : Inner B) (n : WireNode B) (pid : BlockId) :
    (g.await n pid).miniStore = g.miniStore ∧
      (g.await n pid).miniUnlinkedStore = if g.miniUnlinkedStore.contains n.id then
        g.miniUnlinkedStore else g.miniUnlinkedStore.insert (.root n) := by
  unfold Inner.await
  split <;> exact ⟨rfl, rfl⟩

theorem stores_keepRaw (g : Inner B) (id : BlockId) (raw : Option Bytes) :
    (g.keepRaw id raw).miniStore = g.miniStore ∧ (g.keepRaw id raw).miniUnlinkedStore = g.miniUnlinkedStore := by
  cases raw <;> exact ⟨rfl, rfl⟩

/-- The state in which a push decides: one more block is allocated. -/
def allocating (g : Inner B) : Inner B := { g with allocated := g.allocated + 1 }

theorem pushWithRaw_cases {held : Nat → Bool} {block : B} {raw : Option Bytes}
    (h : (g.pushWithRaw fmt held block raw).2 = g') :
    (∃ b, linking fmt g (.pushWithRaw block raw held) = some b ∧ g' = ((allocating g).linked b).prune) ∨
    (∃ n pid, n.serial = g.allocated ∧ n.num = BlockId.height n.id ∧ g.miniStore.contains n.id = false ∧
      g' = (allocating g).stash n pid raw) ∨
    (g' = g ∨ g' = allocating g) := by
  have hlink : linking fmt g (.pushWithRaw block raw held) = (newWithRaw fmt g.allocated block raw).bind fun n =>
        if g.containsInLinked n.id then none
        else
          match g.parentToLink fmt n with
          | none => some (.root n)
          | some parentId => (g.miniStore.byHash.lookup parentId).bind fun p =>
            if h : n.num = p.node.num + 1 then some (.child n p h) else none := rfl
  unfold Inner.pushWithRaw at h
  cases hn : newWithRaw fmt g.allocated block raw with
  | none =>
    rw [hn] at h
    exact .inr (.inr (.inl h.symm))
  | some n =>
    rw [hn, bind_some] at hlink
    rw [hn] at h
    change (if g.containsInLinked n.id = true then _ else
      match g.parentToLink fmt n with
      | none => _
      | some parentId => _ : Except PushError (PushOutcome B) × Inner B).2 = g' at h
    by_cases hlinked : g.containsInLinked n.id = true
    · rw [if_pos hlinked] at h
      exact .inr (.inr (.inr h.symm))
    · rw [if_neg hlinked] at hlink h
      have hfresh : g.miniStore.contains n.id = false := Bool.eq_false_iff.2 hlinked
      cases hpid : g.parentToLink fmt n with
      | none =>
        rw [hpid] at hlink h
        exact .inl ⟨.root n, hlink, h.symm⟩
      | some pid =>
        rw [hpid] at hlink h
        dsimp only at hlink h
        cases hp : g.miniStore.byHash.lookup pid with
        | none =>
          rw [hp] at h
          exact .inr (.inl ⟨n, pid, newWithRaw_serial hn, newWithRaw_num hn, hfresh, h.symm⟩)
        | some p =>
          rw [hp] at hlink h
          rw [bind_some] at hlink
          dsimp only at h
          by_cases heq : n.num = p.node.num + 1
          · rw [dif_pos heq] at hlink h
            exact .inl ⟨.child n p heq, hlink, h.symm⟩
          · rw [dif_neg heq] at h
            exact .inr (.inr (.inr h.symm))

/-! ### One step -/

/-- Blocks are at the numbers their ids give, and the stash is indexed consistently. -/
structure Ordered (g : Inner B) : Prop where
  linked : g.miniStore.Numbered
  stashed : g.miniUnlinkedStore.Numbered
  agree : ∀ id, g.miniUnlinkedStore.Agree id

theorem kept_linked (hg : g.miniStore.Numbered) {b : KhaosBlock (WireBlock B)} (hb : linking fmt g c = some b) :
    Kept (notBelow ((allocating g).linked b).threshold) (g.miniStore.insert b)
      ((allocating g).linked b).prune.miniStore := by
  have hstore : ((allocating g).linked b).miniStore = g.miniStore.insert b := (stores_promote ..).1
  have hkept := (hg.insert (linking_spec hb).1).kept_pruneBelow ((allocating g).linked b).threshold
  rw [← hstore] at hkept ⊢
  exact hkept

theorem linkedMove_prune (hg : g.miniStore.Numbered) {b : KhaosBlock (WireBlock B)} (hb : linking fmt g c = some b) :
    LinkedMove fmt g ((allocating g).linked b).prune c :=
  .link b ((allocating g).linked b).threshold hb (kept_linked hg hb)

theorem kept_stashed (hg : g.miniUnlinkedStore.Numbered) (b : KhaosBlock (WireBlock B)) :
    Kept (notBelow ((allocating g).linked b).threshold) g.miniUnlinkedStore
      ((allocating g).linked b).prune.miniUnlinkedStore := by
  have hstore : ((allocating g).linked b).miniUnlinkedStore = g.miniUnlinkedStore :=
    (stores_promote ..).2.1
  have hkept := hg.kept_pruneBelow ((allocating g).linked b).threshold
  rw [← hstore] at hkept ⊢
  exact hkept

theorem stashMove_prune (hg : g.miniUnlinkedStore.Numbered) (b : KhaosBlock (WireBlock B)) :
    StashMove g ((allocating g).linked b).prune c := by
  refine .prune ((allocating g).linked b).threshold (kept_stashed hg b) ?_
  exact fun id hid => stashed_of_mem_pruneOrphanRaw hid

theorem miniStore_stash (g : Inner B) (n : WireNode B) (pid : BlockId) (raw : Option Bytes) :
    ((allocating g).stash n pid raw).miniStore = g.miniStore := by
  show (((allocating g).await n pid).keepRaw n.id raw).miniStore = g.miniStore
  rw [(stores_keepRaw ..).1, (stores_await ..).1]
  rfl

theorem stashMove_stash (hg : g.miniUnlinkedStore.Numbered) {n : WireNode B} (pid : BlockId) (raw : Option Bytes)
    (hnum : n.num = BlockId.height n.id) (hlinked : g.miniStore.contains n.id = false) :
    StashMove g ((allocating g).stash n pid raw) c := by
  have hsame := miniStore_stash g n pid raw
  generalize hw : ((allocating g).await n pid).keepRaw n.id raw = w
  have hstore : w.miniUnlinkedStore = if g.miniUnlinkedStore.contains n.id then
      g.miniUnlinkedStore else g.miniUnlinkedStore.insert (.root n) := by
    rw [← hw, (stores_keepRaw ..).2, (stores_await ..).2]
    rfl
  have hraw : ∀ id ∈ ((allocating g).stash n pid raw).orphanRaw,
      ((allocating g).stash n pid raw).miniUnlinkedStore.contains id = true := by
    exact fun id hid => stashed_of_mem_pruneOrphanRaw hid
  have hpruned : ((allocating g).stash n pid raw).miniUnlinkedStore = w.miniUnlinkedStore.pruneBelow w.threshold := by
    rw [← hw]
    rfl
  by_cases hc : g.miniUnlinkedStore.contains n.id = true
  · refine .prune w.threshold ?_ hraw
    rw [hpruned, hstore, if_pos hc]
    exact hg.kept_pruneBelow w.threshold
  · refine .stash n w.threshold hlinked hsame hnum (Bool.eq_false_iff.2 hc) ?_ hraw
    rw [hpruned, hstore, if_neg hc]
    exact (hg.insert hnum).kept_pruneBelow w.threshold

theorem stashMove_take (hg : g.miniUnlinkedStore.Numbered) (ids : List BlockId) (num : Int)
    (out : List (B × Option Bytes)) :
    ∃ keep, Kept keep g.miniUnlinkedStore
        (ids.foldl (Inner.takeOrphan num) (g, out)).1.miniUnlinkedStore ∧
      (∀ id ∈ (ids.foldl (Inner.takeOrphan num) (g, out)).1.orphanRaw, keep id = true ∧ id ∈ g.orphanRaw) ∧
      (ids.foldl (Inner.takeOrphan num) (g, out)).1.miniStore = g.miniStore := by
  induction ids generalizing g out with
  | nil => exact ⟨fun _ => true, .refl _, fun id hid => ⟨rfl, hid⟩, rfl⟩
  | cons id ids ih =>
    rw [List.foldl_cons]
    unfold Inner.takeOrphan
    cases hl : g.miniUnlinkedStore.byHash.lookup id with
    | none => exact ih hg out
    | some child =>
      -- the block leaves the stash together with its bytes
      obtain ⟨s', hs'⟩ : ∃ s', g.miniUnlinkedStore.remove id = some s' := by
        unfold KhaosStore.remove
        rw [hl]
        exact ⟨_, rfl⟩
      have hkept := hg.kept_remove hs'
      have hrest : ∀ out', ∃ keep, Kept keep g.miniUnlinkedStore
          (ids.foldl (Inner.takeOrphan num) ({ g with
            miniUnlinkedStore := s', orphanRaw := g.orphanRaw.erase id }, out')).1.miniUnlinkedStore ∧
          (∀ id' ∈ (ids.foldl (Inner.takeOrphan num) ({ g with
            miniUnlinkedStore := s', orphanRaw := g.orphanRaw.erase id }, out')).1.orphanRaw,
            keep id' = true ∧ id' ∈ g.orphanRaw) ∧
          (ids.foldl (Inner.takeOrphan num) ({ g with
            miniUnlinkedStore := s', orphanRaw := g.orphanRaw.erase id }, out')).1.miniStore =
              g.miniStore := by
        intro out'
        obtain ⟨keep, h₁, h₂, h₃⟩ := @ih { g with
          miniUnlinkedStore := s', orphanRaw := g.orphanRaw.erase id } (hkept.numbered hg) out'
        refine ⟨_, hkept.trans h₁, fun id' hid' => ?_, h₃⟩
        obtain ⟨hkeep, hmem⟩ := h₂ id' hid'
        obtain ⟨hne, hmem⟩ := AList.mem_erase.1 hmem
        exact ⟨by rw [hkeep, Bool.and_true]; exact decide_eq_true hne, hmem⟩
      rw [hs']
      dsimp [getD_some]
      split
      · exact hrest _
      · exact hrest _

theorem contains_of_remove {B : Type} {s s' : KhaosStore B} {id : BlockId}
    (h : s.remove id = some s') : s.contains id = true := by
  unfold KhaosStore.remove at h
  unfold KhaosStore.contains
  cases hl : s.byHash.lookup id with
  | none =>
    rw [hl] at h
    cases h
  | some b => rfl

theorem start_moves (g : Inner B) (block : B) :
    LinkedMove fmt g (g.start fmt block).2 (.start block) ∧ StashMove g (g.start fmt block).2 (.start block) := by
  have hlink : linking fmt g (.start block) = (newWithRaw fmt g.allocated block none).map .root := rfl
  unfold Inner.start
  cases hn : newWithRaw fmt g.allocated block none with
  | none => exact ⟨.same rfl, .same rfl rfl⟩
  | some n =>
    rw [hn] at hlink
    refine ⟨.link (.root n) 0 hlink ?_, .same rfl rfl⟩
    exact .refl _

theorem remove_moves (hg : Ordered g) (id : BlockId) :
    LinkedMove fmt g (g.remove id) (.remove id) ∧ StashMove g (g.remove id) (.remove id) := by
  unfold Inner.remove KhaosDb.remove
  cases hr : g.miniStore.remove id with
  | some s' =>
    exact ⟨.drop id rfl (contains_of_remove hr) (hg.linked.kept_remove hr), .same rfl rfl⟩
  | none =>
    cases hu : g.miniUnlinkedStore.remove id with
    | some s' => exact ⟨.same rfl, .drop id rfl (hg.stashed.kept_remove hu) rfl⟩
    | none => exact ⟨.same rfl, .same rfl rfl⟩

theorem step_moves (hg : Ordered g) (c : Call B) :
    LinkedMove fmt g (step fmt g c) c ∧ StashMove g (step fmt g c) c := by
  cases c with
  | start block => exact start_moves g block
  | pushWithRaw block raw held =>
    show LinkedMove fmt g (g.pushWithRaw fmt held block raw).2 _ ∧ StashMove g (g.pushWithRaw fmt held block raw).2 _
    rcases @pushWithRaw_cases _ fmt g _ held block raw rfl with
      ⟨b, hb, h⟩ | ⟨n, pid, -, hnum, hlinked, h⟩ | h | h
    · rw [h]
      exact ⟨linkedMove_prune hg.linked hb, stashMove_prune hg.stashed b⟩
    · rw [h]
      exact ⟨.same (miniStore_stash ..), stashMove_stash hg.stashed pid raw hnum hlinked⟩
    · rw [h]
      exact ⟨.same rfl, .same rfl rfl⟩
    · rw [h]
      exact ⟨.same rfl, .same rfl rfl⟩
  | takeOrphansWaitingOn parent =>
    show LinkedMove fmt g (g.takeOrphansWaitingOn parent).1 _ ∧ StashMove g (g.takeOrphansWaitingOn parent).1 _
    unfold Inner.takeOrphansWaitingOn
    cases hl : g.miniStore.byHash.lookup parent with
    | none => exact ⟨.same rfl, .same rfl rfl⟩
    | some p =>
      obtain ⟨keep, hkept, hraw, hsame⟩ := @stashMove_take _
        { g with byParent := g.byParent.erase parent } hg.stashed
        ((g.byParent.lookup parent).getD []) p.node.num []
      exact ⟨.same hsame, .take keep hkept hraw⟩
  | remove id => exact remove_moves hg id
  | pop held =>
    show LinkedMove fmt g (g.pop held).2 _ ∧ StashMove g (g.pop held).2 _
    unfold Inner.pop
    split
    · split <;> exact ⟨.same rfl, .same rfl rfl⟩
    · exact ⟨.same rfl, .same rfl rfl⟩
  | setHead b => exact ⟨.same rfl, .same rfl rfl⟩
  | setMaxSize m =>
    show LinkedMove fmt g (g.setMaxSize m) _ ∧ StashMove g (g.setMaxSize m) _
    unfold Inner.setMaxSize
    exact ⟨.same rfl, .same rfl rfl⟩

end KhaosDb

end TronGoblin
