import TronGoblin.Consensus.KhaosMoves
import TronGoblin.Lib.History

/-!
# The structure of the fork tree

What holds of a `KhaosDb` after every sequence of calls (`tron-consensus/src/khaos.rs`).

* `Ordered`: the order of the two stores, kept by every call (`step_ordered`).
* `structure_after`: the indexes of each store agree, the stores are apart, bytes are kept for
  stashed blocks only, and linked blocks have their parents; with the calls that make exceptions.
* `structure_fails`: runs that show the exceptions.
-/

namespace TronGoblin

open KhaosStore

namespace KhaosDb

open History (after Since)
open KhaosStore (Kept Agree Numbered notBelow)

variable {B : Type} {fmt : BlockFormat B} {g g' : Inner B} {c : Call B} {id : BlockId}
variable {s s' : KhaosStore (WireBlock B)} {b : KhaosBlock (WireBlock B)}

/-! ## The order of the stores -/

theorem ordered_new : Ordered (Inner.new : Inner B) :=
  ⟨numbered_empty, numbered_empty, agree_empty⟩

theorem LinkedMove.numbered (hg : g.miniStore.Numbered) (h : LinkedMove fmt g g' c) : g'.miniStore.Numbered := by
  cases h with
  | same h =>
    rw [h]
    exact hg
  | link b t hb h => exact h.numbered (hg.insert (linking_spec hb).1)
  | drop id hc hid h => exact h.numbered hg

theorem StashMove.numbered (hg : g.miniUnlinkedStore.Numbered) (h : StashMove g g' c) :
    g'.miniUnlinkedStore.Numbered := by
  cases h with
  | same h hraw =>
    rw [h]
    exact hg
  | prune t h hraw => exact h.numbered hg
  | stash n t hlinked hsame hnum hfresh h hraw => exact h.numbered (hg.insert hnum)
  | take keep h hraw => exact h.numbered hg
  | drop id hc h hraw => exact h.numbered hg

theorem StashMove.agree (hg : g.miniUnlinkedStore.Numbered)
    (ha : ∀ id, g.miniUnlinkedStore.Agree id) (h : StashMove g g' c) (id : BlockId) :
    g'.miniUnlinkedStore.Agree id := by
  cases h with
  | same h hraw =>
    rw [h]
    exact ha id
  | prune t h hraw => exact h.agree fun _ => ha id
  | stash n t hlinked hsame hnum hfresh h hraw =>
    refine h.agree fun _ => ?_
    by_cases hid : id = n.id
    · rw [hid]
      exact hg.agree_insert hfresh
    · exact (ha id).insert_ne hid
  | take keep h hraw => exact h.agree fun _ => ha id
  | drop id' hc h hraw => exact h.agree fun _ => ha id

theorem step_ordered (fmt : BlockFormat B) (g : Inner B) (c : Call B) (hg : Ordered g) : Ordered (step fmt g c) := by
  obtain ⟨hl, hs⟩ := @step_moves _ fmt _ hg c
  exact ⟨hl.numbered hg.linked, hs.numbered hg.stashed, hs.agree hg.stashed hg.agree⟩

theorem ordered_after (fmt : BlockFormat B) (calls : List (Call B)) : Ordered (after (step fmt) .new calls) :=
  History.invariant ordered_new (step_ordered fmt) calls

/-! ## Exceptions -/

/-- `start` with a block that is linked already. -/
def Restarts (fmt : BlockFormat B) (id : BlockId) (g : Inner B) (c : Call B) : Prop :=
  ∃ block, c = .start block ∧ blockIdFromBlock fmt block = some id ∧ g.miniStore.contains id = true

/-- A block is linked while it is stashed. -/
def LinksStashed (fmt : BlockFormat B) (id : BlockId) (g : Inner B) (c : Call B) : Prop :=
  ∃ b, linking fmt g c = some b ∧ b.node.id = id ∧ g.miniUnlinkedStore.contains id = true

/-- A stashed block is removed. -/
def RemovesStashed (id : BlockId) (g : Inner B) (c : Call B) : Prop :=
  c = .remove id ∧ g.miniUnlinkedStore.contains id = true

/-- A block without a parent pointer is linked, this one or one below it; or this block's parent is
removed. -/
def Uproots (fmt : BlockFormat B) (id : BlockId) (g : Inner B) (c : Call B) : Prop :=
  (∃ b, linking fmt g c = some b ∧ b.ancestors = [] ∧ (b.node.id = id ∨ b.node.num < BlockId.height id)) ∨
  ∃ b pid, g.miniStore.byHash.lookup id = some b ∧ b.node.parentId fmt = some pid ∧
    g.miniStore.contains pid = true ∧ c = .remove pid

def InBoth (id : BlockId) (g : Inner B) : Prop :=
  g.miniStore.contains id = true ∧ g.miniUnlinkedStore.contains id = true

/-- Bytes are kept for a block that is not stashed. -/
def RawAlone (id : BlockId) (g : Inner B) : Prop :=
  id ∈ g.orphanRaw ∧ g.miniUnlinkedStore.contains id = false

/-- No block of the store has a lower number. -/
def Lowest (s : KhaosStore (WireBlock B)) (b : KhaosBlock (WireBlock B)) : Prop :=
  ∀ id' b', s.byHash.lookup id' = some b' → b.node.num ≤ b'.node.num

/-- The store has a block with this id that is not at the lowest number, and not its parent. -/
def Uprooted (fmt : BlockFormat B) (id : BlockId) (s : KhaosStore (WireBlock B)) : Prop :=
  ∃ b, s.byHash.lookup id = some b ∧ ¬ Lowest s b ∧ ¬ HasParent fmt s b

theorem LinkedMove.agree (hg : g.miniStore.Numbered) (h : LinkedMove fmt g g' c)
    (ha : g.miniStore.Agree id) : g'.miniStore.Agree id ∨ Restarts fmt id g c := by
  cases h with
  | same h =>
    rw [h]
    exact .inl ha
  | link b t hb h =>
    by_cases hid : id = b.node.id
    · obtain ⟨-, ⟨-, block, hc, hblock⟩ | ⟨hfresh, -⟩⟩ := linking_spec hb
      · cases hl : g.miniStore.contains id with
        | true => exact .inr ⟨block, hc, by rw [hblock, hid], hl⟩
        | false =>
          rw [hid] at hl ⊢
          exact .inl (h.agree fun _ => hg.agree_insert hl)
      · rw [hid]
        exact .inl (h.agree fun _ => hg.agree_insert hfresh)
    · exact .inl (h.agree fun _ => ha.insert_ne hid)
  | drop id' hc hid h => exact .inl (h.agree fun _ => ha)

/-- A block is stashed by the call only if it was stashed, or is not linked after the call. -/
theorem StashMove.stashed (h : StashMove g g' c) (hid : g'.miniUnlinkedStore.contains id = true) :
    g.miniUnlinkedStore.contains id = true ∨ (g.miniStore.contains id = false ∧ g'.miniStore = g.miniStore) := by
  cases h with
  | same h hraw =>
    rw [h] at hid
    exact .inl hid
  | prune t h hraw =>
    rw [h.contains] at hid
    exact .inl (Bool.and_eq_true_iff.1 hid).2
  | stash n t hlinked hsame hnum hfresh h hraw =>
    rw [h.contains, contains_insert] at hid
    rcases Bool.or_eq_true_iff.1 (Bool.and_eq_true_iff.1 hid).2 with hid | hid
    · have heq : id = n.id := of_decide_eq_true hid
      rw [heq]
      exact .inr ⟨hlinked, hsame⟩
    · exact .inl hid
  | take keep h hraw =>
    rw [h.contains] at hid
    exact .inl (Bool.and_eq_true_iff.1 hid).2
  | drop id' hc h hraw =>
    rw [h.contains] at hid
    exact .inl (Bool.and_eq_true_iff.1 hid).2

theorem linksStashed_of_inBoth (hl : LinkedMove fmt g g' c) (hs : StashMove g g' c)
    (h : ¬ InBoth id g) (h' : InBoth id g') : LinksStashed fmt id g c := by
  obtain ⟨hlinked, hstashed⟩ := h'
  rcases hs.stashed hstashed with hst | ⟨hnot, hsame⟩
  · have hnot : g.miniStore.contains id ≠ true := fun hc => h ⟨hc, hst⟩
    cases hl with
    | same hsame =>
      rw [hsame] at hlinked
      exact absurd hlinked hnot
    | link b t hb hkept =>
      rw [hkept.contains, contains_insert] at hlinked
      rcases Bool.or_eq_true_iff.1 (Bool.and_eq_true_iff.1 hlinked).2 with hid | hid
      · exact ⟨b, hb, (of_decide_eq_true hid).symm, hst⟩
      · exact absurd hid hnot
    | drop id' hc hid hkept =>
      rw [hkept.contains] at hlinked
      exact absurd (Bool.and_eq_true_iff.1 hlinked).2 hnot
  · rw [hsame, hnot] at hlinked
    cases hlinked

theorem removesStashed_of_rawAlone (hs : StashMove g g' c) (h : ¬ RawAlone id g)
    (h' : RawAlone id g') : RemovesStashed id g c := by
  obtain ⟨hmem, hnot⟩ := h'
  cases hs with
  | same hsame hraw =>
    rw [hraw] at hmem
    rw [hsame] at hnot
    exact absurd ⟨hmem, hnot⟩ h
  | prune t hkept hraw =>
    rw [hraw id hmem] at hnot
    cases hnot
  | stash n t hlinked hsame hnum hfresh hkept hraw =>
    rw [hraw id hmem] at hnot
    cases hnot
  | take keep hkept hraw =>
    obtain ⟨hkeep, hmem⟩ := hraw id hmem
    rw [hkept.contains, hkeep, Bool.true_and] at hnot
    exact absurd ⟨hmem, hnot⟩ h
  | drop id' hc hkept hraw =>
    rw [hraw] at hmem
    have hst : g.miniUnlinkedStore.contains id = true :=
      eq_true_of_ne_false fun hf => h ⟨hmem, hf⟩
    rw [hkept.contains, hst, Bool.and_true] at hnot
    have heq : id = id' := not_not.1 (of_decide_eq_false hnot)
    rw [heq] at hst ⊢
    exact ⟨hc, hst⟩

/-! ### Parents -/

theorem HasParent.insert (hs : s.Numbered) (h : HasParent fmt s b) {k : KhaosBlock (WireBlock B)}
    (hk : k.node.num = BlockId.height k.node.id) : HasParent fmt (s.insert k) b := by
  obtain ⟨pid, p, hpid, hp, hnum⟩ := h
  by_cases hid : pid = k.node.id
  · -- the same id again, so the same number
    refine ⟨pid, k, hpid, by rw [lookup_insert, if_pos hid], ?_⟩
    rw [hk, ← hid, ← (hs.found hp).2.1]
    exact hnum
  · exact ⟨pid, p, hpid, by rw [lookup_insert, if_neg hid, hp], hnum⟩

/-- Pruning keeps the parent of a block that it keeps, unless the block is now at the lowest
number. -/
theorem HasParent.kept {t : Int} (hs : s.Numbered) (h : HasParent fmt s b) (hb : b.node.num = BlockId.height id)
    (hid : notBelow t id = true) (hkept : Kept (notBelow t) s s') : HasParent fmt s' b ∨ Lowest s' b := by
  obtain ⟨pid, p, hpid, hp, hnum⟩ := h
  have hheight := (hs.found hp).2.1
  by_cases hkeep : notBelow t pid = true
  · exact .inl ⟨pid, p, hpid, by rw [hkept.lookup, if_pos hkeep, hp], hnum⟩
  · refine .inr fun id' b' hb' => ?_
    rw [hkept.lookup] at hb'
    by_cases hkeep' : notBelow t id' = true
    · rw [if_pos hkeep'] at hb'
      have hheight' := (hs.found hb').2.1
      have hid := of_decide_eq_true hid
      have hkeep := mt decide_eq_true hkeep
      have hkeep' := of_decide_eq_true hkeep'
      omega
    · rw [if_neg hkeep'] at hb'
      cases hb'

theorem not_uprooted (h : ¬ Uprooted fmt id s) (hb : s.byHash.lookup id = some b) : Lowest s b ∨ HasParent fmt s b := by
  by_contra hnot
  exact h ⟨b, hb, not_or.1 hnot⟩

theorem uproots_of_link {k : KhaosBlock (WireBlock B)} {t : Int} (hg : g.miniStore.Numbered)
    (hk : linking fmt g c = some k) (hkept : Kept (notBelow t) (g.miniStore.insert k) s')
    (h : ¬ Uprooted fmt id g.miniStore) (h' : Uprooted fmt id s') : Uproots fmt id g c := by
  obtain ⟨b, hb, hlow, hpar⟩ := h'
  obtain ⟨hknum, hspec⟩ := linking_spec hk
  have hroots : k.ancestors = [] ∨ HasParent fmt g.miniStore k :=
    hspec.elim (fun h => .inl h.1) (·.2)
  have hins := hg.insert hknum
  rw [hkept.lookup] at hb
  by_cases hkeep : notBelow t id = true
  · rw [if_pos hkeep] at hb
    have hbnum := (hins.found hb).2.1
    -- neither a parent in the old store nor one in the new store
    have hnopar : ¬ HasParent fmt g.miniStore b := by
      intro hp
      rcases (hp.insert hg hknum).kept hins hbnum hkeep hkept with hp | hl
      · exact hpar hp
      · exact hlow hl
    rw [lookup_insert] at hb
    by_cases hid : id = k.node.id
    · rw [if_pos hid] at hb
      cases hb
      rcases hroots with hr | hp
      · exact .inl ⟨k, hk, hr, .inl hid.symm⟩
      · exact absurd hp hnopar
    · rw [if_neg hid] at hb
      have hold : Lowest g.miniStore b := (not_uprooted h hb).resolve_right hnopar
      -- the block that is lower now is the new one
      unfold Lowest at hlow
      push Not at hlow
      obtain ⟨id', b', hb', hlt⟩ := hlow
      rw [hkept.lookup] at hb'
      split at hb'
      · rw [lookup_insert] at hb'
        by_cases hid' : id' = k.node.id
        · rw [if_pos hid'] at hb'
          cases hb'
          rcases hroots with hr | ⟨pid, p, -, hp, hnum⟩
          · exact .inl ⟨k, hk, hr, .inr (by omega)⟩
          · have hle := hold pid p hp
            omega
        · rw [if_neg hid'] at hb'
          have hle := hold id' b' hb'
          omega
      · cases hb'
  · rw [if_neg hkeep] at hb
    cases hb

theorem uproots_of_uprooted (hg : g.miniStore.Numbered) (hl : LinkedMove fmt g g' c)
    (h : ¬ Uprooted fmt id g.miniStore) (h' : Uprooted fmt id g'.miniStore) :
    Uproots fmt id g c := by
  cases hl with
  | same hsame =>
    rw [hsame] at h'
    exact absurd h' h
  | link k t hk hkept => exact uproots_of_link hg hk hkept h h'
  | drop r hc hr hkept =>
    obtain ⟨b, hb, hlow, hpar⟩ := h'
    have hsub : ∀ {id' b'}, g'.miniStore.byHash.lookup id' = some b' → g.miniStore.byHash.lookup id' = some b' := by
      intro id' b' hb'
      rw [hkept.lookup] at hb'
      split at hb'
      · exact hb'
      · cases hb'
    rcases not_uprooted h (hsub hb) with hl | ⟨pid, p, hpid, hp, hnum⟩
    · exact absurd (fun id' b' hb' => hl id' b' (hsub hb')) hlow
    · by_cases heq : pid = r
      · rw [← heq] at hr hc
        exact .inr ⟨b, pid, hsub hb, hpid, hr, hc⟩
      · refine absurd ⟨pid, p, hpid, ?_, hnum⟩ hpar
        rw [hkept.lookup, if_pos (decide_eq_true heq), hp]

/-- **The structure of the tree.**  The two indexes of the stash always hold the same blocks, without duplicates.  The
linked store's do, no block is in both stores, bytes are kept for stashed blocks only, and a linked block above the
lowest number has its parent linked one number below, each unless it has failed since one call: the block was started
while linked, linked while stashed, removed from the stash, or linked or undercut without a parent, or lost its parent
to `remove`. -/
theorem structure_after (fmt : BlockFormat B) (calls : List (Call B)) (id : BlockId) :
    (after (step fmt) .new calls).miniUnlinkedStore.Agree id ∧
    (¬ (after (step fmt) .new calls).miniStore.Agree id →
      Since (step fmt) .new (Restarts fmt id) (fun g => ¬ g.miniStore.Agree id) calls) ∧
    (InBoth id (after (step fmt) .new calls) → Since (step fmt) .new (LinksStashed fmt id) (InBoth id) calls) ∧
    (RawAlone id (after (step fmt) .new calls) → Since (step fmt) .new (RemovesStashed id) (RawAlone id) calls) ∧
    (Uprooted fmt id (after (step fmt) .new calls).miniStore →
      Since (step fmt) .new (Uproots fmt id) (fun g => Uprooted fmt id g.miniStore) calls) := by
  have hI := ordered_after fmt
  refine ⟨(hI calls).agree id, History.since_of_entered (X := fun g => ¬ g.miniStore.Agree id) hI ?_ ?_,
    History.since_of_entered hI ?_ ?_, History.since_of_entered hI ?_ ?_,
    History.since_of_entered (X := fun g => Uprooted fmt id g.miniStore) hI ?_ ?_⟩
  · exact not_not_intro (agree_empty id)
  · intro g c hg ha hna
    exact ((step_moves hg c).1.agree hg.linked (not_not.1 ha)).resolve_left hna
  · rintro ⟨h, -⟩
    cases h
  · intro g c hg h h'
    exact linksStashed_of_inBoth (step_moves hg c).1 (step_moves hg c).2 h h'
  · rintro ⟨h, -⟩
    exact absurd h (AList.notMem_empty id)
  · intro g c hg h h'
    exact removesStashed_of_rawAlone (@step_moves _ fmt _ hg c).2 h h'
  · rintro ⟨b, h, -⟩
    cases h
  · intro g c hg h h'
    exact uproots_of_uprooted hg.linked (step_moves hg c).1 h h'

/-! ## Runs that break it -/

/-- All parts of the structure, without exceptions but for the blocks given to `start`. -/
structure Structural (fmt : BlockFormat B) (started : BlockId → Prop) (g : Inner B) : Prop where
  linked : ∀ id, g.miniStore.Agree id
  stashed : ∀ id, g.miniUnlinkedStore.Agree id
  apart : ∀ id, ¬ InBoth id g
  raw : ∀ id, ¬ RawAlone id g
  parents : ∀ id, Uprooted fmt id g.miniStore → started id

/-- A block is uprooted when there is a lower one and its parent is not in the store. -/
theorem uprooted_of_missing {low pid : BlockId} {num num' : Int}
    (hb : (s.byHash.lookup id).map (fun b => (b.node.num, b.node.parentId fmt)) = some (num, some pid))
    (hlow : (s.byHash.lookup low).map (·.node.num) = some num') (hlt : num' < num)
    (hpid : s.contains pid = false) : Uprooted fmt id s := by
  obtain ⟨b, hb, heq⟩ := Option.map_eq_some_iff.1 hb
  obtain ⟨l, hl, hnum'⟩ := Option.map_eq_some_iff.1 hlow
  obtain ⟨hnum, hparent⟩ := Prod.mk.inj heq
  refine ⟨b, hb, fun h => ?_, ?_⟩
  · have hle := h low l hl
    omega
  · rintro ⟨pid', p, hpid', hp, -⟩
    rw [hparent] at hpid'
    cases hpid'
    rw [contains, hp] at hpid
    cases hpid

namespace Sample

/-- Blocks that are their own headers, and their own hashes. -/
def format : BlockFormat BlockHeaderRaw := ⟨some, fun bs => bs⟩

/-- The block with this number and parent, told apart by a tag. -/
def block (number : Int) (parent : Bytes) (tag : UInt8) : BlockHeaderRaw :=
  ⟨number, parent, List.replicate 32 tag⟩

def idOf (b : BlockHeaderRaw) : BlockId := blockIdFromHeaderRaw format b

def push (b : BlockHeaderRaw) : Call BlockHeaderRaw := .pushWithRaw b (some b.encoded) fun _ => false

def zero : Bytes := List.replicate 32 0

def first : BlockHeaderRaw := block 5 zero 1
def second : BlockHeaderRaw := block 6 (idOf first) 2
def third : BlockHeaderRaw := block 7 (idOf second) 3

/-- A genesis-like block above the start block. -/
def genesisLike : List (Call BlockHeaderRaw) := [.start first, push (block 7 zero 4)]

/-- A stashed block is pushed again when its parent is there. -/
def redelivery : List (Call BlockHeaderRaw) :=
  [.start first, push third, push second, push third]

def parentRemoved : List (Call BlockHeaderRaw) :=
  [.start first, push second, push third, .remove (idOf second)]

def orphanRemoved : List (Call BlockHeaderRaw) := [.start first, push third, .remove (idOf third)]

end Sample

open Sample in
/-- A genesis-like push links a block without a parent, a pushed orphan stays in the stash, `remove` takes parents away
and leaves the bytes of an orphan, and a block that is started again is listed twice. -/
theorem structure_fails :
    ¬ Structural format (· = idOf first) (after (step format) .new genesisLike) ∧
      ¬ Structural format (· = idOf first) (after (step format) .new redelivery) ∧
      ¬ Structural format (· = idOf first) (after (step format) .new parentRemoved) ∧
      ¬ Structural format (· = idOf first) (after (step format) .new orphanRemoved) ∧
      ¬ Structural format (· = idOf first) (after (step format) .new [.start first, .start first]) := by
  refine ⟨fun h => ?_, fun h => h.apart (idOf third) ⟨by decide +kernel, by decide +kernel⟩, fun h => ?_,
    fun h => h.raw (idOf third) ⟨by decide +kernel, by decide +kernel⟩,
    fun h => absurd (congrArg List.length (h.linked (idOf first) 5)) (by decide +kernel)⟩
  · have hup : Uprooted format (idOf (block 7 zero 4))
        (after (step format) .new genesisLike).miniStore :=
      @uprooted_of_missing _ _ _ _ (idOf first) zero 7 5 (by decide +kernel) (by decide +kernel)
        (by decide) (by decide +kernel)
    exact absurd (h.parents _ hup) (by decide +kernel)
  · have hup : Uprooted format (idOf third) (after (step format) .new parentRemoved).miniStore :=
      @uprooted_of_missing _ _ _ _ (idOf first) (idOf second) 7 5 (by decide +kernel)
        (by decide +kernel) (by decide) (by decide +kernel)
    exact absurd (h.parents _ hup) (by decide +kernel)

end KhaosDb

end TronGoblin
