import Mathlib.Data.List.Induction
import TronGoblin.Index.SmtTree

/-!
# One batch

* `leafPhase_spec`: the loop over the changed leaves.
* `Handled`: what the rows collected so far make of the backend, for the nodes gone through.
* `buildParent_spec`, `foldUp_spec`: the hashes over the leaves after the batch, level by level.
* `Smt.step_spec`: a batch keeps the backend's invariant and returns the root of the full tree.
-/

namespace TronGoblin.Commitment

open Assoc List
open SparseTree (IsNode Occupied Branch mask_succ sibling_eq)

variable {keccak256 : Bytes → NodeHash} {b : Backend}

theorem writeNodes_concat (ops : List NodeOp) (op : NodeOp) :
    b.writeNodes (ops ++ [op]) = (b.writeNodes ops).writeNode op := by
  rw [Backend.writeNodes, foldl_append]
  rfl

/-! ## The changed leaves -/

def slotHash (keccak256 : Bytes → NodeHash) (c : Change) : NodeHash :=
  (c.2.map (hashLeaf keccak256 c.1)).getD (defaultHash keccak256 DEPTH)

/-- The loop over the changed leaves, after the changes `done`. -/
structure LeafDone (keccak256 : Bytes → NodeHash) (b : Backend) (done : List Change) (st : LeafPhase) :
    Prop where
  changed : ∀ c ∈ done, (b.writeNodes st.ops).leaves.lookup c.1 = c.2
  kept : ∀ p, p ∉ done.map (·.1) → (b.writeNodes st.ops).leaves.lookup p = b.leaves.lookup p
  nodes : (b.writeNodes st.ops).nodes = b.nodes
  current : ∀ c ∈ done, st.current.lookup c.1 = some (slotHash keccak256 c)
  other : ∀ p, p ∉ done.map (·.1) → st.current.lookup p = none
  deletes : st.hasDeletes = false → ∀ c ∈ done, c.2 = none → b.leaves.lookup c.1 = none

structure LeafWritten (b : Backend) (c : Change) (ops ops' : List NodeOp) : Prop where
  leaves : ∀ p, (b.writeNodes ops').leaves.lookup p = if p = c.1 then c.2 else (b.writeNodes ops).leaves.lookup p
  nodes : (b.writeNodes ops').nodes = (b.writeNodes ops).nodes

variable {st : LeafPhase} {c : Change}

theorem leafWritten_change (hkept : (b.writeNodes st.ops).leaves.lookup c.1 = b.leaves.lookup c.1) :
    LeafWritten b c st.ops (changeLeaf keccak256 b st c).ops := by
  obtain ⟨path, value⟩ := c
  have hsame : b.leaves.lookup path = value → LeafWritten b (path, value) st.ops st.ops := by
    intro h
    refine ⟨fun p => ?_, rfl⟩
    by_cases hp : p = path
    · subst hp
      rw [if_pos rfl, hkept, h]
    · rw [if_neg hp]
  cases value with
  | some hash =>
    dsimp [changeLeaf]
    split
    · refine ⟨fun p => ?_, ?_⟩
      · rw [writeNodes_concat]
        exact lookup_insert_eq _ _ _ _
      · rw [writeNodes_concat]
        rfl
    · rename_i h
      exact hsame (Decidable.not_not.1 h)
  | none =>
    dsimp [changeLeaf]
    split
    · refine ⟨fun p => ?_, ?_⟩
      · rw [writeNodes_concat]
        exact lookup_erase_eq _ _ _
      · rw [writeNodes_concat]
        rfl
    · rename_i h
      exact hsame (Option.not_isSome_iff_eq_none.1 h)

theorem changeLeaf_current (st : LeafPhase) (c : Change) :
    (changeLeaf keccak256 b st c).current = st.current.insert c.1 (slotHash keccak256 c) := by
  obtain ⟨path, value⟩ := c
  cases value <;> rfl

theorem changeLeaf_hasDeletes (h : (changeLeaf keccak256 b st c).hasDeletes = false) :
    st.hasDeletes = false ∧ (c.2 = none → b.leaves.lookup c.1 = none) := by
  obtain ⟨path, value⟩ := c
  cases value with
  | some hash => exact ⟨h, nofun⟩
  | none =>
    rw [changeLeaf] at h
    simp only [Bool.or_eq_false_iff, Option.isSome_eq_false_iff, Option.isNone_iff_eq_none] at h
    exact ⟨h.1, fun _ => h.2⟩

theorem LeafDone.step {done : List Change} (h : LeafDone keccak256 b done st) (hc : c.1 ∉ done.map (·.1)) :
    LeafDone keccak256 b (done ++ [c]) (changeLeaf keccak256 b st c) := by
  have hw : LeafWritten b c st.ops (changeLeaf keccak256 b st c).ops :=
    leafWritten_change (h.kept c.1 hc)
  have hne : ∀ e ∈ done, e.1 ≠ c.1 := fun e he heq => hc (heq ▸ mem_map_of_mem he)
  constructor
  · intro e he
    rw [hw.leaves]
    rcases mem_append.1 he with he | he
    · rw [if_neg (hne e he), h.changed e he]
    · rw [mem_singleton.1 he, if_pos rfl]
  · intro p hp
    rw [map_append, mem_append, not_or, map_singleton, mem_singleton] at hp
    rw [hw.leaves, if_neg hp.2, h.kept p hp.1]
  · rw [hw.nodes, h.nodes]
  · intro e he
    rw [changeLeaf_current, lookup_insert_eq]
    rcases mem_append.1 he with he | he
    · rw [if_neg (hne e he), h.current e he]
    · rw [mem_singleton.1 he, if_pos rfl]
  · intro p hp
    rw [map_append, mem_append, not_or, map_singleton, mem_singleton] at hp
    rw [changeLeaf_current, lookup_insert_eq, if_neg hp.2, h.other p hp.1]
  · intro hfalse e he hnone
    obtain ⟨hst, hc'⟩ := changeLeaf_hasDeletes hfalse
    rcases mem_append.1 he with he | he
    · exact h.deletes hst e he hnone
    · rw [mem_singleton.1 he] at hnone ⊢
      exact hc' hnone

theorem leafPhase_spec (es : List Change) (hnodup : (es.map (·.1)).Nodup) :
    LeafDone keccak256 b es (es.foldl (changeLeaf keccak256 b) ⟨[], ∅, false⟩) := by
  induction es using List.reverseRecOn with
  | nil =>
    refine ⟨nofun, fun _ _ => rfl, rfl, nofun, fun _ _ => ?_, nofun⟩
    exact AList.lookup_empty _
  | append_singleton es c ih =>
    rw [map_append, nodup_append] at hnodup
    rw [foldl_append]
    refine (ih hnodup.1).step fun hmem => ?_
    exact hnodup.2.2 c.1 hmem c.1 (by simp) rfl

/-! ## The nodes above them -/

/-- No leaf and no subtree with leaves has the hash of an empty one. -/
def NoDefault (keccak256 : Bytes → NodeHash) (L : Leaves) : Prop :=
  ∀ l q, l ≤ DEPTH → Occupied paths L l q → nodeHash keccak256 L l q ≠ defaultHash keccak256 l

/-- The node is above one of the changed leaves. -/
def Touched (ps : List LeafPath) (l : Nat) (q : LeafPath) : Prop := ∃ p ∈ ps, maskPrefix p l = q

section Levels

variable {L : Leaves} {hasDeletes : Bool} {ps : List LeafPath} {n : Nat}

/-- What is to be stored for a node that the batch goes through. -/
structure Target (keccak256 : Bytes → NodeHash) (b : Backend) (L : Leaves) (hasDeletes : Bool)
    (l : Nat) (q : LeafPath) (stored : Option NodeHash) : Prop where
  branch : Branch paths L l q → stored = some (nodeHash keccak256 L l q)
  noBranch : ¬ Branch paths L l q → stored = if hasDeletes then none else b.nodes.lookup (l, q)

/-- The backend with the rows collected so far: the leaves of the batch, and the nodes of `D`. -/
structure Handled (keccak256 : Bytes → NodeHash) (b : Backend) (L : Leaves) (hasDeletes : Bool)
    (D : Nat → LeafPath → Prop) (ops : List NodeOp) : Prop where
  leaves : ∀ p, (b.writeNodes ops).leaves.lookup p = L p
  done : ∀ l q, D l q → Target keccak256 b L hasDeletes l q ((b.writeNodes ops).nodes.lookup (l, q))
  kept : ∀ l q, ¬ D l q → (b.writeNodes ops).nodes.lookup (l, q) = b.nodes.lookup (l, q)

theorem Handled.congr {D D' : Nat → LeafPath → Prop} {ops : List NodeOp}
    (h : Handled keccak256 b L hasDeletes D ops) (hD : ∀ l q, D' l q ↔ D l q) :
    Handled keccak256 b L hasDeletes D' ops :=
  ⟨h.leaves, fun l q hd => h.done l q ((hD l q).1 hd), fun l q hd => h.kept l q fun hd' =>
    hd ((hD l q).2 hd')⟩

variable {q : LeafPath} {l : Nat}

theorem Handled.row {D : Nat → LeafPath → Prop} {ops ops' : List NodeOp} (h : Handled keccak256 b L hasDeletes D ops)
    {stored : Option NodeHash} (hleaves : (b.writeNodes ops').leaves = (b.writeNodes ops).leaves)
    (hnodes : ∀ l' q', (b.writeNodes ops').nodes.lookup (l', q') =
      if (l', q') = (l, q) then stored else (b.writeNodes ops).nodes.lookup (l', q'))
    (htarget : Target keccak256 b L hasDeletes l q stored) :
    Handled keccak256 b L hasDeletes (fun l' q' => D l' q' ∨ (l', q') = (l, q)) ops' := by
  constructor
  · intro p
    rw [hleaves, h.leaves]
  · intro l' q' hd
    rw [hnodes]
    by_cases heq : (l', q') = (l, q)
    · rw [if_pos heq]
      cases heq
      exact htarget
    · rw [if_neg heq]
      exact h.done l' q' (hd.resolve_right heq)
  · intro l' q' hd
    rw [not_or] at hd
    rw [hnodes, if_neg hd.2, h.kept l' q' hd.1]

/-- The row that is collected for a node, if any. -/
def nodeRow (hasDeletes : Bool) (level : Nat) (parent : LeafPath) (hash : NodeHash) (both : Bool) : List NodeOp :=
  if both then [.putNode level parent hash]
  else if hasDeletes then [.deleteNode level parent]
  else []

theorem Handled.node {D : Nat → LeafPath → Prop} {ops : List NodeOp} (h : Handled keccak256 b L hasDeletes D ops)
    (hq : IsNode paths l q) (hD : ¬ D l q) {both : Bool} (hboth : both = true ↔ Branch paths L l q) :
    Handled keccak256 b L hasDeletes (fun l' q' => D l' q' ∨ (l', q') = (l, q))
      (ops ++ nodeRow hasDeletes l q (nodeHash keccak256 L l q) both) := by
  have hq' : maskPrefix q l = q := hq
  unfold nodeRow
  cases both with
  | true =>
    have hbranch := hboth.1 rfl
    refine h.row ?_ ?_ ⟨fun _ => rfl, fun hno => absurd hbranch hno⟩
    · rw [if_pos rfl, writeNodes_concat]
      rfl
    · intro l' q'
      rw [if_pos rfl, writeNodes_concat, Backend.writeNode, hq']
      exact lookup_insert_eq _ _ _ _
  | false =>
    have hbranch : ¬ Branch paths L l q := fun hb => by simpa using hboth.2 hb
    cases hasDeletes with
    | true =>
      refine h.row ?_ ?_ (show Target keccak256 b L true l q none from ⟨fun hb => absurd hb hbranch, fun _ => rfl⟩)
      · rw [if_neg (by simp), if_pos rfl, writeNodes_concat]
        rfl
      · intro l' q'
        rw [if_neg (by simp), if_pos rfl, writeNodes_concat, Backend.writeNode, hq']
        exact lookup_erase_eq _ _ _
    | false =>
      refine h.row ?_ ?_ ⟨fun hb => absurd hb hbranch, fun _ => rfl⟩
      · simp
      · intro l' q'
        rw [if_neg (by simp), if_neg (by simp), append_nil]
        split
        · rename_i heq
          cases heq
          exact h.kept l q hD
        · rfl

/-- The nodes of a level above the changed leaves, with their hashes. -/
def Below (keccak256 : Bytes → NodeHash) (L : Leaves) (ps : List LeafPath) (n : Nat)
    (current : Table LeafPath NodeHash) : Prop :=
  ∀ q hash, current.lookup q = some hash ↔ Touched ps n q ∧ hash = nodeHash keccak256 L n q

theorem present_iff (hdef : NoDefault keccak256 L) (hl : l ≤ DEPTH) (hq : IsNode paths l q) :
    nodeHash keccak256 L l q ≠ defaultHash keccak256 l ↔ Occupied paths L l q := by
  constructor
  · intro h
    apply Classical.byContradiction
    intro hempty
    exact h (nodeHash_empty hl hq hempty)
  · exact hdef l q hl

theorem branch_mask (hn : n < DEPTH) (p : LeafPath) :
    Branch paths L n (maskPrefix p n) ↔ Occupied paths L (n + 1) (maskPrefix p (n + 1)) ∧
      Occupied paths L (n + 1) (siblingPrefix p n) := by
  have hown : maskPrefix p (n + 1) = _ := mask_succ (B := paths) hn p
  have hsib : siblingPrefix p n = _ := sibling_eq (B := paths) hn p
  rw [hown, hsib]
  cases paths.bit p n with
  | false => exact Iff.rfl
  | true => exact and_comm

variable {current : Table LeafPath NodeHash}

/-- The sibling's hash is right whether it is above a changed leaf or read from the backend, where it is
as it was. -/
theorem siblingHash_eq (hb : b.Inv keccak256) (hL : ∀ p, p ∉ ps → L p = b.leaves.lookup p) (hn : n < DEPTH)
    (hcurrent : Below keccak256 L ps (n + 1) current) (p : LeafPath) :
    siblingHash keccak256 b n current p = nodeHash keccak256 L (n + 1) (siblingPrefix p n) := by
  have hnode := isNode_siblingPrefix hn p
  unfold siblingHash
  dsimp only
  cases hlook : current.lookup (siblingPrefix p n) with
  | some hash => exact ((hcurrent _ hash).1 hlook).2
  | none =>
    have hfree : ∀ p', maskPrefix p' (n + 1) = siblingPrefix p n → b.leaves.lookup p' = L p' := by
      intro p' hmask
      refine (hL p' fun hmem => ?_).symm
      have hsome := (hcurrent _ _).2 ⟨⟨p', hmem, hmask⟩, rfl⟩
      rw [hlook] at hsome
      cases hsome
    rw [Backend.readSubtreeHash, readAtHeight_getD hb (by omega) hnode]
    exact nodeHash_congr hn hnode hfree

/-- The loop over one level, after the paths `done`. -/
structure LevelDone (keccak256 : Bytes → NodeHash) (b : Backend) (L : Leaves) (hasDeletes : Bool)
    (ps : List LeafPath) (n : Nat) (done : List LeafPath) (st : LevelPhase) : Prop where
  parents : Below keccak256 L done n st.parents
  handled : Handled keccak256 b L hasDeletes
    (fun l q => (n < l ∧ l < DEPTH ∧ Touched ps l q) ∨ (l = n ∧ Touched done n q)) st.ops

variable {done : List LeafPath}

theorem touched_concat {p q : LeafPath} : Touched (done ++ [p]) n q ↔ Touched done n q ∨ maskPrefix p n = q := by
  unfold Touched
  simp only [mem_append, mem_singleton]
  constructor
  · rintro ⟨p', hp' | rfl, hmask⟩
    · exact .inl ⟨p', hp', hmask⟩
    · exact .inr hmask
  · rintro (⟨p', hp', hmask⟩ | hmask)
    · exact ⟨p', .inl hp', hmask⟩
    · exact ⟨p, .inr rfl, hmask⟩

theorem ops_eq_nodeRow (ops : List NodeOp) (parent : LeafPath) (hash : NodeHash) (both : Prop) [Decidable both] :
    (if both then ops ++ [.putNode n parent hash] else if hasDeletes then ops ++ [.deleteNode n parent] else ops) =
      ops ++ nodeRow hasDeletes n parent hash (decide both) := by
  unfold nodeRow
  by_cases h : both
  · simp [h]
  · cases hasDeletes <;> simp [h]

/-- Both children have a hash of their own exactly where there are leaves below both. -/
theorem both_iff (hdef : NoDefault keccak256 L) (hn : n < DEPTH) (p : LeafPath) :
    decide ((if pathBit p n then nodeHash keccak256 L (n + 1) (siblingPrefix p n)
          else nodeHash keccak256 L (n + 1) (maskPrefix p (n + 1))) ≠ defaultHash keccak256 (n + 1) ∧
        (if pathBit p n then nodeHash keccak256 L (n + 1) (maskPrefix p (n + 1))
          else nodeHash keccak256 L (n + 1) (siblingPrefix p n)) ≠ defaultHash keccak256 (n + 1)) = true ↔
      Branch paths L n (maskPrefix p n) := by
  rw [decide_eq_true_eq, branch_mask hn, ← present_iff hdef hn (isNode_maskPrefix p (n + 1)),
    ← present_iff hdef hn (isNode_siblingPrefix hn p)]
  cases pathBit p n with
  | false => exact Iff.rfl
  | true => exact and_comm

variable (hb : b.Inv keccak256)
include hb

variable (hL : ∀ p, p ∉ ps → L p = b.leaves.lookup p)
include hL

variable (hdef : NoDefault keccak256 L)
include hdef

theorem buildParent_spec (hn : n < DEPTH) (hcurrent : Below keccak256 L ps (n + 1) current) {st : LevelPhase}
    (hst : LevelDone keccak256 b L hasDeletes ps n done st) {p : LeafPath} (hp : p ∈ ps) :
    ∃ st', buildParent keccak256 b hasDeletes n current st p = some st' ∧
      LevelDone keccak256 b L hasDeletes ps n (done ++ [p]) st' := by
  have hparent := isNode_maskPrefix p n
  unfold buildParent
  cases hlook : st.parents.lookup (maskPrefix p n) with
  | some hash =>
    -- the parent of an earlier path
    have htouched : Touched done n (maskPrefix p n) := ((hst.parents _ hash).1 hlook).1
    have hsame : ∀ q, Touched (done ++ [p]) n q ↔ Touched done n q := by
      intro q
      rw [touched_concat]
      constructor
      · rintro (h | rfl)
        · exact h
        · exact htouched
      · exact .inl
    refine ⟨st, by simp [hlook], fun q hash => ?_, hst.handled.congr fun l q => ?_⟩
    · rw [hst.parents, hsame]
    · rw [hsame]
  | none =>
    have hfresh : ¬ Touched done n (maskPrefix p n) := by
      intro h
      have hsome := (hst.parents _ _).2 ⟨h, rfl⟩
      rw [hlook] at hsome
      cases hsome
    have hown : current.lookup (maskPrefix p (n + 1)) = some (nodeHash keccak256 L (n + 1)
        (maskPrefix p (n + 1))) := (hcurrent _ _).2 ⟨⟨p, hp, rfl⟩, rfl⟩
    have hsib := siblingHash_eq hb hL hn hcurrent p
    have hhash : hashInternal keccak256 n
        (if pathBit p n then nodeHash keccak256 L (n + 1) (siblingPrefix p n)
          else nodeHash keccak256 L (n + 1) (maskPrefix p (n + 1)))
        (if pathBit p n then nodeHash keccak256 L (n + 1) (maskPrefix p (n + 1))
          else nodeHash keccak256 L (n + 1) (siblingPrefix p n)) =
        nodeHash keccak256 L n (maskPrefix p n) := by
      rw [hashInternal_eq hn, nodeHash_mask hn]
      cases pathBit p n <;> rfl
    have hboth := both_iff hdef hn p
    refine ⟨_, by
      simp only [hlook, hown, hsib, hhash, ops_eq_nodeRow, Option.isSome_none, Bool.false_eq_true,
        if_false, Option.bind_eq_bind, Option.bind_some, Option.pure_def]
      rfl, fun q hash => ?_, ?_⟩
    · rw [lookup_insert_eq, touched_concat]
      by_cases hq : q = maskPrefix p n
      · subst hq
        rw [if_pos rfl, Option.some.injEq, eq_comm]
        simp
      · rw [if_neg hq, hst.parents]
        simp [Ne.symm hq]
    · refine (hst.handled.node hparent ?_ hboth).congr fun l q => ?_
      · rintro (⟨hlt, -⟩ | ⟨-, h⟩)
        · omega
        · exact hfresh h
      · rw [touched_concat, Prod.mk.injEq]
        constructor
        · rintro (h | ⟨rfl, h | rfl⟩)
          · exact .inl (.inl h)
          · exact .inl (.inr ⟨rfl, h⟩)
          · exact .inr ⟨rfl, rfl⟩
        · rintro ((h | ⟨rfl, h⟩) | ⟨rfl, rfl⟩)
          · exact .inl h
          · exact .inr ⟨rfl, .inl h⟩
          · exact .inr ⟨rfl, .inr rfl⟩

theorem level_spec (hn : n < DEPTH) (hcurrent : Below keccak256 L ps (n + 1) current) (rest : List LeafPath)
    (hrest : rest ⊆ ps) {st : LevelPhase} (hst : LevelDone keccak256 b L hasDeletes ps n done st) :
    ∃ st', rest.foldlM (buildParent keccak256 b hasDeletes n current) st = some st' ∧
      LevelDone keccak256 b L hasDeletes ps n (done ++ rest) st' := by
  induction rest generalizing done st with
  | nil => exact ⟨st, rfl, by rwa [append_nil]⟩
  | cons p rest ih =>
    obtain ⟨hp, hrest⟩ := cons_subset.1 hrest
    obtain ⟨st₁, hok, hst₁⟩ := buildParent_spec hb hL hdef hn hcurrent hst hp
    obtain ⟨st₂, hok', hst₂⟩ := ih hrest hst₁
    refine ⟨st₂, ?_, by simpa using hst₂⟩
    rw [foldlM_cons, hok]
    exact hok'

theorem foldUp_spec (hn : n ≤ DEPTH) (st : LevelPhase) (hbelow : Below keccak256 L ps n st.parents)
    (hhandled : Handled keccak256 b L hasDeletes (fun l q => n ≤ l ∧ l < DEPTH ∧ Touched ps l q) st.ops) :
    ∃ st', foldUp keccak256 b hasDeletes ps n st = some st' ∧ Below keccak256 L ps 0 st'.parents ∧
      Handled keccak256 b L hasDeletes (fun l q => l < DEPTH ∧ Touched ps l q) st'.ops := by
  induction n generalizing st with
  | zero => exact ⟨st, rfl, hbelow, hhandled.congr fun l q => by simp⟩
  | succ n ih =>
    have hstart : LevelDone keccak256 b L hasDeletes ps n [] ⟨∅, st.ops⟩ := by
      refine ⟨fun q hash => ?_, hhandled.congr fun l q => ?_⟩
      · simp [Touched, AList.lookup_empty]
      · rw [Nat.add_one_le_iff]
        simp [Touched]
    obtain ⟨st₁, hok, hst₁⟩ := level_spec hb hL hdef hn hbelow ps (fun _ h => h) hstart
    obtain ⟨st₂, hok', hdone⟩ := ih (by omega) st₁ hst₁.parents (hst₁.handled.congr fun l q => by
      constructor
      · rintro ⟨hle, hlt, ht⟩
        rcases lt_or_eq_of_le hle with h | rfl
        · exact .inl ⟨h, hlt, ht⟩
        · exact .inr ⟨rfl, ht⟩
      · rintro (⟨h, hlt, ht⟩ | ⟨rfl, ht⟩)
        · exact ⟨le_of_lt h, hlt, ht⟩
        · exact ⟨le_refl _, hn, ht⟩)
    refine ⟨st₂, ?_, hdone⟩
    rw [foldUp, hok]
    exact hok'

end Levels

/-! ## The batch -/

def setLeaf (L : Leaves) (c : Change) : Leaves := fun p => if p = c.1 then c.2 else L p

/-- The leaves after a batch of changes, one after the other. -/
def setLeaves (L : Leaves) (changes : List Change) : Leaves := changes.foldl setLeaf L

theorem setLeaves_eq (L : Leaves) (changes : List Change) (p : LeafPath) :
    setLeaves L changes p = ((lastChanges changes).lookup p).getD (L p) := by
  induction changes using List.reverseRecOn with
  | nil => simp [setLeaves, lastChanges, AList.lookup_empty]
  | append_singleton changes c ih =>
    have hset : setLeaves L (changes ++ [c]) = setLeaf (setLeaves L changes) c := by
      rw [setLeaves, foldl_append]
      rfl
    have hlast : lastChanges (changes ++ [c]) = (lastChanges changes).insert c.1 c.2 := by
      rw [lastChanges, foldl_append]
      rfl
    rw [hset, hlast, lookup_insert_eq, setLeaf]
    split
    · rfl
    · exact ih

theorem nodup_inOrder {β : Type} (m : Table LeafPath β) : ((inOrder m).map (·.1)).Nodup := by
  refine ((perm_insertionSort _ _).map _).nodup_iff.2 ?_
  rw [map_map]
  exact m.nodupKeys

/-- The rows of all leaves and nodes of a batch leave the invariant in place. -/
theorem Handled.inv {L : Leaves} {hasDeletes : Bool} {ps : List LeafPath} {ops : List NodeOp}
    (h : Handled keccak256 b L hasDeletes (fun l q => l < DEPTH ∧ Touched ps l q) ops)
    (hb : b.Inv keccak256) (hL : ∀ p, p ∉ ps → L p = b.leaves.lookup p)
    (hdel : hasDeletes = false → ∀ p, L p = none → b.leaves.lookup p = none) :
    (b.writeNodes ops).Inv keccak256 := by
  have hleaves : (b.writeNodes ops).leaves.lookup = L := funext h.leaves
  intro l q hash
  rw [hleaves]
  by_cases hD : l < DEPTH ∧ Touched ps l q
  · obtain ⟨hl, p, hp, rfl⟩ := hD
    have hnode := isNode_maskPrefix p l
    have htarget := h.done l _ ⟨hl, p, hp, rfl⟩
    by_cases hbranch : Branch paths L l (maskPrefix p l)
    · rw [htarget.branch hbranch, Option.some.injEq, eq_comm]
      simp [hl, hnode, hbranch]
    · rw [htarget.noBranch hbranch]
      constructor
      · -- a node that was stored and is no longer one to store: a leaf was removed
        intro hstored
        cases hasDeletes with
        | true => cases hstored
        | false =>
          obtain ⟨-, -, hold, -⟩ := (hb _ _ _).1 hstored
          refine absurd ?_ hbranch
          have hstay : ∀ {l' q'}, Occupied paths b.leaves.lookup l' q' → Occupied paths L l' q' := by
            rintro l' q' ⟨p', v, hp', hmask⟩
            cases hv : L p' with
            | none => exact absurd (hp'.symm.trans (hdel rfl p' hv)) nofun
            | some v' => exact ⟨p', v', hv, hmask⟩
          exact ⟨hstay hold.1, hstay hold.2⟩
      · rintro ⟨-, -, hb', -⟩
        exact absurd hb' hbranch
  · rw [h.kept l q hD, hb]
    -- nothing has changed below the node
    have hsame : l < DEPTH → ∀ p, maskPrefix p l = q → b.leaves.lookup p = L p := by
      intro hl p hmask
      exact (hL p fun hmem => hD ⟨hl, p, hmem, hmask⟩).symm
    constructor
    · rintro ⟨hl, hq, hbranch, rfl⟩
      exact ⟨hl, hq, (SparseTree.branch_congr hl hq (hsame hl)).1 hbranch, nodeHash_congr (le_of_lt hl) hq (hsame hl)⟩
    · rintro ⟨hl, hq, hbranch, rfl⟩
      exact ⟨hl, hq, (SparseTree.branch_congr hl hq (hsame hl)).2 hbranch,
        (nodeHash_congr (le_of_lt hl) hq (hsame hl)).symm⟩

/-- The tree is what its leaves say. -/
structure Smt.Good (keccak256 : Bytes → NodeHash) (s : Smt) : Prop where
  inv : s.backend.Inv keccak256
  root : s.root = nodeHash keccak256 s.backend.leaves.lookup 0 zeroes

theorem root_eq {L : Leaves} {ps : List LeafPath} {current : Table LeafPath NodeHash}
    (h : Below keccak256 L ps 0 current) (old : NodeHash) (hold : ps = [] → old = nodeHash keccak256 L 0 zeroes) :
    ((inOrder current).head?.map (·.2)).getD old = nodeHash keccak256 L 0 zeroes := by
  cases horder : inOrder current with
  | nil =>
    refine hold (eq_nil_iff_forall_not_mem.2 fun p hp => ?_)
    have hlook := (h (maskPrefix p 0) _).2 ⟨⟨p, hp, rfl⟩, rfl⟩
    have hmem : (maskPrefix p 0, nodeHash keccak256 L 0 (maskPrefix p 0)) ∈ inOrder current :=
      mem_inOrder.2 hlook
    rw [horder] at hmem
    cases hmem
  | cons e rest =>
    have hlook : current.lookup e.1 = some e.2 := mem_inOrder.1 (by rw [horder]; simp)
    obtain ⟨⟨p, -, hmask⟩, hhash⟩ := (h _ _).1 hlook
    rw [← hmask, maskPrefix_root] at hhash
    exact hhash

section Leaves

variable {L : Leaves} {es : List Change} {st : LeafPhase}

variable (h : LeafDone keccak256 b es st)
include h

variable (hset : ∀ c ∈ es, L c.1 = c.2)
include hset

theorem LeafDone.handled (hkept : ∀ p, p ∉ es.map (·.1) → L p = b.leaves.lookup p) :
    Handled keccak256 b L st.hasDeletes
      (fun l q => DEPTH ≤ l ∧ l < DEPTH ∧ Touched (es.map (·.1)) l q) st.ops := by
  constructor
  · intro p
    by_cases hp : p ∈ es.map (·.1)
    · obtain ⟨c, hc, rfl⟩ := mem_map.1 hp
      rw [h.changed c hc, hset c hc]
    · rw [h.kept p hp, hkept p hp]
  · rintro l q ⟨hle, hlt, -⟩
    omega
  · intro l q _
    rw [h.nodes]

theorem LeafDone.below : Below keccak256 L (es.map (·.1)) DEPTH st.current := by
  have hself : ∀ p, maskPrefix p DEPTH = p := fun p => SparseTree.mask_of_le paths p (le_refl _)
  intro q hash
  have htouched : Touched (es.map (·.1)) DEPTH q ↔ q ∈ es.map (·.1) := by
    constructor
    · rintro ⟨p, hp, rfl⟩
      rwa [hself]
    · intro hq
      exact ⟨q, hq, hself q⟩
  rw [htouched]
  by_cases hq : q ∈ es.map (·.1)
  · obtain ⟨c, hc, rfl⟩ := mem_map.1 hq
    rw [h.current c hc, nodeHash_leaf, hset c hc, Option.some.injEq, eq_comm]
    exact ⟨fun heq => ⟨hq, heq⟩, fun heq => heq.2⟩
  · rw [h.other q hq]
    exact ⟨nofun, fun heq => absurd heq.1 hq⟩

theorem LeafDone.removes (hkept : ∀ p, p ∉ es.map (·.1) → L p = b.leaves.lookup p) (hno : st.hasDeletes = false)
    (p : LeafPath) (hp : L p = none) : b.leaves.lookup p = none := by
  by_cases hmem : p ∈ es.map (·.1)
  · obtain ⟨c, hc, rfl⟩ := mem_map.1 hmem
    exact h.deletes hno c hc ((hset c hc).symm.trans hp)
  · rw [← hkept p hmem, hp]

end Leaves

theorem Smt.step_spec {s : Smt} (hs : s.Good keccak256) (changes : List Change)
    (hdef : NoDefault keccak256 (setLeaves s.backend.leaves.lookup changes)) :
    ∃ s', s.step keccak256 changes = some s' ∧ s'.Good keccak256 ∧
      s'.backend.leaves.lookup = setLeaves s.backend.leaves.lookup changes := by
  have hmem : ∀ c : Change, c ∈ inOrder (lastChanges changes) ↔
      (lastChanges changes).lookup c.1 = some c.2 := fun c => mem_inOrder
  have hset : ∀ c ∈ inOrder (lastChanges changes), setLeaves s.backend.leaves.lookup changes c.1 = c.2 := by
    intro c hc
    rw [setLeaves_eq, (hmem c).1 hc]
    rfl
  have hkept : ∀ p, p ∉ (inOrder (lastChanges changes)).map (·.1) →
      setLeaves s.backend.leaves.lookup changes p = s.backend.leaves.lookup p := by
    intro p hp
    rw [setLeaves_eq]
    cases hlook : (lastChanges changes).lookup p with
    | none => rfl
    | some v => exact absurd (mem_map_of_mem ((hmem (p, v)).2 hlook)) hp
  have hleaf : LeafDone keccak256 s.backend _ _ :=
    leafPhase_spec _ (nodup_inOrder (lastChanges changes))
  obtain ⟨st, hok, hbelow, hhandled⟩ := foldUp_spec hs.inv hkept hdef (le_refl DEPTH)
    ⟨_, _⟩ (hleaf.below hset) (hleaf.handled hset hkept)
  have hleaves : (s.backend.writeNodes st.ops).leaves.lookup =
      setLeaves s.backend.leaves.lookup changes := funext hhandled.leaves
  have hroot := root_eq hbelow s.root fun hnil => by
    rw [hs.root]
    refine nodeHash_congr (Nat.zero_le _) ?_ fun p _ => (hkept p ?_).symm
    · exact maskPrefix_root zeroes
    · rw [hnil]
      exact not_mem_nil
  refine ⟨⟨s.backend.writeNodes st.ops,
    nodeHash keccak256 (setLeaves s.backend.leaves.lookup changes) 0 zeroes⟩, ?_, ⟨?_, ?_⟩, hleaves⟩
  · rw [Smt.step, Smt.apply]
    rw [hok]
    simp [hroot]
  · exact hhandled.inv hs.inv hkept (hleaf.removes hset hkept)
  · rw [hleaves]

end TronGoblin.Commitment
