import TronGoblin.Consensus.KhaosHead
import TronGoblin.Lib.MaxBy

/-!
# Fork choice

`best_head` and `best_head_with_solidified` (`tron-consensus/src/fork_choice.rs`): the longest chain that contains the
last solidified block.

* `reaches`, `eligible`: the bounded walk from one candidate.
* `reaches_iff`: over parents whose numbers go down, the walk says whether an ancestor is the solidified block.
* `parentOf`: the parent by the pointers of a `KhaosDb`; numbers go down in every one (`lowers_after`).
* `best_head_solidified`: the choice, for every tree.
-/

namespace TronGoblin

open List Option BlockId
open MaxBy (maxBy)

structure ForkChoice where
  head : BlockId
  /-- The block number this head is at. -/
  number : Int
  deriving DecidableEq

inductive ForkChoiceError
  | noCandidates
  | allCandidatesDivergeFromSolidified
  deriving DecidableEq

namespace ForkChoice

def WALK_HORIZON : Nat := 1024

/-- By number, and then the smaller id is the greater one. -/
def cmp (a b : ForkChoice) : Ordering := (compare a.number b.number).then (compare b.head a.head)

def bestHead (candidates : List ForkChoice) : Except ForkChoiceError ForkChoice :=
  Checked.orFail (maxBy cmp candidates) .noCandidates

section Walk

variable (parentOf : BlockId → Option BlockId) (latestSolidified : BlockId)

/-- Walk back at most so many steps, down to the solidified number. -/
def reaches : Nat → BlockId → Bool
  | 0, _ => false
  | steps + 1, cur =>
    if cur = latestSolidified then true
    else if height cur ≤ height latestSolidified then false
    else
      match parentOf cur with
      | none => false
      | some p => reaches steps p

def eligible (cand : ForkChoice) : Bool :=
  if cand.number < height latestSolidified then false
  else if cand.number = height latestSolidified then decide (cand.head = latestSolidified)
  else reaches parentOf latestSolidified WALK_HORIZON cand.head

def bestHeadWithSolidified (candidates : List ForkChoice) : Except ForkChoiceError ForkChoice :=
  if candidates.isEmpty then .error .noCandidates
  else if (candidates.filter (eligible parentOf latestSolidified)).isEmpty then
    .error .allCandidatesDivergeFromSolidified
  else bestHead (candidates.filter (eligible parentOf latestSolidified))

end Walk

/-! ## The order -/

instance : Std.TransCmp cmp :=
  inferInstanceAs (Std.TransCmp (compareLex (compareOn number) fun a b => compareOn head b a))

instance : Std.LawfulEqCmp cmp where
  eq_of_compare {a b} h := by
    obtain ⟨hnumber, hhead⟩ := Ordering.then_eq_eq.1 h
    cases a
    cases b
    cases Std.LawfulEqOrd.eq_of_compare hnumber
    cases Std.LawfulEqOrd.eq_of_compare hhead
    rfl

/-- What is not greater in the order: a higher number wins, and then the smaller id. -/
theorem isLE_cmp_iff (a b : ForkChoice) :
    (cmp a b).isLE ↔ a.number < b.number ∨ (a.number = b.number ∧ (compare b.head a.head).isLE) := by
  unfold cmp
  rw [Ordering.isLE_then_iff_or, Int.compare_eq_lt, Int.compare_eq_eq]

/-! ## The walk -/

section Walks

variable {parentOf : BlockId → Option BlockId} {latestSolidified : BlockId}

/-- The ancestor so many steps back. -/
def ancestor (parentOf : BlockId → Option BlockId) : Nat → BlockId → Option BlockId
  | 0, id => some id
  | steps + 1, id => (parentOf id).bind (ancestor parentOf steps)

def Lowers (parentOf : BlockId → Option BlockId) : Prop :=
  ∀ id p, parentOf id = some p → height p < height id

theorem height_ancestor (hl : Lowers parentOf) {steps : Nat} {id a : BlockId}
    (h : ancestor parentOf steps id = some a) : a = id ∨ height a < height id := by
  induction steps generalizing id with
  | zero =>
    cases h
    exact .inl rfl
  | succ steps ih =>
    obtain ⟨p, hp, h⟩ := bind_eq_some_iff.1 h
    have hlt := hl id p hp
    rcases ih h with rfl | hle
    · exact .inr hlt
    · exact .inr (by omega)

/-- **The bounded walk finds the solidified block exactly if it is an ancestor within the bound.** -/
theorem reaches_iff (hl : Lowers parentOf) (bound : Nat) (id : BlockId) :
    reaches parentOf latestSolidified bound id = true ↔
      ∃ steps < bound, ancestor parentOf steps id = some latestSolidified := by
  induction bound generalizing id with
  | zero => simp [reaches]
  | succ bound ih =>
    unfold reaches
    by_cases hid : id = latestSolidified
    · rw [if_pos hid]
      exact ⟨fun _ => ⟨0, Nat.succ_pos _, congrArg some hid⟩, fun _ => rfl⟩
    · rw [if_neg hid]
      constructor
      · intro h
        split at h
        · cases h
        · split at h
          · cases h
          · next p hp =>
            obtain ⟨steps, hsteps, h⟩ := (ih p).1 h
            exact ⟨steps + 1, Nat.succ_lt_succ hsteps, by rw [ancestor, hp]; exact h⟩
      · rintro ⟨steps, hsteps, h⟩
        -- the solidified block is further back, so at a lower number
        have hlt : ¬ height id ≤ height latestSolidified := by
          rcases height_ancestor hl h with heq | hlt
          · exact absurd heq.symm hid
          · omega
        rw [if_neg hlt]
        cases steps with
        | zero => exact absurd (some.inj h) hid
        | succ steps =>
          obtain ⟨p, hp, h⟩ := bind_eq_some_iff.1 h
          rw [hp]
          exact (ih p).2 ⟨steps, Nat.lt_of_succ_lt_succ hsteps, h⟩

/-- A candidate at the number its id gives is eligible exactly if its walk reaches the solidified block. -/
theorem eligible_iff (hl : Lowers parentOf) {cand : ForkChoice} (hnumber : cand.number = height cand.head) :
    eligible parentOf latestSolidified cand = true ↔
      ∃ steps < WALK_HORIZON, ancestor parentOf steps cand.head = some latestSolidified := by
  unfold eligible
  split
  · next hbelow =>
    refine ⟨fun h => absurd h Bool.false_ne_true, fun ⟨steps, _, h⟩ => ?_⟩
    rcases height_ancestor hl h with heq | hlt
    · rw [heq] at hbelow
      omega
    · omega
  · split
    · next hsame =>
      rw [decide_eq_true_iff]
      refine ⟨fun h => ⟨0, by decide, congrArg some h⟩, fun ⟨steps, _, h⟩ => ?_⟩
      rcases height_ancestor hl h with heq | hlt
      · exact heq.symm
      · omega
    · exact reaches_iff hl WALK_HORIZON cand.head

end Walks

end ForkChoice

/-! ## Trees -/

namespace KhaosDb

open History (after)
open KhaosStore (Numbered)

variable {B : Type}

/-- The parent of a block of the tree, by its pointer. -/
def parentOf (db : KhaosDb B) (id : BlockId) : Option BlockId :=
  (db.get id).bind fun b => (b.ancestors.head?.filter db.alive).map (·.id)

theorem height_parent {s : KhaosStore (WireBlock B)} (hs : s.Numbered) (hn : Named s) {id : BlockId}
    {b : KhaosBlock (WireBlock B)} (hb : s.byHash.lookup id = some b) {p : WireNode B} (hp : b.ancestors.head? = some p) :
    height p.id < height id := by
  have hmem := mem_of_mem_head? hp
  have hlt := num_lt_of_mem b hmem
  rw [hn id b hb p hmem, (hs.found hb).2.1] at hlt
  exact hlt

/-- No block of the stash has a pointer. -/
def Rootless (s : KhaosStore (WireBlock B)) : Prop := ∀ id b, s.byHash.lookup id = some b → b.ancestors = []

theorem StashMove.rootless {g g' : Inner B} {c : Call B} (h : StashMove g g' c) (hs : Rootless g.miniUnlinkedStore) :
    Rootless g'.miniUnlinkedStore := by
  have hkept : ∀ {keep : BlockId → Bool} {s s' : KhaosStore (WireBlock B)}, KhaosStore.Kept keep s s' → Rootless s →
      Rootless s' := by
    intro keep s s' hk hs id b hb
    rw [hk.lookup] at hb
    split at hb
    · exact hs id b hb
    · cases hb
  cases h with
  | same h _ =>
    rw [h]
    exact hs
  | prune t h _ => exact hkept h hs
  | stash n t _ _ _ _ h _ =>
    refine hkept h fun id b hb => ?_
    rw [KhaosStore.lookup_insert] at hb
    split at hb
    · cases hb
      rfl
    · exact hs id b hb
  | take keep h _ => exact hkept h hs
  | drop id _ h _ => exact hkept h hs

theorem lowers_after (fmt : BlockFormat B) (calls : List (Call B)) :
    ForkChoice.Lowers (parentOf (after (step fmt) .new calls).toKhaosDb) := by
  have hinv : Ordered (after (step fmt) .new calls) ∧ Named (after (step fmt) .new calls).miniStore ∧
      Rootless (after (step fmt) .new calls).miniUnlinkedStore := by
    refine History.invariant (I := fun g => Ordered g ∧ Named g.miniStore ∧ Rootless g.miniUnlinkedStore) ?_ ?_ calls
    · exact ⟨ordered_new, fun _ _ h => (by cases h), fun _ _ h => (by cases h)⟩
    · rintro g c ⟨hordered, hnamed, hroots⟩
      obtain ⟨hl, hs⟩ := @step_moves _ fmt _ hordered c
      exact ⟨step_ordered fmt g c hordered, hl.named hnamed hordered.linked, hs.rootless hroots⟩
  obtain ⟨hordered, hnamed, hroots⟩ := hinv
  intro id p h
  obtain ⟨b, hb, h⟩ := bind_eq_some_iff.1 h
  obtain ⟨n, hn, rfl⟩ := map_eq_some_iff.1 h
  have hhead := (filter_eq_some_iff.1 hn).1
  rcases or_eq_some_iff.1 hb with hb | ⟨-, hb⟩
  · exact height_parent hordered.linked hnamed hb hhead
  · rw [hroots id b hb] at hhead
    cases hhead

end KhaosDb

namespace ForkChoice

open History (after)
open KhaosDb (Call Inner parentOf step)

/-- **The tree has no cycles**: after any calls, no walk along parents comes back to where it began. -/
theorem tree_acyclic {B : Type} (fmt : BlockFormat B) (calls : List (Call B)) (id : BlockId) (steps : Nat) :
    ancestor (parentOf (after (step fmt) .new calls).toKhaosDb) (steps + 1) id ≠ some id := by
  intro h
  have hl := KhaosDb.lowers_after fmt calls
  obtain ⟨p, hp, h⟩ := bind_eq_some_iff.1 h
  have hlt := hl id p hp
  rcases height_ancestor hl h with rfl | hle
  · omega
  · omega

/-- **Fork choice.**  In every tree, for candidates at the numbers their ids give: the choice is a candidate whose
walk reaches the solidified block within the horizon, and of all such candidates it has the highest number, and of
those the smallest id; there is none exactly if no candidate's walk reaches it; and the order of the candidates does
not matter. -/
theorem best_head_solidified {B : Type} (fmt : BlockFormat B) (calls : List (Call B)) (latestSolidified : BlockId)
    {candidates : List ForkChoice} (hnumber : ∀ c ∈ candidates, c.number = height c.head) :
    let parents := parentOf (after (step fmt) .new calls).toKhaosDb
    let Contains (c : ForkChoice) : Prop := ∃ steps < WALK_HORIZON, ancestor parents steps c.head = some latestSolidified
    (∀ best, bestHeadWithSolidified parents latestSolidified candidates = .ok best →
      best ∈ candidates ∧ Contains best ∧ ∀ c ∈ candidates, Contains c →
        c.number < best.number ∨ (c.number = best.number ∧ (compare best.head c.head).isLE)) ∧
    ((∃ err, bestHeadWithSolidified parents latestSolidified candidates = .error err) ↔
      ∀ c ∈ candidates, ¬ Contains c) ∧
    ∀ candidates', candidates'.Perm candidates → bestHeadWithSolidified parents latestSolidified candidates' =
        bestHeadWithSolidified parents latestSolidified candidates := by
  intro parents Contains
  have hl := KhaosDb.lowers_after fmt calls
  have hmem : ∀ c, c ∈ candidates.filter (eligible parents latestSolidified) ↔ c ∈ candidates ∧ Contains c := by
    intro c
    rw [mem_filter]
    exact and_congr_right fun hc => eligible_iff hl (hnumber c hc)
  refine ⟨fun best hbest => ?_, ?_, fun candidates' hperm => ?_⟩
  · unfold bestHeadWithSolidified bestHead at hbest
    split at hbest
    · cases hbest
    · split at hbest
      · cases hbest
      · rcases MaxBy.maxBy_spec cmp (candidates.filter (eligible parents latestSolidified)) with
          ⟨m, hm, hg⟩ | ⟨hm, -⟩
        · rw [hm] at hbest
          cases hbest
          obtain ⟨hbest, hcontains⟩ := (hmem best).1 hg.mem
          exact ⟨hbest, hcontains, fun c hc hcc => (isLE_cmp_iff c best).1 (hg.le c ((hmem c).2 ⟨hc, hcc⟩))⟩
        · rw [hm] at hbest
          cases hbest
  · unfold bestHeadWithSolidified bestHead
    constructor
    · rintro ⟨err, herr⟩ c hc hcc
      have hin := (hmem c).2 ⟨hc, hcc⟩
      rw [if_neg (by simpa using ne_nil_of_mem hc), if_neg (by simpa using ne_nil_of_mem hin)] at herr
      rcases MaxBy.maxBy_spec cmp (candidates.filter (eligible parents latestSolidified)) with
        ⟨m, hm, -⟩ | ⟨-, hnil⟩
      · rw [hm] at herr
        cases herr
      · rw [hnil] at hin
        cases hin
    · intro hnone
      have hnil : candidates.filter (eligible parents latestSolidified) = [] :=
        eq_nil_iff_forall_not_mem.2 fun c hc => hnone c ((hmem c).1 hc).1 ((hmem c).1 hc).2
      rw [hnil]
      split
      · exact ⟨_, rfl⟩
      · exact ⟨_, rfl⟩
  · have hfilter := hperm.filter (eligible parents latestSolidified)
    unfold bestHeadWithSolidified bestHead
    rw [hperm.isEmpty_eq, hfilter.isEmpty_eq, MaxBy.maxBy_eq_of_mem_iff fun c => hfilter.mem_iff]

namespace Sample

open KhaosDb.Sample

def tree : KhaosDb (WireBlock BlockHeaderRaw) := (after (step format) .new [.start first, push second]).toKhaosDb

theorem best_head_solidified_second :
    bestHeadWithSolidified (parentOf tree) (idOf first) [⟨idOf second, 6⟩, ⟨idOf first, 5⟩] = .ok ⟨idOf second, 6⟩ ∧
      ∃ steps < WALK_HORIZON, ancestor (parentOf tree) steps (idOf second) = some (idOf first) := by
  have hbest : bestHeadWithSolidified (parentOf tree) (idOf first) [⟨idOf second, 6⟩, ⟨idOf first, 5⟩] =
      .ok ⟨idOf second, 6⟩ := by decide +kernel
  have hnumber : ∀ c ∈ [ForkChoice.mk (idOf second) 6, ⟨idOf first, 5⟩], c.number = height c.head := by
    decide +kernel
  obtain ⟨hchoice, -⟩ := best_head_solidified format [.start first, push second] (idOf first) hnumber
  exact ⟨hbest, (hchoice _ hbest).2.1⟩

/-- The number that a candidate comes with is believed: a child of the solidified block that claims its parent's
number is turned away. -/
theorem misnumbered_turned_away :
    ancestor (parentOf tree) 1 (idOf second) = some (idOf first) ∧
      bestHeadWithSolidified (parentOf tree) (idOf first) [⟨idOf second, 5⟩] =
        .error .allCandidatesDivergeFromSolidified := by
  decide +kernel

end Sample

end ForkChoice

end TronGoblin
