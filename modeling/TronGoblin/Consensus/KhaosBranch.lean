import TronGoblin.Consensus.KhaosPointers
import TronGoblin.Lib.Ancestry

/-!
# Branches of the fork tree

`KhaosDb::get_branch` and `get_branch_deep` (`tron-consensus/src/khaos.rs`) return the paths from two blocks down to
their lowest common ancestor.  The first follows the parent pointers within the linked store; the second follows the
parent hashes, and asks a store on disk for what is not linked.

* `getBranchDeep`: the second walk.
* `getBranch_spec`: the first walk finds the lowest common ancestor, or there is none.
* `branches_agree`: both walks, over the union of the linked store and the disk.
* `ancestors_not_found`: a parent that was pushed again, and a disk whose numbers do not go down.
-/

namespace TronGoblin.KhaosDb

open List Option Ancestry
open Ancestry (Branches Carries Common Graded WalkError)
open History (after Each)

variable {B : Type}

/-! ## Walking onto disk -/

section Deep

variable (fmt : BlockFormat B) (fetch : BlockId → Option B) (db : KhaosDb (WireBlock B))

/-- A block by its id: linked, or else on disk.  A block from disk is a new allocation each time; it is not told
apart from others here. -/
def resolve (id : BlockId) : Option (WireNode B) :=
  ((db.miniStore.byHash.lookup id).map (·.node)).or
    ((fetch id).bind fun block => KhaosNode.newWithRaw fmt 0 block none)

/-- The block that the parent hash leads to. -/
def parentDeep (n : WireNode B) : Option (WireNode B) := (n.parentId fmt).bind (resolve fmt fetch db)

/-- `KhaosDb::get_branch_deep`; the error `missing` is `NonCommonBlockError`. -/
def getBranchDeep (fuel : Nat) (id₁ id₂ : BlockId) : Except WalkError (List (WireNode B) × List (WireNode B)) := do
  let b₁ ← Checked.orFail (resolve fmt fetch db id₁) .missing
  let b₂ ← Checked.orFail (resolve fmt fetch db id₂) .missing
  branch (parentDeep fmt fetch db) (·.num) (·.id) fuel b₁ b₂

end Deep

/-! ## Walking along the pointers -/

/-- A block, with the blocks its parent pointers lead to. -/
abbrev Standing (B : Type) := KhaosNode B × List (KhaosNode B)

/-- The parent, where the pointer can be followed and the parent is linked. -/
def parentLinked (db : KhaosDb B) (held : Nat → Bool) : Standing B → Option (Standing B)
  | (_, []) => none
  | (_, p :: ps) => if db.reachable held p then some (p, ps) else none

section Pointers

variable {db : KhaosDb B} {held : Nat → Bool}

variable {p : KhaosNode B}

theorem parentLinked_pos (h : db.reachable held p = true) (b : KhaosNode B) (ps : List (KhaosNode B)) :
    db.parentLinked held (b, p :: ps) = some (p, ps) := if_pos h

theorem parentLinked_neg (h : db.reachable held p = false) (b : KhaosNode B) (ps : List (KhaosNode B)) :
    db.parentLinked held (b, p :: ps) = none := if_neg (by rw [h]; exact Bool.false_ne_true)

theorem parentLinked_cons {b : KhaosNode B} {ps : List (KhaosNode B)} {q : Standing B}
    (h : db.parentLinked held (b, p :: ps) = some q) : db.reachable held p = true ∧ q = (p, ps) := by
  cases hp : db.reachable held p with
  | false =>
    rw [parentLinked_neg hp] at h
    cases h
  | true =>
    rw [parentLinked_pos hp] at h
    exact ⟨rfl, (some.inj h).symm⟩

theorem descend_eq_level (floor : Int) (b : KhaosNode B) (ancestors : List (KhaosNode B)) (fuel : Nat)
    (hfuel : ancestors.length < fuel) : db.descend held floor b ancestors =
      (level (db.parentLinked held) (·.1.num) floor fuel (b, ancestors)).toOption.map (Prod.map (map Prod.fst) id) := by
  obtain ⟨fuel, rfl⟩ := Nat.exists_eq_succ_of_ne_zero (Nat.ne_zero_of_lt hfuel)
  induction ancestors generalizing b fuel with
  | nil =>
    rw [level, descend]
    split <;> rfl
  | cons p ps ih =>
    obtain ⟨fuel, rfl⟩ := Nat.exists_eq_succ_of_ne_zero (show fuel ≠ 0 by rw [length_cons] at hfuel; omega)
    rw [level, descend]
    split
    · cases hp : db.reachable held p with
      | false =>
        rw [parentLinked_neg hp]
        rfl
      | true =>
        rw [parentLinked_pos hp, if_pos rfl, ih p fuel (Nat.lt_of_succ_lt_succ hfuel)]
        dsimp only
        cases level (db.parentLinked held) (·.1.num) floor (fuel + 1) (p, ps) <;> rfl
    · rfl

theorem meet_eq_together (b₁ : KhaosNode B) (anc₁ : List (KhaosNode B)) (b₂ : KhaosNode B) (anc₂ : List (KhaosNode B))
    (fuel : Nat) (hfuel : anc₁.length < fuel) : db.meet held b₁ anc₁ b₂ anc₂ =
      (together (db.parentLinked held) (·.1.id) fuel (b₁, anc₁) (b₂, anc₂)).toOption.map
        (Prod.map (map Prod.fst) (map Prod.fst)) := by
  obtain ⟨fuel, rfl⟩ := Nat.exists_eq_succ_of_ne_zero (Nat.ne_zero_of_lt hfuel)
  induction anc₁ generalizing b₁ b₂ anc₂ fuel with
  | nil =>
    rw [together]
    unfold meet
    split <;> rfl
  | cons p₁ ps₁ ih =>
    obtain ⟨fuel, rfl⟩ := Nat.exists_eq_succ_of_ne_zero (show fuel ≠ 0 by rw [length_cons] at hfuel; omega)
    rw [together]
    cases anc₂ with
    | nil =>
      unfold meet
      split
      · rfl
      · cases db.parentLinked held (b₁, p₁ :: ps₁) <;> rfl
    | cons p₂ ps₂ =>
      rw [meet]
      split
      · rfl
      · cases h₁ : db.reachable held p₁ with
        | false =>
          rw [parentLinked_neg h₁]
          rfl
        | true =>
          cases h₂ : db.reachable held p₂ with
          | false =>
            rw [parentLinked_pos h₁, parentLinked_neg h₂]
            rfl
          | true =>
            rw [parentLinked_pos h₁, parentLinked_pos h₂, ih p₁ p₂ ps₂ fuel (Nat.lt_of_succ_lt_succ hfuel)]
            dsimp only
            cases together (db.parentLinked held) (·.1.id) (fuel + 1) (p₁, ps₁) (p₂, ps₂) <;> rfl

/-- **`get_branch` is the walk along the pointers.** -/
theorem getBranch_eq_branch {id₁ id₂ : BlockId} {b₁ b₂ : KhaosBlock B} (h₁ : db.miniStore.byHash.lookup id₁ = some b₁)
    (h₂ : db.miniStore.byHash.lookup id₂ = some b₂) (fuel : Nat) (hf₁ : b₁.ancestors.length < fuel)
    (hf₂ : b₂.ancestors.length < fuel) : db.getBranch held id₁ id₂ =
      (branch (db.parentLinked held) (·.1.num) (·.1.id) fuel (b₁.node, b₁.ancestors) (b₂.node, b₂.ancestors)).toOption.map
        (Prod.map (map Prod.fst) (map Prod.fst)) := by
  have hd₁ := @descend_eq_level _ db held b₂.node.num b₁.node b₁.ancestors fuel hf₁
  unfold branch getBranch
  rw [h₁, h₂]
  simp only [bind, bind_some]
  cases hl₁ : level (db.parentLinked held) (·.1.num) b₂.node.num fuel (b₁.node, b₁.ancestors) with
  | error e =>
    rw [hd₁, hl₁]
    rfl
  | ok r₁ =>
    obtain ⟨l₁, c, anc⟩ := r₁
    rw [hl₁] at hd₁
    have hd₂ := @descend_eq_level _ db held c.num b₂.node b₂.ancestors fuel hf₂
    -- where the first walk ends there are no more ancestors than at first
    have hlen : anc.length < fuel := by
      have := congrArg List.length (descend_append hd₁)
      simp only [length_cons, length_append, length_map] at this
      omega
    rw [hd₁]
    simp only [Except.toOption, map_some, bind_some, Except.bind, Prod.map, id]
    cases hl₂ : level (db.parentLinked held) (·.1.num) c.num fuel (b₂.node, b₂.ancestors) with
    | error e =>
      rw [hd₂, hl₂]
      rfl
    | ok r₂ =>
      rw [hd₂, hl₂]
      simp only [Except.toOption, map_some, bind_some, Prod.map, id]
      rw [meet_eq_together _ _ _ _ fuel hlen]
      cases together (db.parentLinked held) (·.1.id) fuel (c, anc) r₂.2 with
      | error e => rfl
      | ok r => simp [Except.toOption, pure, Except.pure]

end Pointers

/-! ## The lowest common ancestor -/

section Spec

variable {fmt : BlockFormat B} {fetch : BlockId → Option B} {db : KhaosDb (WireBlock B)} {held : Nat → Bool}

/-- Numbers go down by one along the pointers, and are those of the ids. -/
structure Steady (s : Standing (WireBlock B)) : Prop where
  chain : List.IsChain (fun c p : WireNode B => c.num = p.num + 1) (s.1 :: s.2)
  named : ∀ n ∈ s.1 :: s.2, n.num = BlockId.height n.id

theorem graded_linked (db : KhaosDb (WireBlock B)) (held : Nat → Bool) :
    Graded (db.parentLinked held) (·.1.num) (·.1.id) (Steady (B := B)) := by
  have hnext : ∀ c p, Steady c → db.parentLinked held c = some p → Steady p ∧ c.1.num = p.1.num + 1 := by
    rintro ⟨b, _ | ⟨p, ps⟩⟩ q hc hq
    · cases hq
    · cases (parentLinked_cons hq).2
      obtain ⟨hnum, hchain⟩ := isChain_cons_cons.1 hc.chain
      exact ⟨⟨hchain, fun n hn => hc.named n (mem_cons_of_mem _ hn)⟩, hnum⟩
  refine ⟨fun c p hc hp => (hnext c p hc hp).1, fun c p hc hp => (hnext c p hc hp).2, fun c d hc hd hkey => ?_⟩
  rw [hc.named c.1 mem_cons_self, hd.named d.1 mem_cons_self, hkey]

theorem least_num {n : WireNode B} (h : n.num = BlockId.height n.id) : -0x8000000000000000 ≤ n.num := by
  rw [h]
  exact (Checked.fits_wrapI64 _).1

/-- **`get_branch` finds the lowest common ancestor along the pointers, or there is none.** -/
theorem getBranch_spec (hs : Sound fmt held db) {id₁ id₂ : BlockId} {b₁ b₂ : KhaosBlock (WireBlock B)}
    (h₁ : db.miniStore.byHash.lookup id₁ = some b₁) (h₂ : db.miniStore.byHash.lookup id₂ = some b₂) :
    (∃ l₁ l₂, Branches (db.parentLinked held) (·.1.num) (·.1.id) (b₁.node, b₁.ancestors) (b₂.node, b₂.ancestors) l₁ l₂ ∧
        db.getBranch held id₁ id₂ = some (l₁.map Prod.fst, l₂.map Prod.fst)) ∨
      ((∀ x y, ¬ Common (db.parentLinked held) (·.1.id) (b₁.node, b₁.ancestors) (b₂.node, b₂.ancestors) x y) ∧
        db.getBranch held id₁ id₂ = none) := by
  have hb₁ : Steady (b₁.node, b₁.ancestors) := ⟨b₁.chain, (hs.found id₁ b₁ h₁).2⟩
  have hb₂ : Steady (b₂.node, b₂.ancestors) := ⟨b₂.chain, (hs.found id₂ b₂ h₂).2⟩
  have hlow : ∀ s, Steady (B := B) s → -0x8000000000000000 ≤ s.1.num :=
    fun s hs => least_num (hs.named s.1 mem_cons_self)
  obtain ⟨fuel, hf₁, hf₂, hn₁, hn₂⟩ : ∃ fuel : Nat, b₁.ancestors.length < fuel ∧ b₂.ancestors.length < fuel ∧
      (b₁.node.num - -0x8000000000000000).toNat < fuel ∧ (b₂.node.num - -0x8000000000000000).toNat < fuel :=
    ⟨b₁.ancestors.length + b₂.ancestors.length + (b₁.node.num - -0x8000000000000000).toNat +
      (b₂.node.num - -0x8000000000000000).toNat + 1, by omega, by omega, by omega, by omega⟩
  have hspec := (graded_linked db held).branch_spec hlow hb₁ hb₂ hn₁ hn₂
  rw [getBranch_eq_branch h₁ h₂ fuel hf₁ hf₂]
  rcases hspec with ⟨l₁, l₂, hbranch, hlow⟩ | ⟨hbranch, hnone⟩
  · exact .inl ⟨l₁, l₂, hlow, by rw [hbranch]; rfl⟩
  · exact .inr ⟨hnone, by rw [hbranch]; rfl⟩

/-! ### The union with the disk -/

theorem resolve_num (hs : Sound fmt held db) {id : BlockId} {n : WireNode B} (h : resolve fmt fetch db id = some n) :
    n.num = BlockId.height n.id := by
  rcases or_eq_some_iff.1 h with h | ⟨-, h⟩
  · obtain ⟨b, hb, rfl⟩ := map_eq_some_iff.1 h
    exact (hs.found id b hb).2 _ mem_cons_self
  · obtain ⟨block, -, h⟩ := bind_eq_some_iff.1 h
    exact KhaosNode.newWithRaw_num h

theorem resolve_linked {id : BlockId} {b : KhaosBlock (WireBlock B)} (h : db.miniStore.byHash.lookup id = some b) :
    resolve fmt fetch db id = some b.node := by
  unfold resolve
  rw [h]
  rfl

/-- In the union of the linked store and the disk, parents are numbered one less. -/
def Descending (fmt : BlockFormat B) (fetch : BlockId → Option B) (db : KhaosDb (WireBlock B)) : Prop :=
  ∀ id n p, resolve fmt fetch db id = some n → parentDeep fmt fetch db n = some p → n.num = p.num + 1

theorem graded_deep (hs : Sound fmt held db) (hd : Descending fmt fetch db) :
    Graded (parentDeep fmt fetch db) (·.num) (·.id) fun n => ∃ id, resolve fmt fetch db id = some n := by
  refine ⟨fun c p _ hp => ?_, fun c p ⟨id, hc⟩ hp => hd id c p hc hp, fun c d ⟨_, hc⟩ ⟨_, hd⟩ hkey => ?_⟩
  · obtain ⟨pid, -, hp⟩ := bind_eq_some_iff.1 hp
    exact ⟨pid, hp⟩
  · rw [resolve_num hs hc, resolve_num hs hd, hkey]

/-- The block stands where its pointers lead, in the linked store. -/
def Linked (db : KhaosDb (WireBlock B)) (s : Standing (WireBlock B)) : Prop :=
  ∃ id b, db.miniStore.byHash.lookup id = some b ∧ s = (b.node, b.ancestors)

/-- Where a pointer can be followed, the parent hash leads to the same block. -/
theorem carries_deep (hs : Sound fmt held db) (fetch : BlockId → Option B) :
    Carries (db.parentLinked held) (·.1.num) (·.1.id) (parentDeep fmt fetch db) (·.num) (·.id) Prod.fst (Linked db) := by
  refine ⟨?_, fun _ => rfl, fun _ => rfl⟩
  rintro _ q ⟨id, b, hb, rfl⟩ hq
  cases hanc : b.ancestors with
  | nil =>
    rw [hanc] at hq
    cases hq
  | cons p ps =>
    rw [hanc] at hq
    obtain ⟨hp, rfl⟩ := parentLinked_cons hq
    obtain ⟨hparent, r, hr, rfl, rfl⟩ := hs.pointers id b p ps hb hanc hp
    refine ⟨⟨r.node.id, r, hr, rfl⟩, ?_⟩
    unfold parentDeep
    rw [hparent]
    exact resolve_linked hr

theorem getBranchDeep_linked {id₁ id₂ : BlockId} {b₁ b₂ : KhaosBlock (WireBlock B)}
    (h₁ : db.miniStore.byHash.lookup id₁ = some b₁) (h₂ : db.miniStore.byHash.lookup id₂ = some b₂) (fuel : Nat) :
    getBranchDeep fmt fetch db fuel id₁ id₂ = branch (parentDeep fmt fetch db) (·.num) (·.id) fuel b₁.node b₂.node := by
  unfold getBranchDeep
  rw [resolve_linked h₁, resolve_linked h₂]
  rfl

/-- **Branches.**  For two linked blocks, `get_branch` returns the paths along the parent pointers that can be followed
down to their lowest common ancestor in the linked store, or fails if there is none.  `get_branch_deep` ends: where
`get_branch` succeeds it returns the same paths, and where it fails, the paths in the union of the linked store and the
disk, or an error if there is no common ancestor there either. -/
theorem branches_agree (hs : Sound fmt held db) (hd : Descending fmt fetch db) {id₁ id₂ : BlockId}
    {b₁ b₂ : KhaosBlock (WireBlock B)} (h₁ : db.miniStore.byHash.lookup id₁ = some b₁)
    (h₂ : db.miniStore.byHash.lookup id₂ = some b₂) :
    ((∃ l₁ l₂, Branches (db.parentLinked held) (·.1.num) (·.1.id) (b₁.node, b₁.ancestors) (b₂.node, b₂.ancestors) l₁ l₂ ∧
        db.getBranch held id₁ id₂ = some (l₁.map Prod.fst, l₂.map Prod.fst)) ∨
      ((∀ x y, ¬ Common (db.parentLinked held) (·.1.id) (b₁.node, b₁.ancestors) (b₂.node, b₂.ancestors) x y) ∧
        db.getBranch held id₁ id₂ = none)) ∧
    ∃ enough, ∀ fuel, enough ≤ fuel →
      (∀ paths, db.getBranch held id₁ id₂ = some paths → getBranchDeep fmt fetch db fuel id₁ id₂ = .ok paths) ∧
      (db.getBranch held id₁ id₂ = none →
        (∃ l₁ l₂, Branches (parentDeep fmt fetch db) (·.num) (·.id) b₁.node b₂.node l₁ l₂ ∧
            getBranchDeep fmt fetch db fuel id₁ id₂ = .ok (l₁, l₂)) ∨
          ((∀ x y, ¬ Common (parentDeep fmt fetch db) (·.id) b₁.node b₂.node x y) ∧
            getBranchDeep fmt fetch db fuel id₁ id₂ = .error .missing)) := by
  refine ⟨getBranch_spec hs h₁ h₂, b₁.ancestors.length + b₂.ancestors.length +
    (b₁.node.num - -0x8000000000000000).toNat + (b₂.node.num - -0x8000000000000000).toNat + 1,
    fun fuel hfuel => ⟨fun paths hpaths => ?_, fun _ => ?_⟩⟩
  · rw [getBranchDeep_linked h₁ h₂]
    rw [getBranch_eq_branch h₁ h₂ fuel (by omega) (by omega)] at hpaths
    obtain ⟨l, hbranch, rfl⟩ := map_eq_some_iff.1 hpaths
    exact (carries_deep hs fetch).branch ⟨id₁, b₁, h₁, rfl⟩ ⟨id₂, b₂, h₂, rfl⟩ (Checked.toOption_eq_some.1 hbranch)
  · rw [getBranchDeep_linked h₁ h₂]
    have hlow : ∀ n : WireNode B, (∃ id, resolve fmt fetch db id = some n) → -0x8000000000000000 ≤ n.num :=
      fun n ⟨_, hn⟩ => least_num (resolve_num hs hn)
    have hspec := (graded_deep hs hd).branch_spec hlow ⟨id₁, resolve_linked h₁⟩ ⟨id₂, resolve_linked h₂⟩
      (show (b₁.node.num - -0x8000000000000000).toNat < fuel by omega)
      (show (b₂.node.num - -0x8000000000000000).toNat < fuel by omega)
    rcases hspec with ⟨l₁, l₂, hok, hbranches⟩ | ⟨herr, hnone⟩
    · exact .inl ⟨l₁, l₂, hbranches, hok⟩
    · exact .inr ⟨hnone, herr⟩

end Spec

namespace Sample

theorem forked_orderly : Each (step format) .new (Orderly format) forked :=
  .cons (fun _ _ => rfl) (.cons trivial (.cons trivial (History.each_nil _)))

theorem descending_of_all {db : KhaosDb (WireBlock BlockHeaderRaw)}
    (h : (Assoc.values db.miniStore.byHash).all (fun b =>
      (parentDeep format (fun _ => none) db b.node).all fun p => b.node.num = p.num + 1) = true) :
    Descending format (fun _ => none) db := by
  intro id n p hn hp
  rcases or_eq_some_iff.1 hn with hn | ⟨-, hn⟩
  · obtain ⟨b, hb, rfl⟩ := map_eq_some_iff.1 hn
    have hb' := all_eq_true.1 h b (mem_map.2 ⟨⟨id, b⟩, AList.mem_lookup_iff.1 hb, rfl⟩)
    rw [hp] at hb'
    exact of_decide_eq_true hb'
  · cases hn

theorem branches_agree_forked :
    let db := (after (step format) .new forked).toKhaosDb
    ∃ enough, ∀ fuel, enough ≤ fuel → ∃ paths,
      getBranchDeep format (fun _ => none) db fuel (idOf second) (idOf fork) = .ok paths ∧
        (paths.1.map (·.id), paths.2.map (·.id)) = ([idOf second], [idOf fork]) := by
  intro db
  obtain ⟨b₁, h₁⟩ : ∃ b, db.miniStore.byHash.lookup (idOf second) = some b :=
    isSome_iff_exists.1 (by decide +kernel)
  obtain ⟨b₂, h₂⟩ : ∃ b, db.miniStore.byHash.lookup (idOf fork) = some b :=
    isSome_iff_exists.1 (by decide +kernel)
  obtain ⟨-, enough, hdeep⟩ := branches_agree (sound_after format (fun _ => false) forked_orderly fun _ h => by cases h)
    (descending_of_all (by decide +kernel)) h₁ h₂
  have hget : (db.getBranch (fun _ => false) (idOf second) (idOf fork)).map
      (fun paths => (paths.1.map (·.id), paths.2.map (·.id))) = some ([idOf second], [idOf fork]) := by
    decide +kernel
  obtain ⟨paths, hpaths, hids⟩ := map_eq_some_iff.1 hget
  exact ⟨enough, fun fuel hfuel => ⟨paths, (hdeep fuel hfuel).1 paths hpaths, hids⟩⟩

/-- The parent of a linked block is removed and pushed again. -/
def pushedAgain : List (Call BlockHeaderRaw) := parentRemoved ++ [push second]

def fourth : BlockHeaderRaw := block 4 (idOf (block 3 zero 5)) 6

/-- A block that is numbered below its parent. -/
def low : BlockHeaderRaw := block 3 (idOf fourth) 7

/-- Two blocks with a common ancestor on disk. -/
def tall : BlockHeaderRaw := block 7 (idOf (block 6 (idOf low) 8)) 9

def short : BlockHeaderRaw := block 5 (idOf fourth) 9

def disk (id : BlockId) : Option BlockHeaderRaw :=
  [block 3 zero 5, fourth, low, block 6 (idOf low) 8].find? fun b => idOf b = id

/-- **Ancestors that are not found.**  The pointer to a parent that was removed is not followed although the parent is
linked again; and with numbers on disk that do not go down by one, the walks pass each other. -/
theorem ancestors_not_found :
    let again := (after (step format) .new pushedAgain).toKhaosDb
    let two := (after (step format) .new [.start tall, .start short]).toKhaosDb
    (Descending format (fun _ => none) again ∧ third.parentHash = idOf second ∧
      again.containsInLinked (idOf third) = true ∧ again.containsInLinked (idOf second) = true ∧
      (again.getBranch (fun _ => false) (idOf third) (idOf second)).isNone = true) ∧
    two.containsInLinked (idOf tall) = true ∧ two.containsInLinked (idOf short) = true ∧
      (getBranchDeep format disk two 9 (idOf tall) (idOf short)).map (fun _ => ()) = .error .missing :=
  ⟨⟨descending_of_all (by decide +kernel), by decide +kernel⟩, by decide +kernel⟩

end Sample

end TronGoblin.KhaosDb
