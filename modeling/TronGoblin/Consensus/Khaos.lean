import Mathlib.Data.List.Chain
import TronGoblin.Chainbase.Backend
import TronGoblin.Lib.Assoc

/-!
# The fork tree

Model of the parts of `KhaosDb` (`tron-consensus/src/khaos.rs`) that a fork switch uses.  A block in
the tree keeps a weak pointer to its parent, set when it was linked and only to a block one number
below; `KhaosBlock` carries the blocks that these pointers lead to, with that fact.  A pointer is
followed only while the block it points to is still held, by the tree or by a caller.

* `getBranch`: the two paths from two blocks down to their common ancestor.
* `getBranch_sublist`: both are parts of the blocks' own chains, so their numbers are distinct.
* `linked_removeAll`: removed blocks are not linked any more.
-/

namespace TronGoblin

open Option List
open Assoc (Table)

abbrev BlockId := Bytes

variable {B : Type}

structure KhaosNode (B : Type) where
  block : B
  id : BlockId
  num : Int
  /-- Which allocation this is: the same block pushed again is another one. -/
  serial : Nat

/-- A block and the blocks its parent pointers lead to, nearest first. -/
structure KhaosBlock (B : Type) where
  node : KhaosNode B
  ancestors : List (KhaosNode B)
  chain : IsChain (fun c p => c.num = p.num + 1) (node :: ancestors)

structure KhaosStore (B : Type) where
  byHash : Table BlockId (KhaosBlock B)
  byNum : Table Int (List (KhaosBlock B))

def KhaosStore.empty : KhaosStore B := ⟨∅, ∅⟩

def KhaosStore.insert (s : KhaosStore B) (b : KhaosBlock B) : KhaosStore B where
  byHash := s.byHash.insert b.node.id b
  byNum := s.byNum.insert b.node.num ((s.byNum.lookup b.node.num).getD [] ++ [b])

/-- `KhaosStore::remove`; `none` if there is no such block. -/
def KhaosStore.remove (s : KhaosStore B) (id : BlockId) : Option (KhaosStore B) :=
  match s.byHash.lookup id with
  | none => none
  | some b => some
    { byHash := s.byHash.erase id
      byNum := match s.byNum.lookup b.node.num with
        | none => s.byNum
        | some list =>
          let kept := list.filter fun c => c.node.id ≠ b.node.id
          if kept.isEmpty then s.byNum.erase b.node.num else s.byNum.insert b.node.num kept }

def KhaosStore.holds (s : KhaosStore B) : List (KhaosBlock B) := Assoc.values s.byHash ++ (Assoc.values s.byNum).flatten

structure KhaosDb (B : Type) where
  head : Option (KhaosBlock B)
  miniStore : KhaosStore B
  miniUnlinkedStore : KhaosStore B

namespace KhaosDb

variable (db : KhaosDb B) (id : BlockId)

def containsInLinked : Bool := (db.miniStore.byHash.lookup id).isSome

def get : Option (KhaosBlock B) :=
  (db.miniStore.byHash.lookup id).or (db.miniUnlinkedStore.byHash.lookup id)

def setHead (b : KhaosBlock B) : KhaosDb B := { db with head := some b }

/-- The first block of the highest number that is linked. -/
def electHead (s : KhaosStore B) : Option (KhaosBlock B) :=
  let highest := s.byNum.keys.foldl (fun best n => some (max (best.getD n) n)) none
  (highest.bind s.byNum.lookup).bind head?

/-- Remove a block from the linked store, or else from the other one, and elect a new head. -/
def remove : KhaosDb B :=
  match db.miniStore.remove id with
  | some s => { db with miniStore := s, head := electHead s }
  | none =>
    match db.miniUnlinkedStore.remove id with
    | some s => { db with miniUnlinkedStore := s, head := electHead db.miniStore }
    | none => db

/-- The block is still held by one of the stores or as the head. -/
def alive (n : KhaosNode B) : Bool :=
  (db.miniStore.holds ++ db.miniUnlinkedStore.holds ++ db.head.toList).any fun b => b.node.serial == n.serial

-- the allocations that callers hold
variable (held : Nat → Bool)

/-- A parent pointer that can be followed, to a block that is linked. -/
def reachable (n : KhaosNode B) : Bool := (held n.serial || db.alive n) && db.containsInLinked n.id

/-- Walk down from `b` to the number `floor`: the blocks passed, and where the walk ends. -/
def descend (floor : Int) : KhaosNode B → List (KhaosNode B) →
    Option (List (KhaosNode B) × KhaosNode B × List (KhaosNode B))
  | b, [] => if floor < b.num then none else some ([], b, [])
  | b, p :: ps =>
    if floor < b.num then
      if db.reachable held p then (descend floor p ps).map fun r => (b :: r.1, r.2) else none
    else some ([], b, p :: ps)

/-- Walk down from two blocks of equal number until they meet. -/
def meet : KhaosNode B → List (KhaosNode B) → KhaosNode B → List (KhaosNode B) →
    Option (List (KhaosNode B) × List (KhaosNode B))
  | b₁, p₁ :: ps₁, b₂, p₂ :: ps₂ =>
    if b₁.id = b₂.id then some ([], [])
    else if db.reachable held p₁ && db.reachable held p₂ then
      (meet p₁ ps₁ p₂ ps₂).map fun r => (b₁ :: r.1, b₂ :: r.2)
    else none
  | b₁, _, b₂, _ => if b₁.id = b₂.id then some ([], []) else none

/-- The paths from the two blocks down to, and without, their common ancestor; `none` is
`NonCommonBlockError`. -/
def getBranch (id₁ id₂ : BlockId) : Option (List (KhaosNode B) × List (KhaosNode B)) := do
  let b₁ ← db.miniStore.byHash.lookup id₁
  let b₂ ← db.miniStore.byHash.lookup id₂
  let (list₁, b₁, anc₁) ← db.descend held b₂.node.num b₁.node b₁.ancestors
  let (list₂, b₂, anc₂) ← db.descend held b₁.num b₂.node b₂.ancestors
  let (rest₁, rest₂) ← db.meet held b₁ anc₁ b₂ anc₂
  pure (list₁ ++ rest₁, list₂ ++ rest₂)

/-! ## Branches -/

variable {db held}

theorem descend_append {floor : Int} {b b' : KhaosNode B} {anc anc' path : List (KhaosNode B)}
    (h : db.descend held floor b anc = some (path, b', anc')) : b :: anc = path ++ b' :: anc' := by
  induction anc generalizing b path with
  | nil =>
    unfold descend at h
    split at h
    · cases h
    · cases h
      rfl
  | cons p ps ih =>
    unfold descend at h
    split at h
    · split at h
      · obtain ⟨⟨path', b'', anc''⟩, hr, heq⟩ := map_eq_some_iff.1 h
        cases heq
        rw [cons_append, ← ih hr]
      · cases h
    · cases h
      rfl

theorem meet_append {b₁ b₂ : KhaosNode B} {anc₁ anc₂ path₁ path₂ : List (KhaosNode B)}
    (h : db.meet held b₁ anc₁ b₂ anc₂ = some (path₁, path₂)) :
    (∃ rest, b₁ :: anc₁ = path₁ ++ rest) ∧ ∃ rest, b₂ :: anc₂ = path₂ ++ rest := by
  induction anc₁ generalizing b₁ b₂ anc₂ path₁ path₂ with
  | nil =>
    unfold meet at h
    split at h
    · cases h
      exact ⟨⟨_, rfl⟩, ⟨_, rfl⟩⟩
    · cases h
  | cons p₁ ps₁ ih =>
    cases anc₂ with
    | nil =>
      unfold meet at h
      split at h
      · cases h
        exact ⟨⟨_, rfl⟩, ⟨_, rfl⟩⟩
      · cases h
    | cons p₂ ps₂ =>
      unfold meet at h
      split at h
      · cases h
        exact ⟨⟨_, rfl⟩, ⟨_, rfl⟩⟩
      · split at h
        · obtain ⟨⟨path₁', path₂'⟩, hr, heq⟩ := map_eq_some_iff.1 h
          cases heq
          obtain ⟨⟨rest₁, h₁⟩, rest₂, h₂⟩ := ih hr
          exact ⟨⟨rest₁, by rw [h₁]; rfl⟩, rest₂, by rw [h₂]; rfl⟩
        · cases h

theorem getBranch_sublist {id₁ id₂ : BlockId} {path₁ path₂ : List (KhaosNode B)}
    (h : db.getBranch held id₁ id₂ = some (path₁, path₂)) :
    (∃ b : KhaosBlock B, path₁.Sublist (b.node :: b.ancestors)) ∧
      ∃ b : KhaosBlock B, path₂.Sublist (b.node :: b.ancestors) := by
  obtain ⟨b₁, -, h⟩ := bind_eq_some_iff.1 h
  obtain ⟨b₂, -, h⟩ := bind_eq_some_iff.1 h
  obtain ⟨⟨list₁, c₁, anc₁⟩, hd₁, h⟩ := bind_eq_some_iff.1 h
  obtain ⟨⟨list₂, c₂, anc₂⟩, hd₂, h⟩ := bind_eq_some_iff.1 h
  obtain ⟨⟨rest₁, rest₂⟩, hm, h⟩ := bind_eq_some_iff.1 h
  cases h
  obtain ⟨⟨tail₁, ht₁⟩, tail₂, ht₂⟩ := meet_append hm
  refine ⟨⟨b₁, ?_⟩, b₂, ?_⟩
  · rw [descend_append hd₁, ht₁, ← append_assoc]
    exact sublist_append_left ..
  · rw [descend_append hd₂, ht₂, ← append_assoc]
    exact sublist_append_left ..

end KhaosDb

theorem KhaosBlock.nums_nodup (b : KhaosBlock B) : ((b.node :: b.ancestors).map (·.num)).Nodup := by
  have hlt : IsChain (fun c p => p.num < c.num) (b.node :: b.ancestors) :=
    b.chain.imp fun c p h => by omega
  exact pairwise_map.2 (hlt.pairwise.imp fun h => (Int.ne_of_lt h).symm)

namespace KhaosDb

theorem getBranch_nodup {db : KhaosDb B} {held : Nat → Bool} {id₁ id₂ : BlockId} {path₁ path₂ : List (KhaosNode B)}
    (h : db.getBranch held id₁ id₂ = some (path₁, path₂)) :
    (path₁.map (·.num)).Nodup ∧ (path₂.map (·.num)).Nodup := by
  obtain ⟨⟨b₁, h₁⟩, b₂, h₂⟩ := getBranch_sublist h
  exact ⟨b₁.nums_nodup.sublist (h₁.map _), b₂.nums_nodup.sublist (h₂.map _)⟩

/-! ## Removal -/

theorem linked_remove (db : KhaosDb B) (id id' : BlockId) :
    (db.remove id').containsInLinked id = (decide (id ≠ id') && db.containsInLinked id) := by
  unfold remove KhaosStore.remove containsInLinked
  cases hl : db.miniStore.byHash.lookup id' with
  | some b =>
    rw [Assoc.lookup_erase_eq]
    by_cases hid : id = id'
    · simp [hid]
    · simp [hid]
  | none =>
    -- the block was not linked, and the linked store is left alone
    have hsame : (db.miniStore.byHash.lookup id).isSome =
        (decide (id ≠ id') && (db.miniStore.byHash.lookup id).isSome) := by
      by_cases hid : id = id'
      · subst hid
        simp [hl]
      · simp [hid]
    dsimp only
    split <;> exact hsame

def removeAll (db : KhaosDb B) (nodes : List (KhaosNode B)) : KhaosDb B :=
  nodes.foldl (fun db n => db.remove n.id) db

theorem linked_removeAll (db : KhaosDb B) (nodes : List (KhaosNode B)) (id : BlockId) :
    (db.removeAll nodes).containsInLinked id = (decide (id ∉ nodes.map (·.id)) && db.containsInLinked id) := by
  induction nodes generalizing db with
  | nil => simp [removeAll]
  | cons n nodes ih =>
    show ((db.remove n.id).removeAll nodes).containsInLinked id = _
    rw [ih, linked_remove]
    by_cases hid : id = n.id
    · simp [hid]
    · simp [hid]

end KhaosDb

end TronGoblin
