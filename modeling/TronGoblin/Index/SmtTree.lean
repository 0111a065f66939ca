import TronGoblin.Index.SmtPaths

/-!
# The full tree, and what is read of it

* `nodeHash`: the hash of a node in the full tree of 256 levels over a set of leaves.
* `Backend.Inv`: the stored nodes are those with leaves on both sides, with their hashes.
* `readAtHeight_getD`: what is read is the hash in the full tree.
-/

namespace TronGoblin.Commitment

open SparseTree Backend
open Assoc (Table)

variable (keccak256 : Bytes → NodeHash)

/-! ## The full tree -/

/-- A set of leaves with their values. -/
abbrev Leaves := LeafPath → Option NodeHash

def hashing : Hashing LeafPath NodeHash NodeHash where
  leaf := hashLeaf keccak256
  node := hashInternalRaw keccak256
  empty := zeroes

def nodeHash (L : Leaves) (level : Nat) (q : LeafPath) : NodeHash :=
  tree paths (hashing keccak256) L (DEPTH - level) q

theorem emptyHash_eq (h : Nat) : emptyHash keccak256 h = default (hashing keccak256) h := by
  induction h with
  | zero => rfl
  | succ h ih => rw [emptyHash, ih, SparseTree.default]; rfl

variable {keccak256} {L L' : Leaves} {l : Nat} {p q : LeafPath}

theorem defaultHash_succ (hl : l < DEPTH) :
    defaultHash keccak256 l = hashInternalRaw keccak256 (defaultHash keccak256 (l + 1))
      (defaultHash keccak256 (l + 1)) := by
  unfold defaultHash
  rw [show DEPTH - l = DEPTH - (l + 1) + 1 by omega, emptyHash]

/-- The shortcut for empty children changes no hash. -/
theorem hashInternal_eq (hl : l < DEPTH) (left right : NodeHash) :
    hashInternal keccak256 l left right = hashInternalRaw keccak256 left right := by
  unfold hashInternal
  split
  · rename_i h
    rw [h.1, h.2, defaultHash_succ hl]
  · rfl

theorem nodeHash_empty (hl : l ≤ DEPTH) (hq : IsNode paths l q) (h : ¬ Occupied paths L l q) :
    nodeHash keccak256 L l q = defaultHash keccak256 l := by
  unfold nodeHash defaultHash
  rw [emptyHash_eq]
  exact tree_empty (show l + (DEPTH - l) = DEPTH by omega) hq h

theorem nodeHash_congr (hl : l ≤ DEPTH) (hq : IsNode paths l q) (h : ∀ p, maskPrefix p l = q → L p = L' p) :
    nodeHash keccak256 L l q = nodeHash keccak256 L' l q :=
  tree_congr (show l + (DEPTH - l) = DEPTH by omega) hq h

theorem nodeHash_node (hl : l < DEPTH) (q : LeafPath) :
    nodeHash keccak256 L l q = hashInternalRaw keccak256 (nodeHash keccak256 L (l + 1) q)
      (nodeHash keccak256 L (l + 1) (siblingPrefix q l)) := by
  unfold nodeHash
  rw [show DEPTH - l = DEPTH - (l + 1) + 1 by omega]
  exact tree_succ (show l + (DEPTH - (l + 1) + 1) = DEPTH by omega) q

/-- The same, from the child on a path and its sibling. -/
theorem nodeHash_mask (hl : l < DEPTH) (p : LeafPath) :
    nodeHash keccak256 L l (maskPrefix p l) = if pathBit p l then
        hashInternalRaw keccak256 (nodeHash keccak256 L (l + 1) (siblingPrefix p l))
          (nodeHash keccak256 L (l + 1) (maskPrefix p (l + 1)))
      else
        hashInternalRaw keccak256 (nodeHash keccak256 L (l + 1) (maskPrefix p (l + 1)))
          (nodeHash keccak256 L (l + 1) (siblingPrefix p l)) := by
  unfold nodeHash
  rw [show DEPTH - l = DEPTH - (l + 1) + 1 by omega]
  exact tree_mask (show l + (DEPTH - (l + 1) + 1) = DEPTH by omega) p

theorem nodeHash_leaf (p : LeafPath) :
    nodeHash keccak256 L DEPTH p = ((L p).map (hashLeaf keccak256 p)).getD (defaultHash keccak256 DEPTH) := by
  unfold nodeHash defaultHash
  rw [Nat.sub_self, tree]
  cases L p <;> rfl

variable {h : Nat}

theorem spineHash_eq (p : LeafPath) (v : NodeHash) (hh : h ≤ DEPTH) :
    spineHash keccak256 p v h = spine paths (hashing keccak256) p v h := by
  induction h with
  | zero => rfl
  | succ h ih =>
    have hdefault : defaultHash keccak256 (DEPTH - (h + 1) + 1) = default (hashing keccak256) h := by
      unfold defaultHash
      rw [emptyHash_eq, show DEPTH - (DEPTH - (h + 1) + 1) = h by omega]
    rw [spineHash, spine]
    simp only [hashInternal_eq (show DEPTH - (h + 1) < DEPTH by omega), ih (by omega), hdefault]
    rfl

theorem nodeHash_spine (hl : l ≤ DEPTH) {v : NodeHash} (hp : L p = some v)
    (hone : ∀ p' v', L p' = some v' → maskPrefix p' l = maskPrefix p l → p' = p) :
    nodeHash keccak256 L l (maskPrefix p l) = spineHash keccak256 p v (DEPTH - l) := by
  rw [spineHash_eq p v (Nat.sub_le _ _)]
  exact @tree_spine _ _ _ paths (hashing keccak256) L l (DEPTH - l)
    (show l + (DEPTH - l) = DEPTH by omega) p v hp hone

theorem isNode_maskPrefix (p : LeafPath) (l : Nat) : IsNode paths l (maskPrefix p l) :=
  isNode_mask paths p l

theorem isNode_siblingPrefix (hl : l < DEPTH) (p : LeafPath) :
    IsNode paths (l + 1) (siblingPrefix p l) := isNode_sibling hl p

/-! ## Reading -/

theorem mem_inOrder {β : Type} {m : Table LeafPath β} {e : LeafPath × β} : e ∈ inOrder m ↔ m.lookup e.1 = some e.2 := by
  unfold inOrder
  rw [(List.perm_insertionSort _ _).mem_iff, List.mem_map]
  constructor
  · rintro ⟨⟨k, v⟩, hmem, rfl⟩
    exact AList.mem_lookup_iff.2 hmem
  · intro h
    exact ⟨⟨e.1, e.2⟩, AList.mem_lookup_iff.1 h, rfl⟩

/-- The stored nodes are exactly those with leaves below both children, with their hashes. -/
def Backend.Inv (keccak256 : Bytes → NodeHash) (b : Backend) : Prop :=
  ∀ level q hash, b.nodes.lookup (level, q) = some hash ↔
    level < DEPTH ∧ IsNode paths level q ∧ Branch paths b.leaves.lookup level q ∧
      hash = nodeHash keccak256 b.leaves.lookup level q

variable {b : Backend}

theorem mem_leavesUnder {e : LeafPath × NodeHash} (hq : IsNode paths l q) :
    e ∈ (inOrder b.leaves).filter (fun e => maskPrefix e.1 l = maskPrefix q l) ↔
      b.leaves.lookup e.1 = some e.2 ∧ maskPrefix e.1 l = q := by
  have hq' : maskPrefix q l = q := hq
  rw [List.mem_filter, mem_inOrder, decide_eq_true_eq, hq']

/-- A node that is not stored, by the leaves below it. -/
theorem readAtHeight_unstored (hd : l + (h + 1) = DEPTH) (hq : IsNode paths l q)
    (hnode : b.nodes.lookup (l, q) = none) :
    b.readAtHeight keccak256 (h + 1) q =
      match b.leavesUnder l q 2 with
      | [] => none
      | [leaf] => some (spineHash keccak256 leaf.1 leaf.2 (h + 1))
      | _ => some (hashInternal keccak256 l ((b.readAtHeight keccak256 h q).getD (defaultHash keccak256 (l + 1)))
          ((b.readAtHeight keccak256 h (siblingPrefix q l)).getD (defaultHash keccak256 (l + 1)))) := by
  obtain rfl : l = DEPTH - (h + 1) := by omega
  have hq₁ : maskPrefix q (DEPTH - (h + 1)) = q := hq
  have hq₂ : maskPrefix q (DEPTH - (h + 1) + 1) = q := hq.succ
  rw [readAtHeight]
  dsimp [getNode]
  rewrite [hq₁, hq₁, hnode, hq₂, setBit_eq_sibling (show DEPTH - (h + 1) < DEPTH by omega) hq]
  rfl

theorem readAtHeight_stored (hd : l + (h + 1) = DEPTH) (hq : IsNode paths l q) {hash : NodeHash}
    (hnode : b.nodes.lookup (l, q) = some hash) : b.readAtHeight keccak256 (h + 1) q = some hash := by
  obtain rfl : l = DEPTH - (h + 1) := by omega
  have hq₁ : maskPrefix q (DEPTH - (h + 1)) = q := hq
  rw [readAtHeight]
  dsimp [getNode]
  rw [hq₁, hq₁, hnode]

theorem readAtHeight_getD (hb : b.Inv keccak256) (hd : l + h = DEPTH) (hq : IsNode paths l q) :
    (b.readAtHeight keccak256 h q).getD (defaultHash keccak256 l) = nodeHash keccak256 b.leaves.lookup l q := by
  induction h generalizing l q with
  | zero =>
    obtain rfl : l = DEPTH := hd
    rw [nodeHash_leaf]
    rfl
  | succ h ih =>
    have hl : l < DEPTH := by omega
    cases hnode : b.nodes.lookup (l, q) with
    | some hash =>
      rw [readAtHeight_stored hd hq hnode]
      exact ((hb l q hash).1 hnode).2.2.2
    | none =>
      rw [readAtHeight_unstored hd hq hnode]
      have hmem := fun e => mem_leavesUnder (b := b) (e := e) hq
      unfold leavesUnder
      generalize (inOrder b.leaves).filter (fun e => maskPrefix e.1 l = maskPrefix q l) = under at hmem
      match under with
      | [] =>
        -- no leaf below: the default
        refine (nodeHash_empty (Nat.le_of_lt hl) hq ?_).symm
        rintro ⟨p, v, hp, hmask⟩
        exact absurd ((hmem (p, v)).2 ⟨hp, hmask⟩) (by simp)
      | [(p, v)] =>
        -- one leaf below: a spine
        obtain ⟨hp, hmask⟩ := (hmem (p, v)).1 (by simp)
        have hone : ∀ p' v', b.leaves.lookup p' = some v' → maskPrefix p' l = maskPrefix p l → p' = p := by
          intro p' v' hp' hmask'
          have hin := (hmem (p', v')).2 ⟨hp', hmask'.trans hmask⟩
          simp only [List.mem_singleton, Prod.mk.injEq] at hin
          exact hin.1
        rw [← hmask, nodeHash_spine (Nat.le_of_lt hl) hp hone, show DEPTH - l = h + 1 by omega]
        rfl
      | _ :: _ :: _ =>
        -- the children are read in turn
        simp only [List.take, Option.getD_some]
        rw [hashInternal_eq hl, ih (by omega) hq.succ, ih (by omega) (isNode_siblingPrefix hl q), nodeHash_node hl]

end TronGoblin.Commitment
