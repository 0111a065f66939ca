import Mathlib.Data.List.AList

/-!
# Sparse Merkle trees

Full binary trees over paths of a fixed number of bits, most of whose leaves are empty.  A node is a
level and the first bits of the paths below it; the remaining bits of its path are zeros.

* `BitPaths`: paths, with the operations on nodes that an implementation has.
* `tree`: the hash of the full subtree at a node.
* `tree_empty`: a subtree without leaves has the default hash of its height.
* `tree_congr`: the hash depends on the leaves below the node only.
* `tree_spine`: a single leaf, hashed up to the node against defaults.
-/

namespace SparseTree

/-- Paths of `depth` bits.  `mask p l` is the node of `p` at level `l`, and `sibling p l` the sibling of
its node at level `l + 1`. -/
structure BitPaths (K : Type) where
  depth : Nat
  bit : K → Nat → Bool
  mask : K → Nat → K
  sibling : K → Nat → K
  ext : ∀ p q, (∀ i, i < depth → bit p i = bit q i) → p = q
  bit_mask : ∀ p l i, i < depth → bit (mask p l) i = (decide (i < l) && bit p i)
  bit_sibling : ∀ p l i, l < depth → i < depth →
    bit (sibling p l) i = if i = l then !bit p l else (decide (i < l) && bit p i)

/-- How leaves and nodes are hashed. -/
structure Hashing (K V H : Type) where
  leaf : K → V → H
  node : H → H → H
  /-- The hash of an empty leaf slot. -/
  empty : H

/-! ## Nodes -/

section Nodes

variable {K : Type} (B : BitPaths K)

theorem mask_of_le (p : K) {l : Nat} (h : B.depth ≤ l) : B.mask p l = p := by
  apply B.ext
  intro i hi
  rw [B.bit_mask p l i hi]
  simp [show i < l by omega]

theorem mask_mask (p : K) {l m : Nat} (h : l ≤ m) : B.mask (B.mask p m) l = B.mask p l := by
  apply B.ext
  intro i hi
  rw [B.bit_mask _ l i hi, B.bit_mask p m i hi, B.bit_mask p l i hi]
  by_cases hl : i < l
  · simp [hl, show i < m by omega]
  · simp [hl]

def IsNode (l : Nat) (q : K) : Prop := B.mask q l = q

theorem isNode_mask (p : K) (l : Nat) : IsNode B l (B.mask p l) := mask_mask B p (Nat.le_refl l)

variable {B} {l : Nat} {p q : K}

theorem IsNode.bit (h : IsNode B l q) {i : Nat} (hi : i < B.depth) (hl : l ≤ i) : B.bit q i = false := by
  rw [← h, B.bit_mask q l i hi]
  simp [show ¬ i < l by omega]

theorem IsNode.succ (h : IsNode B l q) : IsNode B (l + 1) q := by
  apply B.ext
  intro i hi
  rw [B.bit_mask q _ i hi]
  by_cases hl : i < l + 1
  · simp [hl]
  · simp [hl, IsNode.bit h hi (by omega)]

section

variable (hl : l < B.depth)
include hl

theorem isNode_sibling (p : K) : IsNode B (l + 1) (B.sibling p l) := by
  apply B.ext
  intro i hi
  rw [B.bit_mask _ _ i hi, B.bit_sibling p l i hl hi]
  by_cases h : i = l
  · simp [h]
  · by_cases hlt : i < l
    · simp [hlt, show i < l + 1 by omega]
    · simp [h, hlt]

theorem mask_sibling (p : K) : B.mask (B.sibling p l) l = B.mask p l := by
  apply B.ext
  intro i hi
  rw [B.bit_mask _ _ i hi, B.bit_sibling p l i hl hi, B.bit_mask p l i hi]
  by_cases hlt : i < l
  · simp [hlt, show i ≠ l by omega]
  · simp [hlt]

/-- The node of a path one level down is one of the two children. -/
theorem mask_succ (p : K) : B.mask p (l + 1) = if B.bit p l then B.sibling (B.mask p l) l else B.mask p l := by
  apply B.ext
  intro i hi
  rw [B.bit_mask p _ i hi]
  cases hbit : B.bit p l with
  | true =>
    rw [if_pos rfl, B.bit_sibling _ l i hl hi, B.bit_mask p l l hl, B.bit_mask p l i hi]
    by_cases h : i = l
    · simp [h, hbit]
    · by_cases hlt : i < l
      · simp [h, hlt, show i < l + 1 by omega]
      · simp [h, hlt, show ¬ i < l + 1 by omega]
  | false =>
    rw [if_neg (by simp), B.bit_mask p l i hi]
    by_cases h : i = l
    · simp [h, hbit]
    · by_cases hlt : i < l
      · simp [hlt, show i < l + 1 by omega]
      · simp [hlt, show ¬ i < l + 1 by omega]

/-- The sibling of that node is the other child. -/
theorem sibling_eq (p : K) : B.sibling p l = if B.bit p l then B.mask p l else B.sibling (B.mask p l) l := by
  apply B.ext
  intro i hi
  rw [B.bit_sibling p l i hl hi]
  cases hbit : B.bit p l with
  | true =>
    rw [if_pos rfl, B.bit_mask p l i hi]
    by_cases h : i = l
    · simp [h]
    · simp [h]
  | false =>
    have hother : (if false = true then B.mask p l else B.sibling (B.mask p l) l) = B.sibling (B.mask p l) l := rfl
    rw [hother, B.bit_sibling _ l i hl hi, B.bit_mask p l l hl, B.bit_mask p l i hi]
    by_cases h : i = l
    · simp [h]
    · by_cases hlt : i < l
      · simp [h, hlt]
      · simp [h, hlt]

theorem mask_succ_or (h : B.mask p l = q) : B.mask p (l + 1) = q ∨ B.mask p (l + 1) = B.sibling q l := by
  rw [mask_succ hl p, h]
  split
  · exact .inr rfl
  · exact .inl rfl

end

theorem mask_of_mask_succ (h : B.mask p (l + 1) = q) : B.mask p l = B.mask q l := by
  rw [← h, mask_mask B p (Nat.le_succ l)]

end Nodes

/-! ## Leaves below a node -/

section Leaves

variable {K V : Type} {B : BitPaths K}

/-- There is a leaf below the node. -/
def Occupied (B : BitPaths K) (L : K → Option V) (l : Nat) (q : K) : Prop :=
  ∃ p v, L p = some v ∧ B.mask p l = q

variable {L L' : K → Option V} {l : Nat} {q : K}

theorem occupied_succ (hl : l < B.depth) (hq : IsNode B l q) :
    Occupied B L l q ↔ Occupied B L (l + 1) q ∨ Occupied B L (l + 1) (B.sibling q l) := by
  constructor
  · rintro ⟨p, v, hp, hmask⟩
    rcases mask_succ_or hl hmask with h | h
    · exact .inl ⟨p, v, hp, h⟩
    · exact .inr ⟨p, v, hp, h⟩
  · rintro (⟨p, v, hp, hmask⟩ | ⟨p, v, hp, hmask⟩)
    · exact ⟨p, v, hp, (mask_of_mask_succ hmask).trans hq⟩
    · exact ⟨p, v, hp, (mask_of_mask_succ hmask).trans ((mask_sibling hl q).trans hq)⟩

theorem occupied_congr (h : ∀ p, B.mask p l = q → L p = L' p) : Occupied B L l q ↔ Occupied B L' l q := by
  constructor
  · rintro ⟨p, v, hp, hmask⟩
    exact ⟨p, v, (h p hmask).symm.trans hp, hmask⟩
  · rintro ⟨p, v, hp, hmask⟩
    exact ⟨p, v, (h p hmask).trans hp, hmask⟩

/-- Both children of the node have leaves below them. -/
def Branch (B : BitPaths K) (L : K → Option V) (l : Nat) (q : K) : Prop :=
  Occupied B L (l + 1) q ∧ Occupied B L (l + 1) (B.sibling q l)

theorem branch_congr (hl : l < B.depth) (hq : IsNode B l q)
    (h : ∀ p, B.mask p l = q → L p = L' p) : Branch B L l q ↔ Branch B L' l q := by
  have hleft : ∀ p, B.mask p (l + 1) = q → L p = L' p := fun p hp =>
    h p ((mask_of_mask_succ hp).trans hq)
  have hright : ∀ p, B.mask p (l + 1) = B.sibling q l → L p = L' p := fun p hp =>
    h p ((mask_of_mask_succ hp).trans ((mask_sibling hl q).trans hq))
  exact and_congr (occupied_congr hleft) (occupied_congr hright)

end Leaves

/-! ## Hashes -/

section Hashes

variable {K V H : Type} (B : BitPaths K) (F : Hashing K V H)

/-- The hash of an empty subtree of a given height. -/
def default : Nat → H
  | 0 => F.empty
  | h + 1 => F.node (default h) (default h)

def tree (L : K → Option V) : Nat → K → H
  | 0, q =>
    match L q with
    | some v => F.leaf q v
    | none => F.empty
  | h + 1, q => F.node (tree L h q) (tree L h (B.sibling q (B.depth - (h + 1))))

variable {B F} {L L' : K → Option V} {l h : Nat} {q : K}

theorem tree_succ (hd : l + (h + 1) = B.depth) (q : K) :
    tree B F L (h + 1) q = F.node (tree B F L h q) (tree B F L h (B.sibling q l)) := by
  rw [tree, show B.depth - (h + 1) = l by omega]

theorem tree_congr (hd : l + h = B.depth) (hq : IsNode B l q)
    (hL : ∀ p, B.mask p l = q → L p = L' p) : tree B F L h q = tree B F L' h q := by
  induction h generalizing l q with
  | zero =>
    have hq' : B.mask q l = q := hq
    rw [tree, tree, hL q hq']
  | succ h ih =>
    have hl : l < B.depth := by omega
    rw [tree_succ hd, tree_succ hd]
    congr 1
    · exact ih (by omega) hq.succ fun p hp => hL p ((mask_of_mask_succ hp).trans hq)
    · exact ih (by omega) (isNode_sibling hl q) fun p hp =>
        hL p ((mask_of_mask_succ hp).trans ((mask_sibling hl q).trans hq))

theorem tree_empty (hd : l + h = B.depth) (hq : IsNode B l q) (hL : ¬ Occupied B L l q) :
    tree B F L h q = default F h := by
  induction h generalizing l q with
  | zero =>
    rw [tree, default]
    cases hv : L q with
    | none => rfl
    | some v => exact absurd ⟨q, v, hv, hq⟩ hL
  | succ h ih =>
    have hl : l < B.depth := by omega
    rw [occupied_succ hl hq, not_or] at hL
    rw [tree_succ hd, default, ih (by omega) hq.succ hL.1, ih (by omega) (isNode_sibling hl q) hL.2]

/-- The hash at the node of a path, from the path's own child and its sibling. -/
theorem tree_mask (hd : l + (h + 1) = B.depth) (p : K) :
    tree B F L (h + 1) (B.mask p l) =
      if B.bit p l then F.node (tree B F L h (B.sibling p l)) (tree B F L h (B.mask p (l + 1)))
      else F.node (tree B F L h (B.mask p (l + 1))) (tree B F L h (B.sibling p l)) := by
  have hl : l < B.depth := by omega
  rw [tree_succ hd, mask_succ hl, sibling_eq hl p]
  cases B.bit p l <;> rfl

/-- A leaf hashed up to the height `h` against empty siblings. -/
def spine (B : BitPaths K) (F : Hashing K V H) (p : K) (v : V) : Nat → H
  | 0 => F.leaf p v
  | h + 1 =>
    if B.bit p (B.depth - (h + 1)) then F.node (default F h) (spine B F p v h)
    else F.node (spine B F p v h) (default F h)

theorem tree_spine (hd : l + h = B.depth) {p : K} {v : V} (hp : L p = some v)
    (hone : ∀ p' v', L p' = some v' → B.mask p' l = B.mask p l → p' = p) :
    tree B F L h (B.mask p l) = spine B F p v h := by
  induction h generalizing l with
  | zero =>
    rw [mask_of_le B p (by omega), tree, hp, spine]
  | succ h ih =>
    have hl : l < B.depth := by omega
    have hbelow : ∀ p' v', L p' = some v' → B.mask p' (l + 1) = B.mask p (l + 1) → p' = p := by
      intro p' v' hp' hmask
      exact hone p' v' hp' ((mask_of_mask_succ hmask).trans (mask_mask B p (Nat.le_succ l)))
    -- the sibling has no leaf: it would be below the node too, and is not `p`
    have hsib : ¬ Occupied B L (l + 1) (B.sibling p l) := by
      rintro ⟨p', v', hp', hmask⟩
      have heq := hone p' v' hp' ((mask_of_mask_succ hmask).trans (mask_sibling hl p))
      subst heq
      have hbit := congrArg (B.bit · l) hmask
      simp only [B.bit_mask _ _ l hl, B.bit_sibling _ l l hl hl] at hbit
      simp at hbit
    rw [tree_mask hd, ih (by omega) hbelow, tree_empty (by omega) (isNode_sibling hl p) hsib, spine,
      show B.depth - (h + 1) = l by omega]

end Hashes

end SparseTree
