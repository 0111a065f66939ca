import Mathlib.Data.Vector.Defs
import TronGoblin.Index.SmtHistory

/-!
# Proofs against the root

Model of `Smt::prove` (`tron-index/src/commitment/smt.rs`) and of `reconstruct_root` and `verify_proof`
(`tron-index/src/commitment/proof.rs`), and completeness.

* `Proof.foldUp`: the walk from the leaf slot to the root, taking siblings off the end of the list.
* `Smt.prove_spec`: a proof holds the siblings that are not the default ones, and its mask says where.
* `reconstructRoot_prove`: such a proof folds to the root.
-/

namespace TronGoblin.Commitment

open List hiding Vector
open SparseTree (IsNode)

/-- A proof that a leaf is present or absent. -/
structure Proof where
  path : LeafPath
  leafValueHash : Option NodeHash
  /-- Bit `i` is set if the sibling at the step from level `i` is in the list. -/
  siblingMask : Vector UInt8 32
  siblings : List NodeHash

def Proof.maskBit (proof : Proof) (i : Nat) : Bool := pathBit proof.siblingMask i

inductive ProofOutcome
  | included
  | excluded
  | invalid
  deriving DecidableEq

section Verify

variable (keccak256 : Bytes → NodeHash) (proof : Proof)

/-- The sibling for the step from `level`, and how many siblings are left; `none` if the list has run
out. -/
def Proof.sibling (level next : Nat) : Option (NodeHash × Nat) :=
  if proof.maskBit level then
    if next = 0 then none else proof.siblings[next - 1]?.map fun h => (h, next - 1)
  else some (defaultHash keccak256 (level + 1), next)

def Proof.left (level : Nat) (acc sibling : NodeHash) : NodeHash :=
  if pathBit proof.path level then sibling else acc

def Proof.right (level : Nat) (acc sibling : NodeHash) : NodeHash :=
  if pathBit proof.path level then acc else sibling

/-- The levels below `n`, from the deepest one up. -/
def Proof.foldUp : Nat → NodeHash → Nat → Option (NodeHash × Nat)
  | 0, acc, next => some (acc, next)
  | level + 1, acc, next =>
    match proof.sibling keccak256 level next with
    | none => none
    | some (sibling, next) =>
      Proof.foldUp level
        (hashInternal keccak256 level (proof.left level acc sibling) (proof.right level acc sibling)) next

def Proof.leafHash : NodeHash :=
  match proof.leafValueHash with
  | some valueHash => hashLeaf keccak256 proof.path valueHash
  | none => defaultHash keccak256 DEPTH

/-- `reconstruct_root`; every sibling has to be used. -/
def reconstructRoot : Option NodeHash :=
  match proof.foldUp keccak256 DEPTH (proof.leafHash keccak256) proof.siblings.length with
  | none => none
  | some (acc, next) => if next ≠ 0 then none else some acc

/-- Whether the proof is one of inclusion; `none` if it does not answer the question. -/
def Proof.answers (valueBytes : Option Bytes) : Option Bool :=
  match proof.leafValueHash with
  | some valueHash =>
    match valueBytes with
    | none => none
    | some value => if keccak256 value ≠ valueHash then none else some true
  | none => if valueBytes.isSome then none else some false

def verifyProof (expectedRoot : NodeHash) (valueBytes : Option Bytes) : ProofOutcome :=
  match proof.answers keccak256 valueBytes with
  | none => .invalid
  | some included =>
    match reconstructRoot keccak256 proof with
    | none => .invalid
    | some acc =>
      if acc ≠ expectedRoot then .invalid else if included then .included else .excluded

end Verify

/-! ## Proving -/

section Prove

variable (keccak256 : Bytes → NodeHash) (s : Smt) (path : LeafPath)

/-- One level of the loop: the sibling is kept if it is not the default one. -/
def Smt.proveStep (st : Vector UInt8 32 × List NodeHash) (level : Nat) : Vector UInt8 32 × List NodeHash :=
  match s.backend.readSubtreeHash keccak256 (level + 1) (siblingPrefix path level) with
  | some h => if h ≠ defaultHash keccak256 (level + 1) then (setBit st.1 level, st.2 ++ [h]) else st
  | none => st

/-- The loop over the levels below `n`, from the root down. -/
def Smt.proveTo (n : Nat) : Vector UInt8 32 × List NodeHash :=
  (List.range n).foldl (s.proveStep keccak256 path) (zeroes, [])

def Smt.prove : Proof :=
  ⟨path, s.backend.getLeaf path, (s.proveTo keccak256 path DEPTH).1, (s.proveTo keccak256 path DEPTH).2⟩

end Prove

/-! ## What a proof holds -/

variable {keccak256 : Bytes → NodeHash} {s : Smt} {L : Leaves} {path : LeafPath}

/-- The sibling of a path's node below `level`. -/
def siblingAt (keccak256 : Bytes → NodeHash) (L : Leaves) (path : LeafPath) (level : Nat) : NodeHash :=
  nodeHash keccak256 L (level + 1) (siblingPrefix path level)

/-- The siblings above level `n` that are not the default ones, from the root down. -/
def realSiblings (keccak256 : Bytes → NodeHash) (L : Leaves) (path : LeafPath) : Nat → List NodeHash
  | 0 => []
  | n + 1 =>
    if siblingAt keccak256 L path n ≠ defaultHash keccak256 (n + 1) then
      realSiblings keccak256 L path n ++ [siblingAt keccak256 L path n]
    else realSiblings keccak256 L path n

theorem realSiblings_prefix {n m : Nat} (h : n ≤ m) :
    realSiblings keccak256 L path n <+: realSiblings keccak256 L path m := by
  induction m with
  | zero =>
    obtain rfl : n = 0 := by omega
    exact prefix_refl _
  | succ m ih =>
    rcases Nat.lt_or_eq_of_le h with hlt | rfl
    · rw [realSiblings]
      split
      · exact (ih (by omega)).trans (prefix_append _ _)
      · exact ih (by omega)
    · exact prefix_refl _

/-- The last sibling above level `n + 1`, found by its place in the whole list. -/
theorem getElem?_realSiblings {n m : Nat} (hnm : n + 1 ≤ m)
    (hreal : siblingAt keccak256 L path n ≠ defaultHash keccak256 (n + 1)) :
    (realSiblings keccak256 L path m)[(realSiblings keccak256 L path n).length]? =
      some (siblingAt keccak256 L path n) := by
  have heq : realSiblings keccak256 L path (n + 1) =
      realSiblings keccak256 L path n ++ [siblingAt keccak256 L path n] := by
    rw [realSiblings, if_pos hreal]
  obtain ⟨rest, hrest⟩ : realSiblings keccak256 L path (n + 1) <+: realSiblings keccak256 L path m :=
    realSiblings_prefix hnm
  rw [← hrest, heq, append_assoc, List.getElem?_append_right (Nat.le_refl _)]
  simp

variable {level : Nat}

theorem siblingAt_eq_read (hs : s.Good keccak256) (hl : level < DEPTH) (path : LeafPath) :
    (s.backend.readSubtreeHash keccak256 (level + 1) (siblingPrefix path level)).getD
      (defaultHash keccak256 (level + 1)) = siblingAt keccak256 s.backend.leaves.lookup path level :=
  readAtHeight_getD hs.inv (by omega) (isNode_siblingPrefix hl path)

theorem proveStep_eq (hs : s.Good keccak256) (hl : level < DEPTH) (st : Vector UInt8 32 × List NodeHash) :
    s.proveStep keccak256 path st level =
      if siblingAt keccak256 s.backend.leaves.lookup path level ≠ defaultHash keccak256 (level + 1) then
        (setBit st.1 level, st.2 ++ [siblingAt keccak256 s.backend.leaves.lookup path level])
      else st := by
  have hread := siblingAt_eq_read hs hl path
  unfold Smt.proveStep
  cases hr : s.backend.readSubtreeHash keccak256 (level + 1) (siblingPrefix path level) with
  | some h =>
    rw [hr, Option.getD_some] at hread
    rw [← hread]
  | none =>
    rw [hr, Option.getD_none] at hread
    rw [← hread, if_neg (by simp)]

theorem pathBit_zeroes {i : Nat} (hi : i < DEPTH) : pathBit zeroes i = false := by
  rw [← maskPrefix_root zeroes, pathBit_maskPrefix _ _ hi]
  simp

/-- **What a proof holds**: the siblings that are not the default ones, and a mask that says where. -/
theorem Smt.proveTo_spec (hs : s.Good keccak256) (path : LeafPath) {n : Nat} (hn : n ≤ DEPTH) :
    (s.proveTo keccak256 path n).2 = realSiblings keccak256 s.backend.leaves.lookup path n ∧
      ∀ i, i < DEPTH → pathBit (s.proveTo keccak256 path n).1 i =
        (decide (i < n) &&
          decide (siblingAt keccak256 s.backend.leaves.lookup path i ≠ defaultHash keccak256 (i + 1))) := by
  induction n with
  | zero =>
    refine ⟨rfl, fun i hi => ?_⟩
    change pathBit zeroes i = _
    rw [pathBit_zeroes hi]
    simp
  | succ n ih =>
    obtain ⟨hlist, hmask⟩ := ih (by omega)
    have hstep : s.proveTo keccak256 path (n + 1) = s.proveStep keccak256 path (s.proveTo keccak256 path n) n := by
      rw [Smt.proveTo, range_succ, foldl_append]
      rfl
    rw [hstep, proveStep_eq hs (by omega), realSiblings]
    by_cases hreal : siblingAt keccak256 s.backend.leaves.lookup path n ≠ defaultHash keccak256 (n + 1)
    · rw [if_pos hreal, if_pos hreal]
      refine ⟨by rw [hlist], fun i hi => ?_⟩
      rw [pathBit_setBit _ hi, hmask i hi]
      by_cases hin : i = n
      · subst hin
        simp [hreal]
      · have hlt : i < n + 1 ↔ i < n := by omega
        simp [hin, hlt]
    · rw [if_neg hreal, if_neg hreal]
      refine ⟨hlist, fun i hi => ?_⟩
      rw [hmask i hi]
      by_cases hin : i = n
      · subst hin
        simp [hreal]
      · have hlt : i < n + 1 ↔ i < n := by omega
        simp [hlt]

/-! ## Completeness -/

theorem nodeHash_step {proof : Proof} (hl : level < DEPTH) :
    hashInternal keccak256 level
        (proof.left level (nodeHash keccak256 L (level + 1) (maskPrefix proof.path (level + 1)))
          (siblingAt keccak256 L proof.path level))
        (proof.right level (nodeHash keccak256 L (level + 1) (maskPrefix proof.path (level + 1)))
          (siblingAt keccak256 L proof.path level)) =
      nodeHash keccak256 L level (maskPrefix proof.path level) := by
  rw [hashInternal_eq hl, nodeHash_mask hl, Proof.left, Proof.right]
  cases pathBit proof.path level <;> rfl

/-- A proof with the right siblings and mask folds to the root, and uses them all. -/
theorem foldUp_complete (proof : Proof) (hsib : proof.siblings = realSiblings keccak256 L proof.path DEPTH)
    (hmask : ∀ i, i < DEPTH → proof.maskBit i =
      decide (siblingAt keccak256 L proof.path i ≠ defaultHash keccak256 (i + 1)))
    {n : Nat} (hn : n ≤ DEPTH) :
    proof.foldUp keccak256 n (nodeHash keccak256 L n (maskPrefix proof.path n))
        (realSiblings keccak256 L proof.path n).length =
      some (nodeHash keccak256 L 0 zeroes, 0) := by
  induction n with
  | zero => rw [maskPrefix_root, Proof.foldUp, realSiblings, length_nil]
  | succ n ih =>
    have hstep : proof.sibling keccak256 n (realSiblings keccak256 L proof.path (n + 1)).length =
        some (siblingAt keccak256 L proof.path n, (realSiblings keccak256 L proof.path n).length) := by
      rw [Proof.sibling, hmask n hn, realSiblings]
      by_cases hreal : siblingAt keccak256 L proof.path n ≠ defaultHash keccak256 (n + 1)
      · rw [if_pos hreal, if_pos (decide_eq_true hreal), length_append, length_singleton,
          if_neg (Nat.succ_ne_zero _), Nat.add_sub_cancel, hsib, getElem?_realSiblings hn hreal]
        rfl
      · rw [if_neg hreal, if_neg (by simpa using hreal), not_not.1 hreal]
    rw [Proof.foldUp, hstep]
    dsimp only
    rw [nodeHash_step hn]
    exact ih (by omega)

theorem leafHash_eq {proof : Proof} (h : proof.leafValueHash = L proof.path) :
    proof.leafHash keccak256 = nodeHash keccak256 L DEPTH (maskPrefix proof.path DEPTH) := by
  have hself : maskPrefix proof.path DEPTH = proof.path :=
    SparseTree.mask_of_le paths proof.path (Nat.le_refl _)
  rw [hself, nodeHash_leaf, Proof.leafHash, h]
  cases L proof.path <;> rfl

theorem reconstructRoot_prove (hs : s.Good keccak256) (path : LeafPath) :
    reconstructRoot keccak256 (s.prove keccak256 path) = some s.root := by
  obtain ⟨hlist, hmask⟩ := s.proveTo_spec hs path (Nat.le_refl DEPTH)
  have hfold : (s.prove keccak256 path).foldUp keccak256 DEPTH
      (nodeHash keccak256 s.backend.leaves.lookup DEPTH (maskPrefix path DEPTH))
      (realSiblings keccak256 s.backend.leaves.lookup path DEPTH).length = some (s.root, 0) := by
    rw [hs.root]
    refine foldUp_complete (s.prove keccak256 path) hlist (fun i hi => ?_) (Nat.le_refl DEPTH)
    rw [Proof.maskBit, Smt.prove, hmask i hi, decide_eq_true hi, Bool.true_and]
  have hleaf : (s.prove keccak256 path).leafHash keccak256 =
      nodeHash keccak256 s.backend.leaves.lookup DEPTH (maskPrefix path DEPTH) := leafHash_eq rfl
  have hlen : (s.prove keccak256 path).siblings.length =
      (realSiblings keccak256 s.backend.leaves.lookup path DEPTH).length := congrArg List.length hlist
  rw [reconstructRoot, hleaf, hlen, hfold]
  rfl

end TronGoblin.Commitment
