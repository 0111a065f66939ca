import TronGoblin.Index.SmtProof

/-!
# Soundness of proofs

* `HashOk`: what is assumed of the hash function, on a set of inputs.
* `TreeInput`, `Proof.inputs`: what the tree over some leaves hashes, and what a proof makes the
  verifier hash.
* `foldUp_sound`: a fold that ends in the root has gone through the nodes of the tree.
* `proofs_complete_sound`: proofs that the tree gives out verify, and a proof that verifies is right
  about its leaf.
-/

namespace TronGoblin.Commitment

open List hiding Vector
open Proof SparseTree
open SparseTree (IsNode Occupied)

/-! ## What is hashed -/

def leafInput (path : LeafPath) (valueHash : NodeHash) : Bytes :=
  LEAF_PREFIX :: path.toList ++ valueHash.toList

def nodeInput (left right : NodeHash) : Bytes := INTERNAL_PREFIX :: left.toList ++ right.toList

theorem append_toList_inj {a b c d : Vector UInt8 32} (h : a.toList ++ b.toList = c.toList ++ d.toList) :
    a = c ∧ b = d := by
  obtain ⟨hleft, hright⟩ := append_inj h (by simp)
  exact ⟨Vector.toList_inj.1 hleft, Vector.toList_inj.1 hright⟩

theorem leafInput_inj {path path' : LeafPath} {v v' : NodeHash}
    (h : leafInput path v = leafInput path' v') : path = path' ∧ v = v' :=
  append_toList_inj (List.cons.inj h).2

theorem nodeInput_inj {left right left' right' : NodeHash}
    (h : nodeInput left right = nodeInput left' right') : left = left' ∧ right = right' :=
  append_toList_inj (List.cons.inj h).2

/-- On these inputs the hash function has no collision and is never zero. -/
structure HashOk (keccak256 : Bytes → NodeHash) (U : Bytes → Prop) : Prop where
  injective : ∀ x y, U x → U y → keccak256 x = keccak256 y → x = y
  nonzero : ∀ x, U x → keccak256 x ≠ zeroes

/-- What the full tree over some leaves hashes. -/
inductive TreeInput (keccak256 : Bytes → NodeHash) (L : Leaves) : Bytes → Prop
  | leaf {path : LeafPath} {valueHash : NodeHash} (h : L path = some valueHash) :
      TreeInput keccak256 L (leafInput path valueHash)
  | node {level : Nat} {q : LeafPath} (hl : level < DEPTH) (hq : IsNode paths level q) :
      TreeInput keccak256 L (nodeInput (nodeHash keccak256 L (level + 1) q)
        (nodeHash keccak256 L (level + 1) (siblingPrefix q level)))
  | empty {level : Nat} (hl : level < DEPTH) :
      TreeInput keccak256 L (nodeInput (defaultHash keccak256 (level + 1)) (defaultHash keccak256 (level + 1)))

/-- What the trees after each batch of a history hash. -/
def HistoryInput (keccak256 : Bytes → NodeHash) (batches : List (List Change)) (x : Bytes) : Prop :=
  ∃ done, done <+: batches ∧ TreeInput keccak256 (leafSet done) x

section Inputs

variable (keccak256 : Bytes → NodeHash) (proof : Proof)

/-- What the verifier hashes on the levels below `n`. -/
def Proof.foldInputs : Nat → NodeHash → Nat → List Bytes
  | 0, _, _ => []
  | level + 1, acc, next =>
    match proof.sibling keccak256 level next with
    | none => []
    | some (sibling, next) =>
      nodeInput (proof.left level acc sibling) (proof.right level acc sibling) :: foldInputs level
          (hashInternal keccak256 level (proof.left level acc sibling) (proof.right level acc sibling)) next

/-- What the verifier hashes for a proof. -/
def Proof.inputs : List Bytes :=
  (proof.leafValueHash.map (leafInput proof.path)).toList ++
    proof.foldInputs keccak256 DEPTH (proof.leafHash keccak256) proof.siblings.length

end Inputs

variable {keccak256 : Bytes → NodeHash} {L : Leaves} {U : Bytes → Prop}

theorem HashOk.noDefault (hU : HashOk keccak256 U) (hL : ∀ x, TreeInput keccak256 L x → U x) :
    NoDefault keccak256 L := by
  -- from the leaf slots up
  suffices h : ∀ h l q, l + h = DEPTH → Occupied paths L l q → nodeHash keccak256 L l q ≠ defaultHash keccak256 l by
    intro l q hl hocc
    exact h (DEPTH - l) l q (by omega) hocc
  intro h
  induction h with
  | zero =>
    intro l q hd hocc
    obtain rfl : l = DEPTH := hd
    obtain ⟨p, v, hp, hmask⟩ := hocc
    obtain rfl : p = q := (mask_of_le paths p (Nat.le_refl _)).symm.trans hmask
    rw [nodeHash_leaf, hp]
    exact hU.nonzero _ (hL _ (.leaf hp))
  | succ h ih =>
    intro l q hd hocc heq
    have hl : l < DEPTH := by omega
    have hq : IsNode paths l q := by
      obtain ⟨p, -, -, rfl⟩ := hocc
      exact isNode_maskPrefix p l
    rw [nodeHash_node hl, defaultHash_succ hl] at heq
    obtain ⟨hleft, hright⟩ := nodeInput_inj
      (hU.injective _ _ (hL _ (.node hl hq)) (hL _ (.empty hl)) heq)
    rcases (occupied_succ hl hq).1 hocc with hchild | hchild
    · exact ih (l + 1) q (by omega) hchild hleft
    · exact ih (l + 1) _ (by omega) hchild hright

theorem HashOk.noDefaults {batches : List (List Change)}
    (hU : HashOk keccak256 (HistoryInput keccak256 batches)) : NoDefaults keccak256 batches :=
  fun done hdone => hU.noDefault fun _ hx => ⟨done, hdone, hx⟩

/-! ## Soundness -/

theorem nodeHash_mask_input (proof : Proof) {level : Nat} (hl : level < DEPTH) :
    ∃ left right, nodeHash keccak256 L level (maskPrefix proof.path level) =
        keccak256 (nodeInput left right) ∧ TreeInput keccak256 L (nodeInput left right) ∧
      (if pathBit proof.path level then right else left) =
        nodeHash keccak256 L (level + 1) (maskPrefix proof.path (level + 1)) := by
  refine ⟨_, _, nodeHash_node hl _, .node hl (isNode_maskPrefix _ _), ?_⟩
  have hown : maskPrefix proof.path (level + 1) = _ := mask_succ (B := paths) hl proof.path
  rw [hown]
  change (if pathBit proof.path level then _ else _) =
    nodeHash keccak256 L (level + 1) (if pathBit proof.path level then _ else _)
  cases pathBit proof.path level <;> rfl

variable {proof : Proof} {n : Nat}

theorem foldUp_sound (hU : HashOk keccak256 U) (hL : ∀ x, TreeInput keccak256 L x → U x) (hn : n ≤ DEPTH)
    {acc : NodeHash} {next rest : Nat} (hinputs : ∀ x ∈ proof.foldInputs keccak256 n acc next, U x)
    (hfold : proof.foldUp keccak256 n acc next = some (nodeHash keccak256 L 0 zeroes, rest)) :
    acc = nodeHash keccak256 L n (maskPrefix proof.path n) := by
  induction n generalizing acc next with
  | zero =>
    cases hfold
    rw [maskPrefix_root]
  | succ n ih =>
    rw [Proof.foldUp] at hfold
    rw [foldInputs] at hinputs
    cases hsib : proof.sibling keccak256 n next with
    | none =>
      rw [hsib] at hfold
      cases hfold
    | some step =>
      rw [hsib] at hfold hinputs
      have hnode := ih (by omega) (fun x hx => hinputs x (mem_cons_of_mem _ hx)) hfold
      rw [hashInternal_eq hn] at hnode
      obtain ⟨left, right, hhash, htree, hown⟩ := nodeHash_mask_input (L := L) proof hn
      rw [hhash] at hnode
      obtain ⟨hleft, hright⟩ := nodeInput_inj
        (hU.injective _ _ (hinputs _ mem_cons_self) (hL _ htree) hnode)
      rw [← hown, ← hleft, ← hright, Proof.left, Proof.right]
      cases pathBit proof.path n <;> rfl

variable {root : NodeHash}

/-- What an outcome other than `invalid` says. -/
theorem reconstructRoot_of_verify {value : Option Bytes} (h : verifyProof keccak256 proof root value ≠ .invalid) :
    reconstructRoot keccak256 proof = some root := by
  unfold verifyProof at h
  split at h
  · exact absurd rfl h
  · split at h
    · exact absurd rfl h
    · rename_i acc hacc
      split at h
      · exact absurd rfl h
      · rename_i heq
        rw [hacc, Decidable.not_not.1 heq]

/-- A proof that folds to the root says what the leaf contributes. -/
theorem leafHash_of_reconstruct (hU : HashOk keccak256 U) (hL : ∀ x, TreeInput keccak256 L x → U x)
    (hinputs : ∀ x ∈ proof.inputs keccak256, U x)
    (h : reconstructRoot keccak256 proof = some (nodeHash keccak256 L 0 zeroes)) :
    proof.leafHash keccak256 =
      ((L proof.path).map (hashLeaf keccak256 proof.path)).getD (defaultHash keccak256 DEPTH) := by
  have hself : maskPrefix proof.path DEPTH = proof.path :=
    mask_of_le paths proof.path (Nat.le_refl _)
  rw [← nodeHash_leaf]
  unfold reconstructRoot at h
  split at h
  · cases h
  · rename_i acc next hfold
    split at h
    · cases h
    · cases h
      have hleaf := foldUp_sound hU hL (Nat.le_refl DEPTH)
        (fun x hx => hinputs x (mem_append_right _ hx)) hfold
      rw [hleaf, hself]

theorem leaf_of_reconstruct (hU : HashOk keccak256 U) (hL : ∀ x, TreeInput keccak256 L x → U x)
    (hinputs : ∀ x ∈ proof.inputs keccak256, U x)
    (h : reconstructRoot keccak256 proof = some (nodeHash keccak256 L 0 zeroes)) :
    L proof.path = proof.leafValueHash := by
  have hleaf := leafHash_of_reconstruct hU hL hinputs h
  unfold leafHash at hleaf
  cases hproof : proof.leafValueHash with
  | some v =>
    have hused : U (leafInput proof.path v) := by
      refine hinputs _ (mem_append_left _ ?_)
      rw [hproof]
      exact mem_singleton.2 rfl
    rw [hproof] at hleaf
    cases htree : L proof.path with
    | some v' =>
      rw [htree] at hleaf
      have hinput := hU.injective _ _ hused (hL _ (.leaf htree)) hleaf
      rw [(leafInput_inj hinput).2]
    | none =>
      rw [htree] at hleaf
      exact absurd hleaf (hU.nonzero _ hused)
  | none =>
    rw [hproof] at hleaf
    cases htree : L proof.path with
    | some v' =>
      rw [htree] at hleaf
      exact absurd hleaf.symm (hU.nonzero _ (hL _ (.leaf htree)))
    | none => rfl

/-! ## A hash that counts -/

/-- A number below 65536 as a hash. -/
def numHash (n : Nat) : NodeHash :=
  (zeroes.set 0 (UInt8.ofNat n)).set 1 (UInt8.ofNat (n / 256))

/-- The number that some bytes start with. -/
def readNum (data : Bytes) : Nat := (data[0]?.getD 0).toNat + 256 * (data[1]?.getD 0).toNat

/-- One more than the left child; 1000 for a leaf. -/
def countHash (data : Bytes) : NodeHash :=
  if data.head? = some INTERNAL_PREFIX then numHash (readNum data.tail + 1) else numHash 1000

theorem readNum_numHash (hn : n < 65536) (rest : Bytes) : readNum ((numHash n).toList ++ rest) = n := by
  have h0 : ((numHash n).toList ++ rest)[0]? = some (UInt8.ofNat n) := by
    simp [numHash]
  have h1 : ((numHash n).toList ++ rest)[1]? = some (UInt8.ofNat (n / 256)) := by
    simp [numHash, List.getElem?_append_left]
  unfold readNum
  rw [h0, h1]
  simp only [Option.getD_some, UInt8.toNat_ofNat']
  omega

theorem numHash_inj {n m : Nat} (hn : n < 65536) (hm : m < 65536) (h : numHash n = numHash m) : n = m := by
  have hread : readNum ((numHash n).toList ++ []) = readNum ((numHash m).toList ++ []) := by rw [h]
  rwa [readNum_numHash hn, readNum_numHash hm] at hread

theorem countHash_node (hn : n < 65536) (right : NodeHash) :
    countHash (nodeInput (numHash n) right) = numHash (n + 1) := by
  have htail : (nodeInput (numHash n) right).tail = (numHash n).toList ++ right.toList := rfl
  have hhead : (nodeInput (numHash n) right).head? = some INTERNAL_PREFIX := rfl
  rw [countHash, if_pos hhead, htail, readNum_numHash hn]

theorem countHash_leaf (path : LeafPath) (v : NodeHash) : countHash (leafInput path v) = numHash 1000 := by
  refine if_neg fun h => ?_
  exact absurd (Option.some.inj h) (by decide)

theorem countHash_empty {h : Nat} (hh : h ≤ 256) : emptyHash countHash h = numHash h := by
  induction h with
  | zero => decide
  | succ h ih =>
    rw [emptyHash, ih (by omega)]
    exact countHash_node (by omega) _

theorem countHash_default {l : Nat} : defaultHash countHash l = numHash (DEPTH - l) :=
  countHash_empty (Nat.sub_le _ _)

/-- What is hashed for a tree of at most the one leaf at zero. -/
def CountInput (x : Bytes) : Prop :=
  (∃ v, x = leafInput zeroes v ∧ v = numHash 1000) ∨
    ∃ a k, k < 256 ∧ (a = k ∨ a = 1000 + k) ∧ x = nodeInput (numHash a) (numHash k)

theorem countHash_ok {U : Bytes → Prop} (hU : ∀ x, U x → CountInput x) : HashOk countHash U := by
  constructor
  · intro x y hx hy heq
    rcases hU x hx with ⟨v, rfl, rfl⟩ | ⟨a, k, hk, ha, rfl⟩ <;>
      rcases hU y hy with ⟨v', rfl, rfl⟩ | ⟨b, m, hm, hb, rfl⟩
    · rfl
    · rw [countHash_leaf, countHash_node (by omega)] at heq
      have := numHash_inj (by omega) (by omega) heq
      omega
    · rw [countHash_leaf, countHash_node (by omega)] at heq
      have := numHash_inj (by omega) (by omega) heq
      omega
    · rw [countHash_node (by omega), countHash_node (by omega)] at heq
      have hab := numHash_inj (by omega) (by omega) heq
      obtain rfl : a = b := by omega
      obtain rfl : k = m := by omega
      rfl
  · intro x hx heq
    have hzero : zeroes = numHash 0 := by decide
    rw [hzero] at heq
    rcases hU x hx with ⟨v, rfl, rfl⟩ | ⟨a, k, hk, ha, rfl⟩
    · have := numHash_inj (by omega) (by omega) heq
      omega
    · rw [countHash_node (by omega)] at heq
      have := numHash_inj (by omega) (by omega) heq
      omega

section OneLeaf

variable (hL : ∀ p v, L p = some v → p = zeroes ∧ v = numHash 1000)

include hL

theorem eq_zeroes_of_occupied {l : Nat} {q : LeafPath} (h : Occupied paths L l q) : q = zeroes := by
  obtain ⟨p, v, hp, hmask⟩ := h
  obtain ⟨rfl, -⟩ := hL p v hp
  rw [← hmask]
  refine path_ext fun i hi => ?_
  have hbit : pathBit (maskPrefix zeroes l) i = _ := pathBit_maskPrefix zeroes l hi
  rw [show paths.mask zeroes l = maskPrefix zeroes l from rfl, hbit, pathBit_zeroes hi, Bool.and_false]

theorem not_occupied_sibling {l : Nat} (hl : l < DEPTH) : ¬ Occupied paths L (l + 1) (siblingPrefix zeroes l) := by
  intro h
  have hbit : pathBit (siblingPrefix zeroes l) l = false := by
    rw [eq_zeroes_of_occupied hL h, pathBit_zeroes hl]
  rw [siblingPrefix, pathBit_flipBit _ hl, if_pos rfl, pathBit_maskPrefix _ _ hl, pathBit_zeroes hl] at hbit
  simp at hbit

theorem countHash_occupied {h l : Nat} (hd : l + h = DEPTH) (hocc : Occupied paths L l zeroes) :
    nodeHash countHash L l zeroes = numHash (1000 + h) := by
  have hsome : ∃ v, L zeroes = some v := by
    obtain ⟨p, v, hp, -⟩ := hocc
    obtain ⟨rfl, -⟩ := hL p v hp
    exact ⟨v, hp⟩
  obtain ⟨v, hv⟩ := hsome
  clear hocc
  induction h generalizing l with
  | zero =>
    obtain rfl : l = DEPTH := hd
    rw [nodeHash_leaf, hv]
    exact countHash_leaf zeroes v
  | succ h ih =>
    have hDEPTH : DEPTH = 256 := rfl
    rw [nodeHash_node (by omega), ih (by omega)]
    exact countHash_node (by omega) _

theorem countInput_of_tree {x : Bytes} (hx : TreeInput countHash L x) : CountInput x := by
  have hDEPTH : DEPTH = 256 := rfl
  cases hx with
  | leaf h =>
    obtain ⟨rfl, rfl⟩ := hL _ _ h
    exact .inl ⟨_, rfl, rfl⟩
  | @node level q hl hq =>
    refine .inr ?_
    have hsibNode := isNode_siblingPrefix hl q
    by_cases hocc : Occupied paths L level q
    · obtain rfl := eq_zeroes_of_occupied hL hocc
      have hchild : Occupied paths L (level + 1) zeroes :=
        ((occupied_succ hl hq).1 hocc).resolve_right (not_occupied_sibling hL hl)
      rw [countHash_occupied hL (show level + 1 + (DEPTH - (level + 1)) = DEPTH by omega) hchild,
        nodeHash_empty hl hsibNode (not_occupied_sibling hL hl), countHash_default]
      exact ⟨_, _, by omega, .inr rfl, rfl⟩
    · have hnone := mt (occupied_succ hl hq).2 hocc
      rw [not_or] at hnone
      rw [nodeHash_empty hl hq.succ hnone.1, nodeHash_empty hl hsibNode hnone.2, countHash_default]
      exact ⟨_, _, by omega, .inl rfl, rfl⟩
  | empty hl =>
    rw [countHash_default]
    exact .inr ⟨_, _, by omega, .inl rfl, rfl⟩

end OneLeaf

/-- The proof that the leaf at zero is there, in a tree without other leaves. -/
def oneLeafProof : Proof := ⟨zeroes, some (numHash 1000), zeroes, []⟩

theorem countInput_of_fold (hn : n ≤ DEPTH) {x : Bytes}
    (hx : x ∈ oneLeafProof.foldInputs countHash n (numHash (1000 + (DEPTH - n))) 0) : CountInput x := by
  have hDEPTH : DEPTH = 256 := rfl
  induction n with
  | zero => cases hx
  | succ n ih =>
    have hbit : oneLeafProof.maskBit n = false := pathBit_zeroes hn
    have hpath : pathBit oneLeafProof.path n = false := pathBit_zeroes hn
    have hsib : oneLeafProof.sibling countHash n 0 = some (numHash (DEPTH - (n + 1)), 0) := by
      rw [sibling, hbit, countHash_default]
      rfl
    rw [foldInputs, hsib] at hx
    simp only [left, right, hpath, Bool.false_eq_true, if_false] at hx
    rcases mem_cons.1 hx with rfl | hx
    · exact .inr ⟨_, _, by omega, .inr rfl, rfl⟩
    · refine ih (by omega) ?_
      have hnext : hashInternal countHash n (numHash (1000 + (DEPTH - (n + 1)))) (numHash (DEPTH - (n + 1))) =
          numHash (1000 + (DEPTH - n)) := by
        rw [hashInternal_eq hn, show DEPTH - n = DEPTH - (n + 1) + 1 by omega, ← Nat.add_assoc]
        exact countHash_node (by omega) _
      rwa [hnext] at hx

theorem countInput_of_proof {x : Bytes} (hx : x ∈ oneLeafProof.inputs countHash) : CountInput x := by
  rcases mem_append.1 hx with hx | hx
  · obtain rfl : x = leafInput zeroes (numHash 1000) := by simpa [oneLeafProof] using hx
    exact .inl ⟨_, rfl, rfl⟩
  · refine countInput_of_fold (Nat.le_refl DEPTH) ?_
    have hleaf : oneLeafProof.leafHash countHash = numHash (1000 + (DEPTH - DEPTH)) :=
      countHash_leaf zeroes (numHash 1000)
    rwa [hleaf] at hx

/-! ## Both directions -/

theorem answers_of_included {v : Bytes} (h : verifyProof keccak256 proof root (some v) = .included) :
    proof.leafValueHash = some (keccak256 v) := by
  unfold verifyProof answers at h
  cases hproof : proof.leafValueHash with
  | none =>
    rw [hproof] at h
    cases h
  | some v' =>
    by_cases hv : keccak256 v = v'
    · rw [hv]
    · rw [hproof] at h
      simp [hv] at h

theorem answers_of_excluded (h : verifyProof keccak256 proof root none = .excluded) : proof.leafValueHash = none := by
  unfold verifyProof answers at h
  cases hproof : proof.leafValueHash with
  | none => rfl
  | some v' =>
    rw [hproof] at h
    cases h

/-- **Proofs are complete and sound.**  After any history of batches, the proof for a path verifies
against the root, for the value that is stored or as absence; and any proof that verifies for a value, or
as absence, is right about the leaf at its path. -/
theorem proofs_complete_sound (keccak256 : Bytes → NodeHash) (batches : List (List Change))
    (hhash : HashOk keccak256 (HistoryInput keccak256 batches)) :
    ∃ s, run keccak256 batches = some s ∧
      (∀ path v, s.backend.getLeaf path = some (keccak256 v) →
        verifyProof keccak256 (s.prove keccak256 path) s.root (some v) = .included) ∧
      (∀ path, s.backend.getLeaf path = none → verifyProof keccak256 (s.prove keccak256 path) s.root none = .excluded) ∧
      ∀ proof : Proof,
        HashOk keccak256 (fun x => HistoryInput keccak256 batches x ∨ x ∈ proof.inputs keccak256) →
        (∀ v, verifyProof keccak256 proof s.root (some v) = .included →
          s.backend.getLeaf proof.path = some (keccak256 v)) ∧
        (verifyProof keccak256 proof s.root none = .excluded → s.backend.getLeaf proof.path = none) := by
  obtain ⟨s, hok, hgood, hleaves⟩ := run_spec batches hhash.noDefaults
  refine ⟨s, hok, fun path v hleaf => ?_, fun path hleaf => ?_, fun proof hproof => ?_⟩
  · have hanswer : (s.prove keccak256 path).answers keccak256 (some v) = some true := by
      unfold Proof.answers Smt.prove
      rw [hleaf]
      simp
    unfold verifyProof
    rw [hanswer, reconstructRoot_prove hgood]
    simp
  · have hanswer : (s.prove keccak256 path).answers keccak256 none = some false := by
      unfold Proof.answers Smt.prove
      rw [hleaf]
      rfl
    unfold verifyProof
    rw [hanswer, reconstructRoot_prove hgood]
    simp
  · have hleaf : ∀ value, verifyProof keccak256 proof s.root value ≠ .invalid →
        s.backend.getLeaf proof.path = proof.leafValueHash := by
      intro value hvalid
      have hroot := reconstructRoot_of_verify hvalid
      rw [hgood.root, hleaves] at hroot
      change s.backend.leaves.lookup proof.path = _
      rw [show s.backend.leaves.lookup proof.path = leafSet batches proof.path from congrFun hleaves proof.path]
      exact leaf_of_reconstruct hproof
        (fun x hx => .inl ⟨batches, prefix_refl _, hx⟩) (fun x hx => .inr hx) hroot
    constructor
    · intro v hv
      rw [hleaf (some v) (by rw [hv]; decide), answers_of_included hv]
    · intro hv
      rw [hleaf none (by rw [hv]; decide), answers_of_excluded hv]

/-- A tree of one leaf: its value and the absence of another leaf are proved, and a proof for the leaf
binds the value. -/
theorem proofs_complete_sound_sample :
    ∃ s, run countHash [[(zeroes, some (numHash 1000))]] = some s ∧
      verifyProof countHash (s.prove countHash zeroes) s.root (some []) = .included ∧
      verifyProof countHash (s.prove countHash ones) s.root none = .excluded ∧
      ∀ v, verifyProof countHash oneLeafProof s.root (some v) = .included →
        s.backend.getLeaf zeroes = some (countHash v) := by
  have hset : ∀ done, done <+: [[(zeroes, some (numHash 1000))]] → ∀ p v, leafSet done p = some v →
      p = zeroes ∧ v = numHash 1000 := by
    intro done hdone p v hv
    rcases prefix_cons_iff.1 hdone with rfl | ⟨rest, rfl, hrest⟩
    · cases hv
    · obtain rfl := prefix_nil.1 hrest
      by_cases hp : p = zeroes
      · simp [leafSet, setLeaves, setLeaf, hp] at hv
        exact ⟨hp, hv.symm⟩
      · simp [leafSet, setLeaves, setLeaf, hp] at hv
  have hinput : ∀ x, HistoryInput countHash [[(zeroes, some (numHash 1000))]] x → CountInput x := by
    rintro x ⟨done, hdone, hx⟩
    exact countInput_of_tree (hset done hdone) hx
  obtain ⟨s, hok, hincl, hexcl, hsound⟩ :=
    proofs_complete_sound countHash [[(zeroes, some (numHash 1000))]] (countHash_ok hinput)
  obtain ⟨s', hok', -, hleaves⟩ := run_spec [[(zeroes, some (numHash 1000))]] (countHash_ok hinput).noDefaults
  obtain rfl : s = s' := Option.some.inj (hok.symm.trans hok')
  have hleaf : ∀ p, s.backend.getLeaf p = leafSet [[(zeroes, some (numHash 1000))]] p := congrFun hleaves
  refine ⟨s, hok, hincl zeroes [] ?_, hexcl ones ?_, (hsound oneLeafProof (countHash_ok ?_)).1⟩
  · rw [hleaf]
    rfl
  · rw [hleaf]
    have hne : ones ≠ zeroes := by decide
    simp [leafSet, setLeaves, setLeaf, hne]
  · rintro x (hx | hx)
    · exact hinput x hx
    · exact countInput_of_proof hx

end TronGoblin.Commitment
