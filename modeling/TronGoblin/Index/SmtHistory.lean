import TronGoblin.Index.SmtBatch

/-!
# The root over a history of batches

* `run_spec`: what the batches leave: the leaves, and the full tree over them.
* `root_of_leaves`: the root and the stored nodes depend on the leaves only.
-/

namespace TronGoblin.Commitment

open List

open SparseTree (IsNode Occupied Branch)

variable {keccak256 : Bytes → NodeHash} (batches : List (List Change))

/-- The leaves that a history of batches ends in. -/
def leafSet : Leaves := batches.foldl setLeaves fun _ => none

theorem leafSet_concat (changes : List Change) :
    leafSet (batches ++ [changes]) = setLeaves (leafSet batches) changes := by
  rw [leafSet, foldl_append]
  rfl

theorem lookup_empty_leaves : Backend.empty.leaves.lookup = fun _ => none :=
  funext fun p => AList.lookup_empty p

theorem not_occupied_empty (l : Nat) (q : LeafPath) : ¬ Occupied paths (fun _ => (none : Option NodeHash)) l q := by
  rintro ⟨p, v, hp, -⟩
  cases hp

theorem isNode_root : IsNode paths 0 zeroes := maskPrefix_root zeroes

theorem Smt.fresh_good : (Smt.fresh keccak256).Good keccak256 := by
  constructor
  · intro level q hash
    constructor
    · intro h
      exact absurd (h.symm.trans (AList.lookup_empty _)) nofun
    · rintro ⟨-, -, hbranch, -⟩
      exact absurd hbranch.1 (not_occupied_empty _ _)
  · change emptyRoot keccak256 = nodeHash keccak256 Backend.empty.leaves.lookup 0 zeroes
    rw [lookup_empty_leaves, nodeHash_empty (Nat.zero_le _) isNode_root (not_occupied_empty _ _)]
    rfl

/-- No hash of a leaf or of a subtree with leaves is a default one, after any of the batches. -/
def NoDefaults (keccak256 : Bytes → NodeHash) (batches : List (List Change)) : Prop :=
  ∀ done, done <+: batches → NoDefault keccak256 (leafSet done)

/-- **The batches of a history.**  Each one succeeds and leaves the tree of the leaves so far. -/
theorem run_spec (hdef : NoDefaults keccak256 batches) :
    ∃ s, run keccak256 batches = some s ∧ s.Good keccak256 ∧ s.backend.leaves.lookup = leafSet batches := by
  induction batches using reverseRecOn with
  | nil => exact ⟨_, rfl, Smt.fresh_good, lookup_empty_leaves⟩
  | append_singleton batches changes ih =>
    obtain ⟨s, hok, hgood, hleaves⟩ :=
      ih fun done hdone => hdef done (hdone.trans (prefix_append _ _))
    have hnext : NoDefault keccak256 (setLeaves s.backend.leaves.lookup changes) := by
      rw [hleaves, ← leafSet_concat]
      exact hdef _ (prefix_refl _)
    obtain ⟨s', hok', hgood', hleaves'⟩ := Smt.step_spec hgood changes hnext
    refine ⟨s', ?_, hgood', ?_⟩
    · unfold run at hok ⊢
      rw [foldlM_append, hok]
      simpa using hok'
    · rw [hleaves', hleaves, leafSet_concat]

theorem Smt.Good.rootFromBackend {s : Smt} (h : s.Good keccak256) : s.rootFromBackend keccak256 = s.root := by
  rw [h.root]
  exact readAtHeight_getD h.inv (Nat.zero_add DEPTH) isNode_root

theorem Backend.Inv.nodes_eq {b b' : Backend} (h : b.Inv keccak256) (h' : b'.Inv keccak256)
    (hleaves : b'.leaves.lookup = b.leaves.lookup) (level : Nat) (q : LeafPath) :
    b'.nodes.lookup (level, q) = b.nodes.lookup (level, q) := by
  apply Option.ext
  intro hash
  rw [h' level q hash, h level q hash, hleaves]

/-! ## A hash that tells only empty from not empty -/

def ones : NodeHash := Vector.replicate 32 0xff

/-- Zero for two zero children, `ones` for everything else. -/
def flatHash (data : Bytes) : NodeHash :=
  if data = INTERNAL_PREFIX :: zeroes.toList ++ zeroes.toList then zeroes else ones

theorem flatHash_leaf (p : LeafPath) (v : NodeHash) : hashLeaf flatHash p v = ones := by
  unfold hashLeaf flatHash
  refine if_neg fun h => ?_
  exact absurd (cons.inj h).1 (by decide)

theorem flatHash_node {left right : NodeHash} (h : left = ones ∨ right = ones) :
    hashInternalRaw flatHash left right = ones := by
  refine if_neg fun heq => ?_
  have hparts : left.toList = zeroes.toList ∧ right.toList = zeroes.toList :=
    append_inj (cons.inj heq).2 (by simp)
  rcases h with rfl | rfl
  · exact absurd hparts.1 (by decide)
  · exact absurd hparts.2 (by decide)

theorem flatHash_empty (h : Nat) : emptyHash flatHash h = zeroes := by
  induction h with
  | zero => rfl
  | succ h ih =>
    rw [emptyHash, ih, hashInternalRaw, flatHash, if_pos rfl]

theorem flatHash_occupied {L : Leaves} {l h : Nat} {q : LeafPath} (hd : l + h = DEPTH)
    (hL : Occupied paths L l q) : nodeHash flatHash L l q = ones := by
  induction h generalizing l q with
  | zero =>
    obtain rfl : l = DEPTH := hd
    obtain ⟨p, v, hp, hmask⟩ := hL
    obtain rfl : p = q := (SparseTree.mask_of_le paths p (Nat.le_refl _)).symm.trans hmask
    rw [nodeHash_leaf, hp]
    exact flatHash_leaf p v
  | succ h ih =>
    have hl : l < DEPTH := by omega
    have hq : IsNode paths l q := by
      obtain ⟨p, -, -, rfl⟩ := hL
      exact isNode_maskPrefix p l
    rw [nodeHash_node hl]
    apply flatHash_node
    rcases (SparseTree.occupied_succ hl hq).1 hL with hL | hL
    · exact .inl (ih (by omega) hL)
    · exact .inr (ih (by omega) hL)

theorem flatHash_noDefaults : NoDefaults flatHash batches := by
  intro done _ l q hl hL
  rw [flatHash_occupied (show l + (DEPTH - l) = DEPTH by omega) hL, defaultHash, flatHash_empty]
  decide

/-- **The root depends on the leaves only.**  After any history of batches the root is the one of the full tree over the
leaves, it is what is read back from the backend, and the stored nodes are those with leaves on both sides; so a
history that ends in the same leaves has the same root and stored nodes. -/
theorem root_of_leaves (keccak256 : Bytes → NodeHash) (batches : List (List Change))
    (hdef : NoDefaults keccak256 batches) :
    ∃ s, run keccak256 batches = some s ∧ s.backend.leaves.lookup = leafSet batches ∧
      s.root = nodeHash keccak256 (leafSet batches) 0 zeroes ∧
      s.rootFromBackend keccak256 = s.root ∧
      (∀ level q hash, s.backend.nodes.lookup (level, q) = some hash ↔
        level < DEPTH ∧ IsNode paths level q ∧ Branch paths (leafSet batches) level q ∧
          hash = nodeHash keccak256 (leafSet batches) level q) ∧
      ∀ other, NoDefaults keccak256 other → leafSet other = leafSet batches →
        ∃ s', run keccak256 other = some s' ∧ s'.root = s.root ∧
          ∀ level q, s'.backend.nodes.lookup (level, q) = s.backend.nodes.lookup (level, q) := by
  obtain ⟨s, hok, hgood, hleaves⟩ := run_spec batches hdef
  refine ⟨s, hok, hleaves, ?_, hgood.rootFromBackend, ?_, ?_⟩
  · rw [hgood.root, hleaves]
  · intro level q hash
    rw [hgood.inv level q hash, hleaves]
  · intro other hother hsame
    obtain ⟨s', hok', hgood', hleaves'⟩ := run_spec other hother
    have heq : s'.backend.leaves.lookup = s.backend.leaves.lookup := by
      rw [hleaves', hsame, hleaves]
    refine ⟨s', hok', ?_, hgood.inv.nodes_eq hgood'.inv heq⟩
    rw [hgood'.root, hgood.root, heq]

/-- A leaf that is added and removed again leaves no trace. -/
theorem root_of_leaves_sample :
    leafSet [[(ones, some zeroes)]] = leafSet [[(ones, some zeroes), (zeroes, some ones)], [], [(zeroes, none)]] ∧
      ∃ s s', run flatHash [[(ones, some zeroes), (zeroes, some ones)], [], [(zeroes, none)]] = some s ∧
        run flatHash [[(ones, some zeroes)]] = some s' ∧ s'.root = s.root := by
  have hsame : leafSet [[(ones, some zeroes)]] =
      leafSet [[(ones, some zeroes), (zeroes, some ones)], [], [(zeroes, none)]] := by
    funext p
    have hne : ones ≠ zeroes := by decide
    by_cases hp : p = zeroes
    · subst hp
      simp [leafSet, setLeaves, setLeaf, hne.symm]
    · simp [leafSet, setLeaves, setLeaf, hp]
  obtain ⟨s, hok, -, -, -, -, hother⟩ := root_of_leaves flatHash
    [[(ones, some zeroes), (zeroes, some ones)], [], [(zeroes, none)]] (flatHash_noDefaults _)
  obtain ⟨s', hok', hroot, -⟩ := hother _ (flatHash_noDefaults _) hsame
  exact ⟨hsame, s, s', hok, hok', hroot⟩

end TronGoblin.Commitment
