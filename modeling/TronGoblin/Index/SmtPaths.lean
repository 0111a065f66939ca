import TronGoblin.Index.Smt
import TronGoblin.Lib.SparseTree

/-!
# Paths by their bytes

* `pathBit_maskPrefix`, `pathBit_flipBit`, `pathBit_setBit`: what the operations on bytes do to the
  bits of a path.
* `paths`: paths of 256 bits in the sense of `SparseTree.BitPaths`.
-/

namespace TronGoblin.Commitment

/-! ## Bytes -/

variable {k : Nat}

theorem byteBit_eq_testBit (b : UInt8) (hk : k < 8) : byteBit b k = b.toNat.testBit (7 - k) := by
  have hshift : (UInt8.ofNat (7 - k)).toNat % 8 = 7 - k := by
    rw [UInt8.toNat_ofNat']
    omega
  have hnat : ((b >>> UInt8.ofNat (7 - k)) &&& 1).toNat = b.toNat >>> (7 - k) % 2 := by
    rw [UInt8.toNat_and, UInt8.toNat_shiftRight, hshift]
    exact Nat.and_one_is_mod _
  unfold byteBit
  rw [Bool.eq_iff_iff, beq_iff_eq, ← UInt8.toNat_inj, hnat, Nat.testBit, Nat.and_comm, Nat.and_one_is_mod]
  simp

theorem byte_ext {a b : UInt8} (h : ∀ k, k < 8 → byteBit a k = byteBit b k) : a = b := by
  apply UInt8.toNat_inj.1
  apply Nat.eq_of_testBit_eq
  intro i
  by_cases hi : i < 8
  · have hbit := h (7 - i) (by omega)
    rwa [byteBit_eq_testBit a (by omega), byteBit_eq_testBit b (by omega), show 7 - (7 - i) = i by omega] at hbit
  · have hsmall : ∀ c : UInt8, c.toNat.testBit i = false := fun c =>
      Nat.testBit_lt_two_pow (Nat.lt_of_lt_of_le c.toNat_lt (Nat.pow_le_pow_right (by decide) (show 8 ≤ i by omega)))
    rw [hsmall a, hsmall b]

theorem byteBit_zero (k : Nat) (hk : k < 8) : byteBit 0 k = false := by
  rw [byteBit_eq_testBit 0 hk]
  exact Nat.zero_testBit _

theorem byteBit_bitMask {m k : Nat} (hm : m < 8) (hk : k < 8) : byteBit (bitMask m) k = decide (k = m) := by
  have h : ∀ m k : Fin 8, byteBit (bitMask m.val) k.val = decide (k.val = m.val) := by decide
  exact h ⟨m, hm⟩ ⟨k, hk⟩

theorem byteBit_keepMask {r k : Nat} (hr₀ : 0 < r) (hr : r < 8) (hk : k < 8) :
    byteBit (0xff <<< UInt8.ofNat (8 - r)) k = decide (k < r) := by
  have h : ∀ r k : Fin 8, 0 < r.val →
      byteBit (0xff <<< UInt8.ofNat (8 - r.val)) k.val = decide (k.val < r.val) := by decide
  exact h ⟨r, hr⟩ ⟨k, hk⟩ hr₀

theorem byteBit_and (a b : UInt8) (hk : k < 8) : byteBit (a &&& b) k = (byteBit a k && byteBit b k) := by
  rw [byteBit_eq_testBit _ hk, byteBit_eq_testBit a hk, byteBit_eq_testBit b hk, UInt8.toNat_and, Nat.testBit_and]

theorem byteBit_or (a b : UInt8) (hk : k < 8) : byteBit (a ||| b) k = (byteBit a k || byteBit b k) := by
  rw [byteBit_eq_testBit _ hk, byteBit_eq_testBit a hk, byteBit_eq_testBit b hk, UInt8.toNat_or, Nat.testBit_or]

theorem byteBit_xor (a b : UInt8) (hk : k < 8) : byteBit (a ^^^ b) k = (byteBit a k ^^ byteBit b k) := by
  rw [byteBit_eq_testBit _ hk, byteBit_eq_testBit a hk, byteBit_eq_testBit b hk, UInt8.toNat_xor, Nat.testBit_xor]

/-! ## Paths -/

variable {i : Nat}

theorem div_lt (hi : i < DEPTH) : i / 8 < 32 := by
  unfold DEPTH at hi
  omega

variable (path : LeafPath)

theorem pathBit_eq (hi : i < DEPTH) : pathBit path i = byteBit (path.get ⟨i / 8, div_lt hi⟩) (i % 8) := by
  unfold pathBit
  rw [Vector.getElem?_eq_getElem (div_lt hi)]
  rfl

theorem path_ext {p q : LeafPath} (h : ∀ i, i < DEPTH → pathBit p i = pathBit q i) : p = q := by
  apply Vector.ext
  intro j hj
  apply byte_ext
  intro k hk
  have hi : j * 8 + k < DEPTH := by
    unfold DEPTH
    omega
  have hbit := h (j * 8 + k) hi
  have hdiv : (j * 8 + k) / 8 = j := by omega
  have hmod : (j * 8 + k) % 8 = k := by omega
  rw [pathBit_eq p hi, pathBit_eq q hi] at hbit
  simp only [hdiv, hmod] at hbit
  exact hbit

theorem pathBit_mapIdx (f : Nat → UInt8 → UInt8) (hi : i < DEPTH) :
    pathBit (path.mapIdx f) i = byteBit (f (i / 8) (path.get ⟨i / 8, div_lt hi⟩)) (i % 8) := by
  rw [pathBit_eq _ hi]
  exact congrArg (byteBit · (i % 8)) (Vector.getElem_mapIdx (div_lt hi))

theorem pathBit_maskPrefix (level : Nat) (hi : i < DEPTH) :
    pathBit (maskPrefix path level) i = (decide (i < level) && pathBit path i) := by
  have hk : i % 8 < 8 := Nat.mod_lt i (by decide)
  unfold maskPrefix
  split
  · simp [show i < level by omega]
  · dsimp only
    split
    · rw [pathBit_mapIdx _ _ hi, pathBit_eq _ hi]
      by_cases hlt : i < level
      · rw [if_neg (by omega)]
        simp [hlt]
      · rw [if_pos (by omega), byteBit_zero _ hk]
        simp [hlt]
    · rw [pathBit_mapIdx _ _ hi, pathBit_eq _ hi]
      by_cases hbyte : i / 8 = level / 8
      · rw [if_pos hbyte, byteBit_and _ _ hk, byteBit_keepMask (by omega) (by omega) hk]
        have hiff : i % 8 < level % 8 ↔ i < level := by omega
        simp [hiff, Bool.and_comm]
      · rw [if_neg hbyte]
        by_cases hlt : i < level
        · rw [if_neg (by omega)]
          simp [hlt]
        · rw [if_pos (by omega), byteBit_zero _ hk]
          simp [hlt]

theorem pathBit_flipBit {level i : Nat} (hi : i < DEPTH) :
    pathBit (flipBit path level) i = if i = level then !pathBit path level else pathBit path i := by
  have hk : i % 8 < 8 := Nat.mod_lt i (by decide)
  have hm : level % 8 < 8 := Nat.mod_lt level (by decide)
  unfold flipBit
  rw [pathBit_mapIdx _ _ hi, pathBit_eq _ hi]
  by_cases heq : i = level
  · subst heq
    rw [if_pos rfl, if_pos rfl, byteBit_xor _ _ hk, byteBit_bitMask hm hk, pathBit_eq _ hi]
    simp
  · split
    · rw [byteBit_xor _ _ hk, byteBit_bitMask hm hk]
      simp [show i % 8 ≠ level % 8 by omega]
    · rfl

theorem pathBit_setBit {level i : Nat} (hi : i < DEPTH) :
    pathBit (setBit path level) i = if i = level then true else pathBit path i := by
  have hk : i % 8 < 8 := Nat.mod_lt i (by decide)
  have hm : level % 8 < 8 := Nat.mod_lt level (by decide)
  unfold setBit
  rw [pathBit_mapIdx _ _ hi, pathBit_eq _ hi]
  by_cases heq : i = level
  · subst heq
    rw [if_pos rfl, if_pos rfl, byteBit_or _ _ hk, byteBit_bitMask hm hk]
    simp
  · split
    · rw [byteBit_or _ _ hk, byteBit_bitMask hm hk]
      simp [show i % 8 ≠ level % 8 by omega]
    · rfl

def paths : SparseTree.BitPaths LeafPath where
  depth := DEPTH
  bit := pathBit
  mask := maskPrefix
  sibling := siblingPrefix
  ext _ _ := path_ext
  bit_mask p l _ hi := pathBit_maskPrefix p l hi
  bit_sibling p l i hl hi := by
    unfold siblingPrefix
    rw [pathBit_flipBit _ hi, pathBit_maskPrefix _ _ hl, pathBit_maskPrefix _ _ hi]
    by_cases heq : i = l
    · simp [heq]
    · by_cases hlt : i < l
      · simp [heq, hlt, show i < l + 1 by omega]
      · simp [heq, hlt, show ¬ i < l + 1 by omega]

theorem maskPrefix_root : maskPrefix path 0 = zeroes := by
  apply path_ext
  intro i hi
  have hzero : pathBit zeroes i = false := by
    rw [pathBit_eq _ hi]
    have hbyte : zeroes.get ⟨i / 8, div_lt hi⟩ = 0 := Vector.getElem_replicate (div_lt hi)
    rw [hbyte]
    exact byteBit_zero _ (Nat.mod_lt i (by decide))
  rw [pathBit_maskPrefix _ _ hi, hzero]
  simp

/-- The right child of a node, as it is written when the node is read. -/
theorem setBit_eq_sibling {path : LeafPath} {level : Nat} (hl : level < DEPTH)
    (hq : SparseTree.IsNode paths level path) : setBit path level = siblingPrefix path level := by
  have hbit : pathBit path level = false := SparseTree.IsNode.bit hq hl (Nat.le_refl level)
  apply path_ext
  intro i hi
  rw [pathBit_setBit _ hi]
  have hsib := paths.bit_sibling path level i hl hi
  change pathBit (siblingPrefix path level) i = _ at hsib
  rw [hsib]
  by_cases heq : i = level
  · rw [if_pos heq, if_pos heq]
    exact (congrArg (! ·) hbit).symm
  · rw [if_neg heq, if_neg heq]
    by_cases hlt : i < level
    · simp only [hlt, decide_true, Bool.true_and]
      rfl
    · simp only [hlt, decide_false, Bool.false_and]
      exact SparseTree.IsNode.bit hq hi (by omega)

end TronGoblin.Commitment
