import Mathlib.Data.Vector.Defs
import TronGoblin.Lib.Merkle
import TronGoblin.Types.Block

/-!
# The transaction root of a block

Model of `verify_tx_trie_root_raw` (`tron-types/src/block_validate.rs`), which recomputes the root of a
block's transactions from the bytes it came in, with the walk over the bytes
(`tx_trie_root_from_block_bytes`, `tron-types/src/tx_id.rs`) and the tree (`tron-crypto/src/merkle.rs`).

* `walkStep_decodeField`: one round of the walk, on a field that the decoder reads.
* `leavesFrom_decode`: the walk finds the transactions, unless it meets a group.
* `verifyTxTrieRootRaw_commits`: what a root that passes commits to.

The walk returns nothing both for a block without transactions and when it cannot go on.  It stops at
a group, which the decoder skips, and the block then passes with the root of an empty block.
-/

namespace TronGoblin

open List hiding Vector
open Proto (Block payloads wireTransactions decodeBlock)
open Protobuf

abbrev Hash256 := Vector UInt8 32

section Walk

/-! ## The walk over the bytes -/

/-- The loop of `read_varint`. -/
def readVarintFrom : Bytes → Nat → Nat → UInt64 → Option (UInt64 × Nat)
  | [], _, _, _ => none
  | b :: rest, idx, shift, result =>
    if 64 ≤ shift then none
    else
      let result := result ||| ((b &&& 0x7f).toUInt64 <<< UInt64.ofNat shift)
      if b &&& 0x80 = 0 then some (result, idx + 1)
      else readVarintFrom rest (idx + 1) (shift + 7) result

/-- The value and the number of bytes read. -/
def readVarint (buf : Bytes) : Option (UInt64 × Nat) := readVarintFrom buf 0 0 0

def TRANSACTIONS_FIELD : UInt64 := 1

variable (sha256 : Bytes → Hash256)

/-- One round of the loop of `tx_trie_root_from_block_bytes`, on what is left of the bytes.  Going
past the end ends the loop. -/
def walkStep (bytes : Bytes) (leaves : List Hash256) : Option (Bytes × List Hash256) := do
  let (tag, n) ← readVarint bytes
  let bytes := bytes.drop n
  let field := tag >>> 3
  match (tag &&& 0x7).toNat with
  | 0 =>
    let (_, n) ← readVarint bytes
    return (bytes.drop n, leaves)
  | 1 => return (bytes.drop 8, leaves)
  | 5 => return (bytes.drop 4, leaves)
  | 2 =>
    let (len, n) ← readVarint bytes
    let bytes := bytes.drop n
    -- truncated
    if bytes.length < len.toNat then none
    else if field = TRANSACTIONS_FIELD then
      return (bytes.drop len.toNat, leaves ++ [sha256 (bytes.take len.toNat)])
    else return (bytes.drop len.toNat, leaves)
  -- groups
  | _ => none

/-- The loop; every round reads at least one byte. -/
def leavesFrom : Nat → Bytes → List Hash256 → Option (List Hash256)
  | _, [], leaves => some leaves
  | 0, _ :: _, _ => none
  | fuel + 1, b :: bytes, leaves =>
    (walkStep sha256 (b :: bytes) leaves).bind fun r => leavesFrom fuel r.1 r.2

def sha256Pair (a b : Hash256) : Hash256 := sha256 (a.toList ++ b.toList)

def merkleRoot (leaves : List Hash256) : Option Hash256 := Merkle.root (sha256Pair sha256) leaves

def txTrieRootFromBlockBytes (blockBytes : Bytes) : Option Hash256 :=
  (leavesFrom sha256 blockBytes.length blockBytes []).bind (merkleRoot sha256)

/-- `calc_tx_trie_root`, from the re-encoded transactions. -/
def calcTxTrieRoot {T : Type} (encodeTransaction : T → Bytes) (transactions : List T) : Option Hash256 :=
  if transactions.isEmpty then none
  else merkleRoot sha256 (transactions.map fun tx => sha256 (encodeTransaction tx))

end Walk

theorem calcTxTrieRoot_eq {T : Type} (sha256 : Bytes → Hash256) (encodeTransaction : T → Bytes)
    (transactions : List T) :
    calcTxTrieRoot sha256 encodeTransaction transactions =
      merkleRoot sha256 ((transactions.map encodeTransaction).map sha256) := by
  cases transactions with
  | nil => rfl
  | cons tx txs =>
    rw [map_map]
    rfl

/-! ## The check -/

inductive BlockValidateError
  | missingHeader
  | txTrieRootMismatch (headerHas : Bytes) (computed : Option Hash256)
  deriving DecidableEq

def zeroHash : Bytes := replicate 32 0

def compareTxTrieRoot (computed : Option Hash256) (headerRoot : Bytes) : Except BlockValidateError Unit :=
  match computed with
  | none =>
    if headerRoot = [] ∨ headerRoot = zeroHash then .ok ()
    else .error (.txTrieRootMismatch headerRoot none)
  | some c =>
    if headerRoot = [] then .error (.txTrieRootMismatch headerRoot (some c))
    else if headerRoot = c.toList then .ok ()
    else .error (.txTrieRootMismatch headerRoot (some c))

def verifyTxTrieRootRaw {T : Type} (sha256 : Bytes → Hash256) (block : Block T) (blockBytes : Bytes) :
    Except BlockValidateError Unit :=
  match block.raw with
  | none => .error .missingHeader
  | some raw => compareTxTrieRoot (txTrieRootFromBlockBytes sha256 blockBytes) raw.txTrieRoot

/-! ## Reading numbers -/

theorem low7 (b : UInt8) : ((b &&& 0x7f).toUInt64).toNat = b.toNat % 128 := by
  exact Nat.and_two_pow_sub_one_eq_mod b.toNat 7

theorem high_bit (b : UInt8) : b &&& 0x80 = 0 ↔ b.toNat < 128 := by
  have hand : ∀ i : Fin 256, i.val &&& 128 = 0 ↔ i.val < 128 := by decide +kernel
  rw [← UInt8.toNat_inj, UInt8.toNat_and]
  exact hand ⟨b.toNat, b.toNat_lt⟩

/-- One more group of seven bits. -/
theorem toNat_or_shift {acc : UInt64} {b : UInt8} {shift : Nat} (hs : shift < 64)
    (hacc : acc.toNat < 2 ^ shift) (hfit : b.toNat % 128 * 2 ^ shift < 2 ^ 64) :
    (acc ||| ((b &&& 0x7f).toUInt64 <<< UInt64.ofNat shift)).toNat = acc.toNat + b.toNat % 128 * 2 ^ shift := by
  have hshift : (UInt64.ofNat shift).toNat = shift := by
    rw [UInt64.toNat_ofNat']
    omega
  rw [UInt64.toNat_or, UInt64.toNat_shiftLeft, low7, hshift, Nat.mod_eq_of_lt hs, Nat.shiftLeft_eq,
    Nat.mod_eq_of_lt hfit, Nat.or_comm, Nat.mul_comm, ← Nat.two_pow_add_eq_or_of_lt hacc, Nat.add_comm]

theorem readVarintFrom_varint {n : Nat} {bs rest : Bytes} {v : Nat} (idx shift : Nat) (acc : UInt64)
    (h : varint n bs = some (v, rest)) (hs : shift + 7 * n ≤ 70) (hacc : acc.toNat < 2 ^ shift)
    (hv : acc.toNat + v * 2 ^ shift < 2 ^ 64) :
    readVarintFrom bs idx shift acc =
      some (UInt64.ofNat (acc.toNat + v * 2 ^ shift), idx + (bs.length - rest.length)) := by
  induction n generalizing bs v idx shift acc with
  | zero => simp [varint] at h
  | succ n ih =>
    cases bs with
    | nil => simp [varint] at h
    | cons b bs =>
      have hlen := varint_length h
      rw [length_cons] at hlen
      rw [varint] at h
      rw [readVarintFrom, if_neg (by omega)]
      split at h
      · -- the last byte
        rename_i hb
        cases h
        have hmod : b.toNat % 128 = b.toNat := Nat.mod_eq_of_lt hb
        have hor := toNat_or_shift (b := b) (show shift < 64 by omega) hacc (by rw [hmod]; omega)
        rw [hmod] at hor
        rw [if_pos ((high_bit b).2 hb), ← hor, UInt64.ofNat_toNat, length_cons, Nat.add_sub_cancel_left]
      · rename_i hb
        obtain ⟨⟨v', rest'⟩, hv', hr⟩ := Option.map_eq_some_iff.1 h
        cases hr
        have hb' : b.toNat < 256 := b.toNat_lt
        have hlow : b.toNat % 128 = b.toNat - 128 := by omega
        have hpow : 2 ^ (shift + 7) = 128 * 2 ^ shift := by rw [Nat.pow_add, Nat.mul_comm]
        have hsum : acc.toNat + (b.toNat - 128 + 128 * v') * 2 ^ shift =
            acc.toNat + b.toNat % 128 * 2 ^ shift + v' * 2 ^ (shift + 7) := by
          rw [hpow, hlow]
          ring
        have hle : b.toNat % 128 * 2 ^ shift ≤ 127 * 2 ^ shift :=
          Nat.mul_le_mul_right _ (by omega)
        rw [hsum] at hv
        have hor := toNat_or_shift (b := b) (show shift < 64 by omega) hacc (by omega)
        rw [if_neg (fun h0 => hb ((high_bit b).1 h0)), hsum, ← hor,
          ih _ _ _ hv' (by omega) (by rw [hor, hpow]; omega) (by rw [hor]; omega)]
        rw [length_cons, Nat.succ_sub (by omega), Nat.succ_eq_add_one, Nat.add_assoc, Nat.add_comm 1]

theorem readVarint_decodeVarint {bs rest : Bytes} {v : Nat} (h : decodeVarint bs = some (v, rest)) :
    ∃ n, readVarint bs = some (UInt64.ofNat v, n) ∧ bs.drop n = rest ∧ v < 2 ^ 64 := by
  obtain ⟨hv, hlt⟩ := decodeVarint_eq_some.1 h
  refine ⟨bs.length - rest.length, ?_, varint_drop hv, hlt⟩
  have := readVarintFrom_varint 0 0 0 hv (by omega) (by decide)
    (by simpa using hlt)
  simpa [readVarint] using this

/-! ## The walk and the decoder -/

section

variable (sha256 : Bytes → Hash256)

theorem wire_of_tag {v : Nat} (hv : v < 2 ^ 64) : (UInt64.ofNat v &&& 0x7).toNat = v % 8 := by
  rw [UInt64.toNat_and, UInt64.toNat_ofNat_of_lt' hv]
  exact Nat.and_two_pow_sub_one_eq_mod v 3

theorem field_of_tag {v : Nat} (hv : v < 2 ^ 64) : UInt64.ofNat v >>> 3 = TRANSACTIONS_FIELD ↔ v / 8 = 1 := by
  rw [← UInt64.toNat_inj, UInt64.toNat_shiftRight, UInt64.toNat_ofNat_of_lt' hv]
  exact Eq.congr (Nat.shiftRight_eq_div_pow v 3) rfl

/-- What one round does with a field. -/
def visit (leaves : List Hash256) (f : Field) : Option (List Hash256) :=
  match f.payload with
  | .group => none
  | .len bytes => some (if f.num = 1 then leaves ++ [sha256 bytes] else leaves)
  | _ => some leaves

variable {f : Field}

theorem walkStep_decodeField {bs rest : Bytes} (h : decodeField bs = some (f, rest)) (leaves : List Hash256) :
    walkStep sha256 bs leaves = (visit sha256 leaves f).map (rest, ·) := by
  obtain ⟨v, r, hv, hnum, hf⟩ := decodeField_eq_some h
  obtain ⟨n, hread, hdrop, hlt⟩ := readVarint_decodeVarint hv
  obtain ⟨num, payload⟩ := f
  subst hnum
  unfold walkStep visit
  rw [hread]
  simp only [bind, Option.bind_some, hdrop, wire_of_tag hlt, field_of_tag hlt]
  cases hf with
  | varint hw hv' =>
    obtain ⟨n', hread', hdrop', -⟩ := readVarint_decodeVarint hv'
    simp only at hw
    simp [hw, hread', hdrop']
  | fixed64 hw =>
    simp only at hw
    simp [hw]
  | len hw hv' hl =>
    obtain ⟨n', hread', hdrop', hlt'⟩ := readVarint_decodeVarint hv'
    simp only at hw
    simp only [hw, hread', Option.bind_some, hdrop', UInt64.toNat_ofNat_of_lt' hlt']
    rw [if_neg (by omega)]
    split <;> rfl
  | group hw =>
    simp only at hw
    simp [hw]
  | fixed32 hw =>
    simp only at hw
    simp [hw]

def GroupFree (fields : List Field) : Prop := ∀ f ∈ fields, f.payload ≠ .group

instance (fields : List Field) : Decidable (GroupFree fields) :=
  inferInstanceAs (Decidable (∀ f ∈ fields, f.payload ≠ .group))

theorem visit_entries {leaves leaves' : List Hash256} {fields : List Field} {entries : List Bytes}
    (hp : payloads (f :: fields) 1 = some entries) (hv : visit sha256 leaves f = some leaves') :
    ∃ rest, payloads fields 1 = some rest ∧ leaves ++ entries.map sha256 = leaves' ++ rest.map sha256 := by
  rcases Proto.payloads_cons_eq_some hp with ⟨hnum, hp'⟩ | ⟨bytes, rest, hnum, hlen, hp', rfl⟩
  · refine ⟨entries, hp', ?_⟩
    unfold visit at hv
    split at hv
    · cases hv
    · rw [if_neg hnum] at hv
      cases hv
      rfl
    · cases hv
      rfl
  · refine ⟨rest, hp', ?_⟩
    unfold visit at hv
    rw [hlen] at hv
    dsimp only at hv
    rw [if_pos hnum] at hv
    cases hv
    simp

theorem visit_eq_none {leaves : List Hash256} : visit sha256 leaves f = none ↔ f.payload = .group := by
  unfold visit
  split <;> simp_all

/-- **The walk finds the transactions that the decoder finds, unless it meets a group.** -/
theorem leavesFrom_decode {fields : List Field} {bs : Bytes} {entries : List Bytes} {fuel : Nat}
    (h : decode bs = some fields) (hp : payloads fields 1 = some entries)
    (hfuel : bs.length ≤ fuel) (leaves : List Hash256) :
    leavesFrom sha256 fuel bs leaves = if GroupFree fields then some (leaves ++ entries.map sha256) else none := by
  induction fields generalizing bs entries fuel leaves with
  | nil =>
    cases bs with
    | nil =>
      cases hp
      simp [leavesFrom, GroupFree]
    | cons b bs =>
      obtain ⟨_, -, h⟩ := Option.bind_eq_some_iff.1 h
      obtain ⟨_, -, h⟩ := Option.map_eq_some_iff.1 h
      cases h
  | cons f fields ih =>
    cases bs with
    | nil => cases h
    | cons b bs =>
      rw [decode_cons] at h
      obtain ⟨⟨f', rest⟩, hf, h⟩ := Option.bind_eq_some_iff.1 h
      obtain ⟨fields', hrest, hcons⟩ := Option.map_eq_some_iff.1 h
      cases hcons
      have hlen := decodeField_length hf
      obtain ⟨fuel, rfl⟩ : ∃ k, fuel = k + 1 := ⟨fuel - 1, by simp at hfuel; omega⟩
      rw [leavesFrom, walkStep_decodeField sha256 hf]
      cases hv : visit sha256 leaves f' with
      | none =>
        have hgroup := (visit_eq_none sha256).1 hv
        rw [if_neg (fun hfree => hfree f' (by simp) hgroup)]
        rfl
      | some leaves' =>
        obtain ⟨entries', hp', heq⟩ := visit_entries sha256 hp hv
        have hnot : f'.payload ≠ .group := fun hg => by
          rw [(visit_eq_none sha256).2 hg] at hv
          cases hv
        have hiff : GroupFree (f' :: fields) ↔ GroupFree fields := by
          simp [GroupFree, hnot]
        rw [heq]
        simp only [hiff]
        exact ih hrest hp' (show rest.length ≤ fuel by omega) leaves'

/-! ## What the root commits to -/

/-- The root that the header of a block declares. -/
def Proto.Block.txTrieRoot {T : Type} (block : Block T) : Option Bytes := block.raw.map (·.txTrieRoot)

/-- The Merkle root of the hashes of a block's transactions. -/
def transactionsRoot (bytes : Bytes) : Option Bytes :=
  (merkleRoot sha256 ((wireTransactions bytes).map sha256)).map (·.toList)

/-- The encoding has no group beside the transactions and the header. -/
def NoGroup (bytes : Bytes) : Prop := ∀ fields, decode bytes = some fields → GroupFree fields

variable {T : Type} {decodeTransaction : Bytes → Option T} {bytes : Bytes} {block : Block T}

theorem txTrieRootFromBlockBytes_decode (h : decodeBlock decodeTransaction bytes = some block) :
    (NoGroup bytes → txTrieRootFromBlockBytes sha256 bytes = merkleRoot sha256 ((wireTransactions bytes).map sha256)) ∧
    (¬ NoGroup bytes → txTrieRootFromBlockBytes sha256 bytes = none) := by
  obtain ⟨fields, hf, hp, -⟩ := Proto.decodeBlock_eq_some h
  have hfree : NoGroup bytes ↔ GroupFree fields := by
    simp [NoGroup, hf]
  unfold txTrieRootFromBlockBytes
  rw [leavesFrom_decode sha256 hf hp (Nat.le_refl _) [], hfree]
  constructor
  · intro hg
    rw [if_pos hg, Option.bind_some, nil_append]
  · intro hg
    rw [if_neg hg, Option.bind_none]

theorem compareTxTrieRoot_ok {computed : Option Hash256} {root : Bytes} :
    compareTxTrieRoot computed root = .ok () ↔ (computed = none ∧ (root = [] ∨ root = zeroHash)) ∨
        ∃ c, computed = some c ∧ root = c.toList := by
  unfold compareTxTrieRoot
  cases computed with
  | none =>
    by_cases h : root = [] ∨ root = zeroHash
    · simp [h]
    · simp only [if_neg h]
      simpa using h
  | some c =>
    simp only [reduceCtorEq, false_and, Option.some.injEq, false_or, exists_eq_left']
    split
    · simp_all
    · simp

theorem verifyTxTrieRootRaw_ok :
    verifyTxTrieRootRaw sha256 block bytes = .ok () ↔ ∃ root, block.txTrieRoot = some root ∧
        compareTxTrieRoot (txTrieRootFromBlockBytes sha256 bytes) root = .ok () := by
  unfold verifyTxTrieRootRaw Proto.Block.txTrieRoot
  cases block.raw <;> simp

/-- Every transaction is under the declared root. -/
def RootCommits (bytes : Bytes) (block : Block T) : Prop :=
  block.transactions = [] ∨ block.txTrieRoot = transactionsRoot sha256 bytes

/-- There is no group beside the transactions, or the declared root is not one of an empty block. -/
def RootDecides (bytes : Bytes) (block : Block T) : Prop :=
  NoGroup bytes ∨ block.transactions = [] ∨ (block.txTrieRoot ≠ some [] ∧ block.txTrieRoot ≠ some zeroHash) ∨
    block.txTrieRoot = transactionsRoot sha256 bytes

theorem rootCommits_of_root {c : Hash256} (hc : merkleRoot sha256 ((wireTransactions bytes).map sha256) = some c)
    (hroot : block.txTrieRoot = some c.toList) : RootCommits sha256 bytes block := by
  right
  rw [hroot, transactionsRoot, hc, Option.map_some]

section

variable (h : decodeBlock decodeTransaction bytes = some block)
include h

theorem rootCommits_of_noGroup (hg : NoGroup bytes) (hok : verifyTxTrieRootRaw sha256 block bytes = .ok ()) :
    RootCommits sha256 bytes block := by
  obtain ⟨root, hroot, hcmp⟩ := (verifyTxTrieRootRaw_ok sha256).1 hok
  rw [(txTrieRootFromBlockBytes_decode sha256 h).1 hg, compareTxTrieRoot_ok] at hcmp
  rcases hcmp with ⟨hnone, -⟩ | ⟨c, hc, rfl⟩
  · left
    obtain ⟨-, -, -, hlen⟩ := Proto.decodeBlock_eq_some h
    rw [merkleRoot, Merkle.root_eq_none, map_eq_nil_iff] at hnone
    rw [hnone] at hlen
    exact length_eq_zero_iff.1 hlen
  · exact rootCommits_of_root sha256 hc hroot

theorem rootCommits_iff :
    (verifyTxTrieRootRaw sha256 block bytes = .ok () → RootCommits sha256 bytes block) ↔
      RootDecides sha256 bytes block := by
  by_cases hg : NoGroup bytes
  · exact ⟨fun _ => Or.inl hg, fun _ => rootCommits_of_noGroup sha256 h hg⟩
  -- the walk ends at the group, so the block passes with the root of an empty one
  have hnone := (txTrieRootFromBlockBytes_decode sha256 h).2 hg
  rw [verifyTxTrieRootRaw_ok, hnone]
  simp only [compareTxTrieRoot_ok, RootDecides, hg, false_or, true_and, reduceCtorEq, false_and, exists_false, or_false]
  constructor
  · intro hc
    by_cases hempty : block.txTrieRoot = some [] ∨ block.txTrieRoot = some zeroHash
    · have hcommit : RootCommits sha256 bytes block := by
        rcases hempty with hr | hr
        · exact hc ⟨_, hr, Or.inl rfl⟩
        · exact hc ⟨_, hr, Or.inr rfl⟩
      rcases hcommit with ht | hr
      · exact Or.inl ht
      · exact Or.inr (Or.inr hr)
    · rw [not_or] at hempty
      exact Or.inr (Or.inl hempty)
  · rintro (ht | hne | hr) ⟨root, hroot, hzero⟩
    · exact Or.inl ht
    · rcases hzero with rfl | rfl
      · exact absurd hroot hne.1
      · exact absurd hroot hne.2
    · exact Or.inr hr

end

/-- What is hashed to find the root of a block's transactions. -/
def rootInputs (bytes : Bytes) : List Bytes :=
  let leaves := (wireTransactions bytes).map sha256
  wireTransactions bytes ++
    (Merkle.pairs (sha256Pair sha256) leaves.length leaves).map fun p => p.1.toList ++ p.2.toList

variable {U : Set Bytes}

section

variable (hU : Set.InjOn sha256 U)
include hU

theorem sha256Pair_injective : Merkle.Injective (sha256Pair sha256) (fun p => p.1.toList ++ p.2.toList ∈ U) := by
  rintro ⟨a, b⟩ ⟨c, d⟩ hab hcd h
  have happ := hU hab hcd h
  obtain ⟨hac, hbd⟩ := append_inj happ (by simp)
  exact Prod.ext (Vector.toList_inj.1 hac) (Vector.toList_inj.1 hbd)

theorem map_injOn {l l' : List Bytes} (hl : ∀ x ∈ l, x ∈ U) (hl' : ∀ x ∈ l', x ∈ U) (h : l.map sha256 = l'.map sha256)
    : l = l' := by
  induction l generalizing l' with
  | nil => simpa [eq_comm] using h
  | cons a l ih =>
    cases l' with
    | nil => simp at h
    | cons a' l' =>
      simp only [map_cons, cons.injEq] at h
      simp only [mem_cons, forall_eq_or_imp] at hl hl'
      rw [hU hl.1 hl'.1 h.1, ih hl.2 hl'.2 h.2]

theorem wireTransactions_of_root {bytes' : Bytes} (hin : ∀ x ∈ rootInputs sha256 bytes, x ∈ U)
    (hin' : ∀ x ∈ rootInputs sha256 bytes', x ∈ U)
    (hlen : (wireTransactions bytes).length = (wireTransactions bytes').length)
    (hroot : transactionsRoot sha256 bytes = transactionsRoot sha256 bytes') :
    wireTransactions bytes = wireTransactions bytes' := by
  simp only [rootInputs, mem_append, mem_map, or_imp, forall_and,
    forall_exists_index, and_imp, forall_apply_eq_imp_iff₂] at hin hin'
  have hroot' : merkleRoot sha256 ((wireTransactions bytes).map sha256) =
      merkleRoot sha256 ((wireTransactions bytes').map sha256) :=
    Option.map_injective (fun _ _ h => Vector.toList_inj.1 h) hroot
  have hleaves := Merkle.root_injective (sha256Pair_injective sha256 hU) (by simpa using hlen)
    hin.2 hin'.2 hroot'
  exact map_injOn sha256 hU hin.1 hin'.1 hleaves

end

/-- **A root that passes commits to the transactions.** -/
theorem verifyTxTrieRootRaw_commits (decodeTransaction : Bytes → Option T) :
    (∀ bytes block, decodeBlock decodeTransaction bytes = some block →
      ((verifyTxTrieRootRaw sha256 block bytes = .ok () → RootCommits sha256 bytes block) ↔
        RootDecides sha256 bytes block)) ∧
    (∀ bytes block bytes' block', decodeBlock decodeTransaction bytes = some block →
      decodeBlock decodeTransaction bytes' = some block' →
      RootDecides sha256 bytes block → RootDecides sha256 bytes' block' →
      verifyTxTrieRootRaw sha256 block bytes = .ok () →
      verifyTxTrieRootRaw sha256 block' bytes' = .ok () →
      Set.InjOn sha256 {x | x ∈ rootInputs sha256 bytes ∨ x ∈ rootInputs sha256 bytes'} →
      block.txTrieRoot = block'.txTrieRoot →
      block.transactions.length = block'.transactions.length → 0 < block.transactions.length →
      wireTransactions bytes = wireTransactions bytes') := by
  refine ⟨fun _ _ h => rootCommits_iff sha256 h, ?_⟩
  intro bytes block bytes' block' h h' hd hd' hok hok' hU hroot hlen hpos
  have hcommit := (rootCommits_iff sha256 h).2 hd hok
  have hcommit' := (rootCommits_iff sha256 h').2 hd' hok'
  obtain ⟨-, -, -, hwire⟩ := Proto.decodeBlock_eq_some h
  obtain ⟨-, -, -, hwire'⟩ := Proto.decodeBlock_eq_some h'
  rcases hcommit with hnil | hr
  · rw [hnil] at hpos
    cases hpos
  rcases hcommit' with hnil | hr'
  · rw [hlen, hnil] at hpos
    cases hpos
  exact wireTransactions_of_root sha256 hU (fun _ => Or.inl) (fun _ => Or.inr)
    (by rw [← hwire, ← hwire', hlen]) (by rw [← hr, ← hr', hroot])

end

/-! ## Small blocks -/

def sumHash (bytes : Bytes) : Hash256 := Vector.replicate 32 (bytes.foldl (fun a b => a + b) 0)

/-- A transaction is its bytes, if its `raw_data` is a message and its signatures are strings. -/
def decodeSmall (bytes : Bytes) : Option Bytes := do
  let fields ← decode bytes
  let _ ← Proto.messageField fields 1
  let _ ← payloads fields 2
  return bytes

/-- Two transactions, one with an empty `raw_data` and one with an empty signature, their root, and other fields. -/
def smallBlock (others : Bytes) : Bytes :=
  [0x0a, 2, 0x0a, 0, 0x0a, 2, 0x12, 0, 0x12, 36, 0x0a, 34, 0x12, 32] ++ replicate 32 0x80 ++ others

/-- One transaction with one empty field, no root, and a group with nothing in it. -/
def groupBlock (tag : UInt8) : Bytes := [0x0a, 2, tag, 0, 0x12, 2, 0x0a, 0, 0x7b, 0x7c]

def withRoot (root : Bytes) (transactions : List Bytes) : Block Bytes where
  transactions := transactions
  blockHeader := some ⟨some ⟨0, root, [], 0, 0, [], 0, []⟩, []⟩

theorem noGroup_of_decode {bytes : Bytes} (fields : List Field)
    (h : decode bytes = some fields) (hg : GroupFree fields) : NoGroup bytes := by
  intro fields' h'
  rw [h] at h'
  cases h'
  exact hg

theorem injOn_of_all {f : Bytes → Hash256} {l l' : List Bytes}
    (h : ∀ x ∈ l ++ l', ∀ y ∈ l ++ l', f x = f y → x = y) : Set.InjOn f {x | x ∈ l ∨ x ∈ l'} :=
  fun x hx y hy => h x (mem_append.2 hx) y (mem_append.2 hy)

theorem verifyTxTrieRootRaw_commits_small :
    RootCommits sumHash (smallBlock []) (withRoot (replicate 32 0x80) [[0x0a, 0], [0x12, 0]]) ∧
      wireTransactions (smallBlock []) = wireTransactions (smallBlock [0x78, 0]) := by
  have hd : decodeBlock decodeSmall (smallBlock []) =
      some (withRoot (replicate 32 0x80) [[0x0a, 0], [0x12, 0]]) := by decide +kernel
  have hd' : decodeBlock decodeSmall (smallBlock [0x78, 0]) =
      some (withRoot (replicate 32 0x80) [[0x0a, 0], [0x12, 0]]) := by decide +kernel
  have hg : NoGroup (smallBlock []) := noGroup_of_decode
    [⟨1, .len [0x0a, 0]⟩, ⟨1, .len [0x12, 0]⟩, ⟨2, .len ([0x0a, 34, 0x12, 32] ++ replicate 32 0x80)⟩]
    (by decide +kernel) (by decide)
  have hg' : NoGroup (smallBlock [0x78, 0]) := noGroup_of_decode
    [⟨1, .len [0x0a, 0]⟩, ⟨1, .len [0x12, 0]⟩, ⟨2, .len ([0x0a, 34, 0x12, 32] ++ replicate 32 0x80)⟩,
      ⟨15, .varint 0⟩] (by decide +kernel) (by decide)
  obtain ⟨h₁, h₂⟩ := verifyTxTrieRootRaw_commits sumHash decodeSmall
  refine ⟨(h₁ _ _ hd).2 (Or.inl hg) (by decide +kernel), ?_⟩
  exact h₂ _ _ _ _ hd hd' (Or.inl hg) (Or.inl hg') (by decide +kernel) (by decide +kernel)
    (injOn_of_all (by decide +kernel)) rfl rfl (by decide)

/-- Two blocks that pass with no root and have different transactions. -/
theorem verifyTxTrieRootRaw_group :
    decodeBlock decodeSmall (groupBlock 0x0a) = some (withRoot [] [[0x0a, 0]]) ∧
    decodeBlock decodeSmall (groupBlock 0x12) = some (withRoot [] [[0x12, 0]]) ∧
    verifyTxTrieRootRaw sumHash (withRoot [] [[0x0a, 0]]) (groupBlock 0x0a) = .ok () ∧
    verifyTxTrieRootRaw sumHash (withRoot [] [[0x12, 0]]) (groupBlock 0x12) = .ok () ∧
    ¬ RootCommits sumHash (groupBlock 0x0a) (withRoot [] [[0x0a, 0]]) ∧
    Set.InjOn sumHash {x | x ∈ rootInputs sumHash (groupBlock 0x0a) ∨ x ∈ rootInputs sumHash (groupBlock 0x12)} ∧
    wireTransactions (groupBlock 0x0a) ≠ wireTransactions (groupBlock 0x12) := by
  refine ⟨by decide +kernel, by decide +kernel, rfl, rfl, ?_, injOn_of_all (by decide +kernel), by decide +kernel⟩
  unfold RootCommits
  decide +kernel

end TronGoblin
