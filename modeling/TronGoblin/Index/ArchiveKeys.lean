import TronGoblin.Chainbase.Backend
import TronGoblin.Lib.LexOrder

/-!
# Keys and values of the archive

The historical-state archive keeps one row per key and height at which the key was written
(`tron-index/src/archive.rs`, `tron-index/src/keys.rs`):

* `rowKey`: tag, store, escaped key, and the height counted down from the greatest 64-bit word, so that
  the rows of one key stand together, newest first.  `escapeKey_diverge`: no escaped key begins another.
* `rowKey_inj`, `lt_rowKey_iff`, `eq_of_between`: rows are told apart, ordered by height, and never
  between two rows of another key.
* `splitRowKey` takes a row key apart; `encValue` and `decValue` write and read a version.
* `encodeKeyList`, `decodeKeyList`: the keys written by one block.  The length of a key is written in
  two bytes: `decodeKeyList_encodeKeyList` reads back the lists whose keys are short enough.
-/

namespace TronGoblin

open List BigEndian LexOrder

namespace Archive

open LexOrder (Diverge)

/-- A key of one of the stores. -/
structure StoreKey where
  store : StoreId
  key : Bytes
  deriving DecidableEq

def tagMeta : UInt8 := 0x00

def tagRow : UInt8 := 0x01

/-! ## Row keys -/

def escapeByte (b : UInt8) : Bytes := if b = 0 then [0x00, 0xFF] else [b]

/-- `escape_key`: a zero byte is followed by `0xFF`, and two zero bytes end the key. -/
def escapeKey (key : Bytes) : Bytes := key.flatMap escapeByte ++ [0x00, 0x00]

def maxU64 : Nat := 0xFFFFFFFFFFFFFFFF

/-- Inverted big-endian height: byte order is descending numeric order. -/
def heightDesc (height : Nat) : Bytes := encode 8 (maxU64 - height)

def heightFromDesc (desc : Bytes) : Nat := maxU64 - decode desc

/-- What every version of one key shares. -/
def groupKey (k : StoreKey) : Bytes := tagRow :: k.store.toU8 :: escapeKey k.key

def rowKey (k : StoreKey) (height : Nat) : Bytes := groupKey k ++ heightDesc height

/-- `split_row_key`: the group and the height of a row key. -/
def splitRowKey (key : Bytes) : Option (Bytes × Nat) :=
  if key.length < 2 + 8 ∨ key.head? ≠ some tagRow then none
  else some (key.take (key.length - 8), heightFromDesc (key.drop (key.length - 8)))

/-- **Escaped keys are prefix-free:** two of them differ at a place that both have. -/
theorem escapeKey_diverge {s t : Bytes} (h : s ≠ t) : Diverge (escapeKey s) (escapeKey t) := by
  induction s generalizing t with
  | nil =>
    cases t with
    | nil => exact absurd rfl h
    | cons b t =>
      rw [escapeKey, escapeKey, flatMap_nil, flatMap_cons, escapeByte]
      split
      · exact (diverge_of_head (by decide) _ _).cons _
      · next hb => exact diverge_of_head (Ne.symm hb) _ _
  | cons a s ih =>
    cases t with
    | nil =>
      rw [escapeKey, escapeKey, flatMap_nil, flatMap_cons, escapeByte]
      split
      · exact (diverge_of_head (by decide) _ _).cons _
      · next ha => exact diverge_of_head ha _ _
    | cons b t =>
      have hcons : ∀ (c : UInt8) (u : Bytes), escapeKey (c :: u) = escapeByte c ++ escapeKey u :=
        fun c u => append_assoc _ _ _
      rw [hcons, hcons]
      by_cases hab : a = b
      · subst hab
        have hst : Diverge (escapeKey s) (escapeKey t) := ih fun hst => h (by rw [hst])
        rw [escapeByte]
        split
        · exact (hst.cons _).cons _
        · exact hst.cons _
      · rw [escapeByte, escapeByte]
        split <;> split
        · next ha hb => exact absurd (ha.trans hb.symm) hab
        · next ha hb => exact diverge_of_head (Ne.symm hb) _ _
        · next ha hb => exact diverge_of_head ha _ _
        · exact diverge_of_head hab _ _

variable {k l : StoreKey}

theorem groupKey_diverge (h : k ≠ l) : Diverge (groupKey k) (groupKey l) := by
  refine Diverge.cons ?_ _
  by_cases hstore : k.store = l.store
  · have hkey : k.key ≠ l.key := fun hkey => h (by cases k; cases l; cases hstore; cases hkey; rfl)
    rw [hstore]
    exact (escapeKey_diverge hkey).cons _
  · exact diverge_of_head (fun heq => hstore (StoreId.toU8_injective heq)) _ _

theorem groupKey_injective : Function.Injective groupKey := by
  intro k l h
  by_contra hne
  exact (groupKey_diverge hne).ne h

theorem length_heightDesc (height : Nat) : (heightDesc height).length = 8 := length_encode _ _

theorem sub_lt_word (height : Nat) : maxU64 - height < 256 ^ 8 :=
  Nat.lt_of_le_of_lt (Nat.sub_le _ _) (by decide)

theorem heightFromDesc_heightDesc {height : Nat} (h : height ≤ maxU64) :
    heightFromDesc (heightDesc height) = height := by
  rw [heightFromDesc, heightDesc, decode_encode, Nat.mod_eq_of_lt (sub_lt_word height)]
  omega

theorem length_rowKey (k : StoreKey) (height : Nat) : (rowKey k height).length = (groupKey k).length + 8 := by
  rw [rowKey, length_append, length_heightDesc]

theorem take_rowKey (k : StoreKey) (height : Nat) :
    (rowKey k height).take ((rowKey k height).length - 8) = groupKey k := by
  rw [length_rowKey, Nat.add_sub_cancel, rowKey, take_left]

theorem drop_rowKey (k : StoreKey) (height : Nat) :
    (rowKey k height).drop ((rowKey k height).length - 8) = heightDesc height := by
  rw [length_rowKey, Nat.add_sub_cancel, rowKey, drop_left]

@[simp] theorem head?_rowKey (k : StoreKey) (height : Nat) : (rowKey k height).head? = some tagRow := rfl

theorem splitRowKey_rowKey (k : StoreKey) {height : Nat} (h : height ≤ maxU64) :
    splitRowKey (rowKey k height) = some (groupKey k, height) := by
  have hlen : 2 ≤ (groupKey k).length := by simp [groupKey]
  rw [splitRowKey, if_neg (by rw [length_rowKey, head?_rowKey]; simp; omega), take_rowKey, drop_rowKey,
    heightFromDesc_heightDesc h]

theorem compare_rowKey_of_ne (h : k ≠ l) (g g' : Nat) :
    compare (rowKey k g) (rowKey l g') = compare (groupKey k) (groupKey l) :=
  (groupKey_diverge h).compare_append _ _

variable {g g' : Nat}

theorem compare_rowKey (k : StoreKey) (hg : g ≤ maxU64) (hg' : g' ≤ maxU64) :
    compare (rowKey k g) (rowKey k g') = compare g' g := by
  rw [rowKey, rowKey, compare_append, heightDesc, heightDesc, compare_encode 8 (sub_lt_word g) (sub_lt_word g')]
  rcases Nat.lt_trichotomy g' g with h | h | h
  · have hlt : maxU64 - g < maxU64 - g' := by omega
    rw [Nat.compare_eq_lt.2 h, Nat.compare_eq_lt.2 hlt]
  · rw [h, Nat.compare_eq_eq.2 rfl, Nat.compare_eq_eq.2 rfl]
  · have hlt : maxU64 - g' < maxU64 - g := by omega
    rw [Nat.compare_eq_gt.2 h, Nat.compare_eq_gt.2 hlt]

theorem lt_rowKey_iff (k : StoreKey) (hg : g ≤ maxU64) (hg' : g' ≤ maxU64) :
    compare (rowKey k g) (rowKey k g') = .lt ↔ g' < g := by
  rw [compare_rowKey k hg hg', Nat.compare_eq_lt]

theorem le_rowKey_iff (k : StoreKey) (hg : g ≤ maxU64) (hg' : g' ≤ maxU64) :
    (compare (rowKey k g) (rowKey k g')).isLE ↔ g' ≤ g := by
  rw [compare_rowKey k hg hg', Nat.isLE_compare]

theorem eq_of_between {g g' r : Nat} (hlow : (compare (rowKey k g) (rowKey l r)).isLE)
    (hhigh : (compare (rowKey l r) (rowKey k g')).isLE) : l = k := by
  by_contra hne
  rw [compare_rowKey_of_ne (Ne.symm hne)] at hlow
  rw [compare_rowKey_of_ne hne] at hhigh
  cases hcmp : compare (groupKey k) (groupKey l) with
  | lt =>
    rw [Std.OrientedCmp.gt_of_lt hcmp] at hhigh
    cases hhigh
  | eq => exact hne (groupKey_injective (Std.LawfulEqOrd.eq_of_compare hcmp)).symm
  | gt =>
    rw [hcmp] at hlow
    cases hlow

theorem rowKey_inj (h : rowKey k g = rowKey l g') (hg' : g' < maxU64) : k = l ∧ g = g' := by
  obtain ⟨hgroup, hdesc⟩ := append_inj' h (by rw [length_heightDesc, length_heightDesc])
  have hsub : maxU64 - g = maxU64 - g' := by
    have hdec := congrArg decode hdesc
    rwa [heightDesc, heightDesc, decode_encode, decode_encode,
      Nat.mod_eq_of_lt (sub_lt_word g), Nat.mod_eq_of_lt (sub_lt_word g')] at hdec
  exact ⟨groupKey_injective hgroup, by omega⟩

/-! ## Versions -/

/-- Outcome of a historical point read. -/
inductive AtHeight
  | notCovered
  | deleted
  | value (bytes : Bytes)
  deriving DecidableEq

def encValue : Option Bytes → Bytes
  | none => [0x00]
  | some bytes => 0x01 :: bytes

/-- `dec_value`: a row with neither tag is read as a deleted key. -/
def decValue : Bytes → AtHeight
  | 0x00 :: _ => .deleted
  | 0x01 :: bytes => .value bytes
  | _ => .deleted

def decoded (bytes : Bytes) : Option Bytes :=
  match decValue bytes with
  | .value v => some v
  | _ => none

@[simp] theorem decoded_encValue (v : Option Bytes) : decoded (encValue v) = v := by
  cases v <;> rfl

/-! ## Meta keys -/

def ascii (name : String) : Bytes := name.toList.map fun c => UInt8.ofNat c.toNat

variable (name : Bytes)

def metaKey : Bytes := tagMeta :: name

def metaFormat : Bytes := metaKey (ascii "format_version")

def metaBase : Bytes := metaKey (ascii "base_height")

def metaHead : Bytes := metaKey (ascii "head")

/-- The marker of a reset that is under way. -/
def metaWiping : Bytes := metaKey (ascii "wiping")

/-- Where the keys written at a height are kept. -/
def metaKeysAt (height : Nat) : Bytes := metaKey (ascii "keys_at/" ++ encode 8 height)

@[simp] theorem head?_metaKey : (metaKey name).head? = some tagMeta := rfl

theorem metaKey_ne_rowKey (k : StoreKey) (g : Nat) : metaKey name ≠ rowKey k g := by
  intro h
  have hhead := congrArg List.head? h
  rw [head?_metaKey, head?_rowKey] at hhead
  exact absurd hhead (by decide)

theorem metaKeysAt_inj (hg : g ≤ maxU64) (hg' : g' ≤ maxU64) (h : metaKeysAt g = metaKeysAt g') : g = g' := by
  have henc := (append_cancel_left_eq _ _ _).mp (List.cons.inj h).2
  have hdec := congrArg decode henc
  have hlt : maxU64 < 256 ^ 8 := by decide
  rwa [decode_encode, decode_encode, Nat.mod_eq_of_lt (by omega), Nat.mod_eq_of_lt (by omega)] at hdec

/-- The other meta keys do not begin as those of the key lists. -/
theorem metaKeysAt_ne (g : Nat) {name : Bytes} (h : (ascii "keys_at/").isPrefixOf name = false) :
    metaKeysAt g ≠ metaKey name := by
  intro heq
  have hname := (List.cons.inj heq).2
  rw [← hname, isPrefixOf_iff_prefix.2 (prefix_append _ _)] at h
  cases h

/-! ## The keys written by a block -/

/-- `encode_key_list`: their number in four bytes, and each after its length in two bytes. -/
def encodeKeyList (keys : List Bytes) : Bytes :=
  encode 4 keys.length ++ keys.flatMap fun k => encode 2 k.length ++ k

def decodeKeys : Nat → Bytes → Option (List Bytes)
  | 0, _ => some []
  | count + 1, bytes =>
    if bytes.length < 2 then none
    else
      let len := decode (bytes.take 2)
      let rest := bytes.drop 2
      if rest.length < len then none
      else (decodeKeys count (rest.drop len)).map (rest.take len :: ·)

/-- `decode_key_list`: `none` on truncation. -/
def decodeKeyList (bytes : Bytes) : Option (List Bytes) :=
  if bytes.length < 4 then none
  else decodeKeys (decode (bytes.take 4)) (bytes.drop 4)

theorem decodeKeys_cons (count : Nat) {key : Bytes} (h : key.length < 2 ^ 16) (rest : Bytes) :
    decodeKeys (count + 1) (encode 2 key.length ++ key ++ rest) = (decodeKeys count rest).map (key :: ·) := by
  have hlen : (encode 2 key.length).length = 2 := length_encode _ _
  have htake : (encode 2 key.length ++ key ++ rest).take 2 = encode 2 key.length := by
    rw [append_assoc, take_left' hlen]
  have hdrop : (encode 2 key.length ++ key ++ rest).drop 2 = key ++ rest := by
    rw [append_assoc, drop_left' hlen]
  have hdec : decode (encode 2 key.length) = key.length := by
    rw [decode_encode]
    exact Nat.mod_eq_of_lt h
  rw [decodeKeys, if_neg (by rw [length_append, length_append, hlen]; omega)]
  simp only [htake, hdrop, hdec]
  rw [if_neg (by rw [length_append]; omega), take_left, drop_left]

theorem decodeKeyList_encodeKeyList {keys : List Bytes} (hcount : keys.length < 2 ^ 32)
    (hshort : ∀ key ∈ keys, key.length < 2 ^ 16) : decodeKeyList (encodeKeyList keys) = some keys := by
  have hlen : (encode 4 keys.length).length = 4 := length_encode _ _
  have hdec : decode (encode 4 keys.length) = keys.length := by
    rw [decode_encode]
    exact Nat.mod_eq_of_lt hcount
  have hkeys : ∀ keys : List Bytes, (∀ key ∈ keys, key.length < 2 ^ 16) →
      decodeKeys keys.length (keys.flatMap fun k => encode 2 k.length ++ k) = some keys := by
    intro keys hshort
    induction keys with
    | nil => rfl
    | cons key keys ih =>
      rw [flatMap_cons, length_cons, decodeKeys_cons _ (hshort key mem_cons_self),
        ih fun k hk => hshort k (mem_cons_of_mem _ hk), Option.map_some]
  rw [decodeKeyList, encodeKeyList, if_neg (by rw [length_append, hlen]; omega),
    take_left' hlen, drop_left' hlen, hdec, hkeys keys hshort]

end Archive

end TronGoblin
