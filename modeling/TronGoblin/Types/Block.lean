import Mathlib.Tactic.NormNum
import TronGoblin.Chainbase.Backend
import TronGoblin.Lib.BigEndian
import TronGoblin.Lib.Protobuf

/-!
# Blocks on the wire

The messages `Block`, `BlockHeader` and `BlockHeader.raw` of `Tron.proto`, as a protobuf decoder reads
them.  A field that is repeated in the encoding keeps its last value, or is merged if it is a message; a
known field of another wire type is an error.  Transactions are decoded by a parameter.

* `decodeBlock`: the decoder.
* `wireTransactions`: the bytes that each transaction of a block came in.
* `encodeBlock`: the encoder, which leaves out fields of the default value; `decodeBlock_encodeBlock`.
-/

namespace TronGoblin.Proto

open List Option Protobuf
open Protobuf (Field Payload)

variable {T : Type}

/-- `BlockHeader.raw`. -/
structure HeaderRaw where
  timestamp : Int
  txTrieRoot : Bytes
  parentHash : Bytes
  number : Int
  witnessId : Int
  witnessAddress : Bytes
  version : Int
  accountStateRoot : Bytes
  deriving DecidableEq

open HeaderRaw

structure BlockHeader where
  rawData : Option HeaderRaw
  witnessSignature : Bytes
  deriving DecidableEq

structure Block (T : Type) where
  transactions : List T
  blockHeader : Option BlockHeader
  deriving DecidableEq

/-- `block_header.raw_data`, if both are there. -/
def Block.raw (block : Block T) : Option HeaderRaw := block.blockHeader.bind (·.rawData)

/-! ## Fields of a message -/

/-- The entries of a length-delimited field. -/
def payloads (fields : List Field) (num : Nat) : Option (List Bytes) :=
  (fields.filter (·.num = num)).mapM fun f =>
    match f.payload with
    | .len bytes => some bytes
    | _ => none

def bytesField (fields : List Field) (num : Nat) : Option Bytes :=
  (payloads fields num).map fun entries => entries.getLast?.getD []

def varints (fields : List Field) (num : Nat) : Option (List Nat) :=
  (fields.filter (·.num = num)).mapM fun f =>
    match f.payload with
    | .varint value => some value
    | _ => none

/-- An integer field of `2 ^ w` values. -/
def intField (w : Nat) (fields : List Field) (num : Nat) : Option Int :=
  (varints fields num).map fun values => Int.bmod (values.getLast?.getD 0 : Nat) (2 ^ w)

/-- The fields of a message inside, those of all its entries; `some none` if there is no entry. -/
def messageField (fields : List Field) (num : Nat) : Option (Option (List Field)) := do
  let entries ← payloads fields num
  if entries.isEmpty then
    return none
  let inner ← entries.mapM decode
  return some inner.flatten

/-! ## The messages -/

def decodeHeaderRaw (fields : List Field) : Option HeaderRaw := do
  return { timestamp := ← intField 64 fields 1
           txTrieRoot := ← bytesField fields 2
           parentHash := ← bytesField fields 3
           number := ← intField 64 fields 7
           witnessId := ← intField 64 fields 8
           witnessAddress := ← bytesField fields 9
           version := ← intField 32 fields 10
           accountStateRoot := ← bytesField fields 11 }

def decodeBlockHeader (fields : List Field) : Option BlockHeader := do
  return { rawData := ← (← messageField fields 1).mapM decodeHeaderRaw
           witnessSignature := ← bytesField fields 2 }

/-- `Block::decode`. -/
def decodeBlock (decodeTransaction : Bytes → Option T) (bytes : Bytes) : Option (Block T) := do
  let fields ← decode bytes
  let transactions ← (← payloads fields 1).mapM decodeTransaction
  let header ← (← messageField fields 2).mapM decodeBlockHeader
  return { transactions := transactions, blockHeader := header }

def wireTransactions (bytes : Bytes) : List Bytes :=
  ((decode bytes).bind (payloads · 1)).getD []

theorem payloads_cons_eq_some {f : Field} {fields : List Field} {num : Nat} {entries : List Bytes}
    (h : payloads (f :: fields) num = some entries) :
    (f.num ≠ num ∧ payloads fields num = some entries) ∨
      ∃ bytes rest, f.num = num ∧ f.payload = .len bytes ∧ payloads fields num = some rest ∧
        entries = bytes :: rest := by
  unfold payloads at h ⊢
  by_cases hnum : f.num = num
  · right
    rw [filter_cons_of_pos (by simpa using hnum), mapM_cons] at h
    obtain ⟨bytes, hb, h⟩ := bind_eq_some_iff.1 h
    obtain ⟨rest, hr, h⟩ := bind_eq_some_iff.1 h
    cases h
    split at hb
    · cases hb
      exact ⟨bytes, rest, hnum, ‹_›, hr, rfl⟩
    · cases hb
  · left
    rw [filter_cons_of_neg (by simpa using hnum)] at h
    exact ⟨hnum, h⟩

theorem length_mapM {α β : Type} {f : α → Option β} {l : List α} {l' : List β}
    (h : l.mapM f = some l') : l'.length = l.length := by
  induction l generalizing l' with
  | nil =>
    cases h
    rfl
  | cons a l ih =>
    rw [mapM_cons] at h
    obtain ⟨b, -, h⟩ := bind_eq_some_iff.1 h
    obtain ⟨rest, hrest, h⟩ := bind_eq_some_iff.1 h
    cases h
    rw [length_cons, length_cons, ih hrest]

variable {block : Block T}

theorem decodeBlock_eq_some {decodeTransaction : Bytes → Option T} {bytes : Bytes}
    (h : decodeBlock decodeTransaction bytes = some block) :
    ∃ fields, decode bytes = some fields ∧ payloads fields 1 = some (wireTransactions bytes) ∧
      block.transactions.length = (wireTransactions bytes).length := by
  simp only [decodeBlock, bind, pure, bind_eq_some_iff, some.injEq] at h
  obtain ⟨fields, hf, spans, hp, txs, ht, -, -, -, -, rfl⟩ := h
  have hw : wireTransactions bytes = spans := by
    rw [wireTransactions, hf, bind_some, hp, getD_some]
  exact ⟨fields, hf, hw ▸ hp, hw ▸ length_mapM ht⟩

/-! ## Encoding -/

def bytesFields (num : Nat) (value : Bytes) : List Field :=
  if value = [] then [] else [⟨num, .len value⟩]

def intFields (num : Nat) (value : Int) : List Field :=
  if value = 0 then [] else [⟨num, .varint (value % 2 ^ 64).toNat⟩]

def HeaderRaw.fields (raw : HeaderRaw) : List Field :=
  intFields 1 raw.timestamp ++ bytesFields 2 raw.txTrieRoot ++ bytesFields 3 raw.parentHash ++
    intFields 7 raw.number ++ intFields 8 raw.witnessId ++ bytesFields 9 raw.witnessAddress ++
    intFields 10 raw.version ++ bytesFields 11 raw.accountStateRoot

/-- `encode_to_vec`. -/
def HeaderRaw.encode (raw : HeaderRaw) : Bytes := Protobuf.encode raw.fields

def BlockHeader.fields (header : BlockHeader) : List Field :=
  (header.rawData.map fun raw => ⟨1, .len raw.encode⟩).toList ++ bytesFields 2 header.witnessSignature

variable (encodeTransaction : T → Bytes)

def Block.fields (block : Block T) : List Field :=
  block.transactions.map (fun tx => ⟨1, .len (encodeTransaction tx)⟩) ++
    (block.blockHeader.map fun header => ⟨2, .len (encode header.fields)⟩).toList

def encodeBlock (block : Block T) : Bytes :=
  encode (block.fields encodeTransaction)

/-- The integers fit their types. -/
structure HeaderRaw.InRange (raw : HeaderRaw) : Prop where
  timestamp : -2 ^ 63 ≤ raw.timestamp ∧ raw.timestamp < 2 ^ 63
  number : -2 ^ 63 ≤ raw.number ∧ raw.number < 2 ^ 63
  witnessId : -2 ^ 63 ≤ raw.witnessId ∧ raw.witnessId < 2 ^ 63
  version : -2 ^ 31 ≤ raw.version ∧ raw.version < 2 ^ 31

theorem filter_bytesFields (m n : Nat) (v : Bytes) :
    (bytesFields m v).filter (fun f => f.num = n) = if m = n then bytesFields m v else [] := by
  unfold bytesFields
  split <;> split <;> simp_all

theorem filter_intFields (m n : Nat) (v : Int) :
    (intFields m v).filter (fun f => f.num = n) = if m = n then intFields m v else [] := by
  unfold intFields
  split <;> split <;> simp_all

theorem bytesField_of_filter {fields : List Field} {n : Nat} {v : Bytes}
    (h : fields.filter (fun f => f.num = n) = bytesFields n v) : bytesField fields n = some v := by
  rw [bytesField, payloads, h, bytesFields]
  split <;> simp_all

theorem bmod_of_mod {w : Nat} {v : Int} (hw : w = 32 ∨ w = 64) (hlo : -2 ^ (w - 1) ≤ v)
    (hhi : v < 2 ^ (w - 1)) : Int.bmod ((v % 2 ^ 64).toNat : Int) (2 ^ w) = v := by
  unfold Int.bmod
  rcases hw with rfl | rfl <;> norm_num at hlo hhi ⊢ <;> omega

theorem intField_of_filter {fields : List Field} {w n : Nat} {v : Int} (hw : w = 32 ∨ w = 64)
    (h : fields.filter (fun f => f.num = n) = intFields n v)
    (hlo : -2 ^ (w - 1) ≤ v) (hhi : v < 2 ^ (w - 1)) : intField w fields n = some v := by
  rw [intField, varints, h, intFields]
  split
  · rename_i hzero
    simp [hzero]
  · have hb := bmod_of_mod hw hlo hhi
    simpa using hb

theorem decodeHeaderRaw_fields {raw : HeaderRaw} (h : raw.InRange) : decodeHeaderRaw raw.fields = some raw := by
  have hts : intField 64 raw.fields 1 = some raw.timestamp :=
    intField_of_filter (Or.inr rfl)
      (by simp [fields, filter_intFields, filter_bytesFields])
      h.timestamp.1 h.timestamp.2
  have hroot : bytesField raw.fields 2 = some raw.txTrieRoot :=
    bytesField_of_filter (by simp [fields, filter_intFields, filter_bytesFields])
  have hparent : bytesField raw.fields 3 = some raw.parentHash :=
    bytesField_of_filter (by simp [fields, filter_intFields, filter_bytesFields])
  have hnum : intField 64 raw.fields 7 = some raw.number :=
    intField_of_filter (Or.inr rfl)
      (by simp [fields, filter_intFields, filter_bytesFields])
      h.number.1 h.number.2
  have hid : intField 64 raw.fields 8 = some raw.witnessId :=
    intField_of_filter (Or.inr rfl)
      (by simp [fields, filter_intFields, filter_bytesFields])
      h.witnessId.1 h.witnessId.2
  have haddr : bytesField raw.fields 9 = some raw.witnessAddress :=
    bytesField_of_filter (by simp [fields, filter_intFields, filter_bytesFields])
  have hver : intField 32 raw.fields 10 = some raw.version :=
    intField_of_filter (Or.inl rfl)
      (by simp [fields, filter_intFields, filter_bytesFields])
      h.version.1 h.version.2
  have hstate : bytesField raw.fields 11 = some raw.accountStateRoot :=
    bytesField_of_filter (by simp [fields, filter_intFields, filter_bytesFields])
  simp [decodeHeaderRaw, hts, hroot, hparent, hnum, hid, haddr, hver, hstate]

/-- A message that is there once, or not at all. -/
theorem messageField_of_filter {fields : List Field} {n : Nat} {inner : Option (List Field)}
    (h : fields.filter (fun f => f.num = n) = (inner.map fun fs => ⟨n, .len (encode fs)⟩).toList)
    (hfits : ∀ fs, inner = some fs → ∀ f ∈ fs, f.Fits) : messageField fields n = some inner := by
  rw [messageField, payloads, h]
  cases inner with
  | none => rfl
  | some fs => simp [decode_encode (hfits fs rfl)]

/-- A header whose numbers and lengths can be written. -/
structure BlockHeader.Fits (header : BlockHeader) : Prop where
  fields : ∀ f ∈ header.fields, f.Fits
  rawFields : ∀ raw, header.rawData = some raw → ∀ f ∈ raw.fields, f.Fits
  inRange : ∀ raw, header.rawData = some raw → raw.InRange

theorem decodeBlockHeader_fields {header : BlockHeader} (h : header.Fits) :
    decodeBlockHeader header.fields = some header := by
  have hsig : bytesField header.fields 2 = some header.witnessSignature := by
    apply bytesField_of_filter
    rw [BlockHeader.fields, filter_append, filter_bytesFields]
    cases header.rawData <;> simp
  have hraw : messageField header.fields 1 = some (header.rawData.map HeaderRaw.fields) := by
    apply messageField_of_filter
    · rw [BlockHeader.fields, filter_append, filter_bytesFields]
      cases header.rawData <;> simp [HeaderRaw.encode]
    · intro fs hfs
      obtain ⟨raw, hr, rfl⟩ := map_eq_some_iff.1 hfs
      exact h.rawFields raw hr
  rw [decodeBlockHeader, hsig, hraw]
  obtain ⟨rawData, sig⟩ := header
  cases rawData with
  | none => rfl
  | some raw => simp [decodeHeaderRaw_fields (h.inRange raw rfl)]

theorem mapM_map_some {α β : Type} {f : α → β} {g : β → Option α} {l : List α}
    (h : ∀ a ∈ l, g (f a) = some a) : (l.map f).mapM g = some l := by
  induction l with
  | nil => rfl
  | cons a l ih =>
    have hl := ih fun b hb => h b (by simp [hb])
    simp [h a (by simp), hl]

theorem payloads_transactions (block : Block T) :
    payloads (block.fields encodeTransaction) 1 = some (block.transactions.map encodeTransaction) := by
  have hfilter : (block.fields encodeTransaction).filter (fun f => f.num = 1) =
      block.transactions.map fun tx => ⟨1, .len (encodeTransaction tx)⟩ := by
    rw [Block.fields, filter_append]
    cases block.blockHeader <;> simp
  rw [payloads, hfilter]
  generalize block.transactions = txs
  induction txs with
  | nil => rfl
  | cons tx txs ih => simp [ih]

theorem decodeBlock_encodeBlock {encodeTransaction : T → Bytes} {decodeTransaction : Bytes → Option T}
    (hfits : ∀ f ∈ block.fields encodeTransaction, f.Fits)
    (hheader : ∀ header, block.blockHeader = some header → header.Fits)
    (hcodec : ∀ tx ∈ block.transactions, decodeTransaction (encodeTransaction tx) = some tx) :
    decodeBlock decodeTransaction (encodeBlock encodeTransaction block) = some block := by
  have hmsg : messageField (block.fields encodeTransaction) 2 = some (block.blockHeader.map BlockHeader.fields) := by
    apply messageField_of_filter
    · rw [Block.fields, filter_append]
      cases block.blockHeader <;> simp
    · intro fs hfs
      obtain ⟨header, hh, rfl⟩ := map_eq_some_iff.1 hfs
      exact (hheader header hh).fields
  rw [decodeBlock, encodeBlock, decode_encode hfits]
  obtain ⟨txs, header⟩ := block
  cases header with
  | none => simp [payloads_transactions, mapM_map_some hcodec, hmsg]
  | some header =>
    simp [payloads_transactions, mapM_map_some hcodec, hmsg, decodeBlockHeader_fields (hheader header rfl)]

theorem wireTransactions_encodeBlock {encodeTransaction : T → Bytes}
    (hfits : ∀ f ∈ block.fields encodeTransaction, f.Fits) :
    wireTransactions (encodeBlock encodeTransaction block) = block.transactions.map encodeTransaction := by
  rw [wireTransactions, encodeBlock, decode_encode hfits, bind_some, payloads_transactions, getD_some]

end TronGoblin.Proto
