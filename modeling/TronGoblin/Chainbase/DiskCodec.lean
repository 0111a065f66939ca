import TronGoblin.Chainbase.Checkpoint
import TronGoblin.Lib.BigEndian
import TronGoblin.Lib.Cursor

/-!
# Manifests and undo records as bytes

How a checkpoint manifest (`encode_manifest`, `decode_manifest` of `checkpoint_v2.rs`) and the undo record of a block
(`BlockUndoRecord` of `stores/block_undo_store.rs`) are written and read.

* `reads_entry`, `reads_undoEntry`: an entry is read back wherever it stands, and not from a part of it.
* `manifest_codec`, `undo_codec`: so is what has been written as a whole, and no torn write is read.
-/

namespace TronGoblin

open BigEndian Cursor List

/-! ## Checkpoint manifests -/

def toLeBytes (k n : Nat) : Bytes := (BigEndian.encode k n).reverse

def fromLeBytes (bs : Bytes) : Nat := BigEndian.decode bs.reverse

/-- `b"CKV2"`. -/
def MAGIC : Bytes := [0x43, 0x4B, 0x56, 0x32]

namespace CheckpointEntry

/-- `db_name.as_bytes()`. -/
def nameBytes (e : CheckpointEntry) : Bytes := e.dbName.toUTF8.data.toList

def encode (e : CheckpointEntry) : Bytes :=
  putSized (toLeBytes 2) e.nameBytes ++ putSized (toLeBytes 4) e.key ++
    match e.value with
    | some v => 1 :: putSized (toLeBytes 4) v
    | none => [0]

/-- The lengths fit in the bytes that they are written in. -/
structure Fits (e : CheckpointEntry) : Prop where
  name : e.nameBytes.length < 2 ^ 16
  key : e.key.length < 2 ^ 32
  value : ∀ v ∈ e.value, v.length < 2 ^ 32

end CheckpointEntry

def encodeManifest (entries : List CheckpointEntry) : Bytes :=
  MAGIC ++ toLeBytes 4 entries.length ++ entries.flatMap (·.encode)

def shortRead (c n rest : Nat) : CheckpointError := .decode s!"short read at {c} (want {n}, have {rest})"

def fromUtf8 (bs : Bytes) : Option String := String.fromUTF8? ⟨bs.toArray⟩

section

variable (utf8Error : Bytes → String)

/-- An entry; `utf8Error` is what the error of `from_utf8` says. -/
def readEntry : Reader CheckpointError CheckpointEntry := do
  let nameBytes ← sized shortRead fromLeBytes 2
  let name ← (fromUtf8 nameBytes).elim (throw (.decode ("db_name utf-8: " ++ utf8Error nameBytes))) pure
  let key ← sized shortRead fromLeBytes 4
  let flag ← take shortRead 1
  let value ← optional (sized shortRead fromLeBytes 4) (fun b => .decode s!"bad value_present tag {b}") (flag.headD 0)
  return ⟨name, key, value⟩

def readEntries : Reader CheckpointError (List CheckpointEntry) := do
  let magic ← take shortRead 4
  if magic = MAGIC then
    let count ← take shortRead 4
    many (readEntry utf8Error) (fromLeBytes count)
  else throw (.decode "bad magic")

def decodeManifest : Bytes → Except CheckpointError (List CheckpointEntry) := run (readEntries utf8Error)

end

theorem length_toLeBytes (k n : Nat) : (toLeBytes k n).length = k := by
  rw [toLeBytes, length_reverse, length_encode]

theorem fromLeBytes_toLeBytes {k n : Nat} (h : n < 256 ^ k) : fromLeBytes (toLeBytes k n) = n := by
  rw [fromLeBytes, toLeBytes, reverse_reverse, decode_encode, Nat.mod_eq_of_lt h]

theorem reads_sizedLe {k : Nat} {bs : Bytes} (h : bs.length < 256 ^ k) :
    Parses (sized shortRead fromLeBytes k) (putSized (toLeBytes k) bs) bs :=
  .sized (length_toLeBytes k _) (fromLeBytes_toLeBytes h)

theorem fromUtf8_nameBytes (e : CheckpointEntry) : fromUtf8 e.nameBytes = some e.dbName := by
  have hbytes : (⟨e.nameBytes.toArray⟩ : ByteArray) = e.dbName.toByteArray := rfl
  simp only [fromUtf8, hbytes, String.fromUTF8?, dif_pos e.dbName.isValidUTF8]
  rfl

variable {utf8Error : Bytes → String}

theorem reads_entry {e : CheckpointEntry} (h : e.Fits) : Parses (readEntry utf8Error) e.encode e := by
  rw [CheckpointEntry.encode, append_assoc]
  refine (reads_sizedLe (k := 2) h.name).bind ?_
  rw [fromUtf8_nameBytes, Option.elim_some, pure_bind]
  refine (reads_sizedLe (k := 4) h.key).bind ?_
  obtain ⟨name, key, value⟩ := e
  cases value with
  | none => exact (Parses.take (w := [0]) rfl).bind (Parses.optional_none.map _)
  | some v => exact (Parses.take (w := [1]) rfl).bind ((reads_sizedLe (k := 4) (h.value v rfl)).optional_some.map _)

/-- **The manifest codec.**  A manifest whose lengths fit is read back as it was, and a torn one is not read. -/
theorem manifest_codec (utf8Error : Bytes → String) {entries : List CheckpointEntry}
    (hcount : entries.length < 2 ^ 32) (h : ∀ e ∈ entries, e.Fits) :
    let bytes := encodeManifest entries
    decodeManifest utf8Error bytes = .ok entries ∧
      ∀ w, w <+: bytes → w ≠ bytes → ∃ e, decodeManifest utf8Error w = .error e := by
  have hreads : Parses (readEntries utf8Error) (encodeManifest entries) entries := by
    rw [encodeManifest, append_assoc]
    refine (Parses.take (w := MAGIC) rfl).bind ?_
    rw [if_pos rfl]
    refine (Parses.take (length_toLeBytes 4 _)).bind ?_
    rw [fromLeBytes_toLeBytes hcount]
    exact .many fun e he => reads_entry (h e he)
  exact hreads.run_eq

theorem manifest_codec_tombstone :
    let entries : List CheckpointEntry := [⟨"votes", [1], none⟩, ⟨"account", [2, 3], some [4]⟩]
    decodeManifest (fun _ => "") (encodeManifest entries) = .ok entries := by
  refine (manifest_codec _ (by decide) ?_).1
  simp only [mem_cons, not_mem_nil, or_false, forall_eq_or_imp, forall_eq]
  exact ⟨⟨by decide, by decide, by decide⟩, by decide, by decide, by decide⟩

/-! ## Undo records -/

inductive DecodeError
  | truncated
  | unknownStoreId (b : UInt8)
  | badHasFlag (b : UInt8)

def UndoEntry.encode (e : UndoEntry) : Bytes :=
  e.store.toU8 :: putSized (BigEndian.encode 4) e.key ++
    match e.before with
    | some v => 1 :: putSized (BigEndian.encode 4) v
    | none => [0]

/-- The lengths fit in the bytes that they are written in. -/
structure UndoEntry.Fits (e : UndoEntry) : Prop where
  key : e.key.length < 2 ^ 32
  before : ∀ v ∈ e.before, v.length < 2 ^ 32

namespace BlockUndoRecord

def encode (r : BlockUndoRecord) : Bytes := BigEndian.encode 4 r.length ++ r.flatMap (·.encode)

def truncated (_ _ _ : Nat) : DecodeError := .truncated

/-- An entry.  The length is checked for the store and the key's length, and then for the key and its flag. -/
def readEntry : Reader DecodeError UndoEntry := do
  let head ← take truncated (1 + 4)
  let store ← (StoreId.fromU8 (head.headD 0)).elim (throw (.unknownStoreId (head.headD 0))) pure
  let keyLen := BigEndian.decode (head.drop 1)
  let body ← take truncated (keyLen + 1)
  let before ← optional (sized truncated BigEndian.decode 4) .badHasFlag (body.getD keyLen 0)
  return ⟨store, body.take keyLen, before⟩

def readEntries : Reader DecodeError BlockUndoRecord := do
  let count ← take truncated 4
  many readEntry (BigEndian.decode count)

def decode : Bytes → Except DecodeError BlockUndoRecord := run readEntries

theorem decode_length {n : Nat} (h : n < 2 ^ 32) : BigEndian.decode (BigEndian.encode 4 n) = n := by
  rw [decode_encode]
  exact Nat.mod_eq_of_lt h

/-- The bytes of an entry as they are checked for. -/
theorem reads_flagged (store : StoreId) {key rest : Bytes} {before : Option Bytes} {flag : UInt8}
    (hkey : key.length < 2 ^ 32)
    (h : Parses (optional (sized truncated BigEndian.decode 4) .badHasFlag flag) rest before) :
    Parses readEntry ((store.toU8 :: BigEndian.encode 4 key.length) ++ ((key ++ [flag]) ++ rest))
      ⟨store, key, before⟩ := by
  refine (Parses.take (by rw [length_cons, length_encode])).bind ?_
  rw [headD_cons, StoreId.fromU8_toU8, Option.elim_some, pure_bind]
  simp only [drop_succ_cons, drop_zero, decode_length hkey]
  refine (Parses.take (by simp)).bind ?_
  have hflag : (key ++ [flag]).getD key.length 0 = flag := by simp
  rw [hflag, take_left]
  exact h.map _

theorem reads_undoEntry {e : UndoEntry} (h : e.Fits) : Parses readEntry e.encode e := by
  obtain ⟨store, key, before⟩ := e
  cases before with
  | none =>
    simpa [UndoEntry.encode, putSized] using reads_flagged store h.key Parses.optional_none
  | some v =>
    have hvalue : Parses (sized truncated BigEndian.decode 4) (putSized (BigEndian.encode 4) v) v :=
      .sized (length_encode 4 _) (decode_length (h.before v rfl))
    simpa [UndoEntry.encode, putSized] using reads_flagged store h.key hvalue.optional_some

/-- **The undo codec.**  A record whose lengths fit is read back as it was, and a part of one is not read. -/
theorem undo_codec {r : BlockUndoRecord} (hcount : r.length < 2 ^ 32) (h : ∀ e ∈ r, e.Fits) :
    decode r.encode = .ok r ∧ ∀ w, w <+: r.encode → w ≠ r.encode → ∃ e, decode w = .error e := by
  have hreads : Parses readEntries r.encode r := by
    refine (Parses.take (length_encode 4 _)).bind ?_
    rw [decode_length hcount]
    exact .many fun e he => reads_undoEntry (h e he)
  exact hreads.run_eq

theorem undo_codec_absent :
    decode (encode [⟨.accounts, [1], some []⟩, ⟨.marketAccount, [], none⟩]) =
      .ok [⟨.accounts, [1], some []⟩, ⟨.marketAccount, [], none⟩] := by
  refine (undo_codec (by decide) ?_).1
  simp only [mem_cons, not_mem_nil, or_false, forall_eq_or_imp, forall_eq]
  exact ⟨⟨by decide, by decide⟩, by decide, by decide⟩

end BlockUndoRecord

end TronGoblin
