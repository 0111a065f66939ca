import Mathlib.Data.List.Basic
import Mathlib.Tactic.Ring

/-!
# The protobuf wire format

* `decodeVarint`, `decodeKey`, `decodePayload`: the readers; each returns what follows.
* `decode`: the fields of a message, in order.  Fields of every wire type are read, groups with all
  that is nested in them.
* `decode_cons`: a message is its first field and a message.
* `encode`: the fields one after the other; `decode_encode` reads them back.
-/

namespace Protobuf

open List Option

/-! ## Readers -/

/-- Groups of seven bits, lowest first, in at most `n` bytes. -/
def varint : Nat → List UInt8 → Option (Nat × List UInt8)
  | 0, _ => none
  | _ + 1, [] => none
  | n + 1, b :: rest =>
    if b.toNat < 128 then some (b.toNat, rest)
    else (varint n rest).map fun r => (b.toNat - 128 + 128 * r.1, r.2)

/-- An unsigned 64-bit number. -/
def decodeVarint (bs : List UInt8) : Option (Nat × List UInt8) :=
  (varint 10 bs).filter fun r => r.1 < 2 ^ 64

structure Key where
  num : Nat
  wire : Nat

def decodeKey (bs : List UInt8) : Option (Key × List UInt8) :=
  (decodeVarint bs).bind fun (key, rest) =>
    if key < 2 ^ 32 ∧ 0 < key / 8 then some (⟨key / 8, key % 8⟩, rest) else none

inductive Payload
  | varint (value : Nat)
  | fixed64 (bytes : List UInt8)
  | len (bytes : List UInt8)
  | group
  | fixed32 (bytes : List UInt8)
  deriving DecidableEq

def takeBytes (n : Nat) (bs : List UInt8) : Option (List UInt8 × List UInt8) :=
  if n ≤ bs.length then some (bs.take n, bs.drop n) else none

/-- What follows a key.  A group is read up to its end; the fuel bounds the keys inside. -/
def decodePayload : Nat → Key → List UInt8 → Option (Payload × List UInt8)
  | 0, _, _ => none
  | fuel + 1, key, bs =>
    match key.wire with
    | 0 => (decodeVarint bs).map fun r => (.varint r.1, r.2)
    | 1 => (takeBytes 8 bs).map fun r => (.fixed64 r.1, r.2)
    | 2 => (decodeVarint bs).bind fun (len, rest) =>
        (takeBytes len rest).map fun r => (.len r.1, r.2)
    | 3 => (decodeKey bs).bind fun (inner, rest) =>
        if inner.wire = 4 then
          if inner.num = key.num then some (.group, rest) else none
        else
          (decodePayload fuel inner rest).bind fun (_, rest) => decodePayload fuel key rest
    | 5 => (takeBytes 4 bs).map fun r => (.fixed32 r.1, r.2)
    | _ => none

structure Field where
  num : Nat
  payload : Payload
  deriving DecidableEq

def decodeField (bs : List UInt8) : Option (Field × List UInt8) :=
  (decodeKey bs).bind fun (key, rest) =>
    (decodePayload bs.length key rest).map fun r => (⟨key.num, r.1⟩, r.2)

/-- At most `fuel` fields. -/
def decodeFields : Nat → List UInt8 → Option (List Field)
  | _, [] => some []
  | 0, _ :: _ => none
  | fuel + 1, b :: bs =>
    (decodeField (b :: bs)).bind fun (field, rest) =>
      (decodeFields fuel rest).map (field :: ·)

def decode (bs : List UInt8) : Option (List Field) := decodeFields bs.length bs

/-! ## Every reader goes forward -/

variable {bs rest : List UInt8} {v : Nat} {n : Nat}

theorem varint_length (h : varint n bs = some (v, rest)) : rest.length < bs.length := by
  induction n generalizing bs v with
  | zero => simp [varint] at h
  | succ n ih =>
    cases bs with
    | nil => simp [varint] at h
    | cons b bs =>
      rw [varint] at h
      split at h
      · simp only [some.injEq, Prod.mk.injEq] at h
        simp [h.2]
      · obtain ⟨⟨v', rest'⟩, hv, hr⟩ := map_eq_some_iff.1 h
        cases hr
        exact Nat.lt_succ_of_lt (ih hv)

theorem varint_drop (h : varint n bs = some (v, rest)) : bs.drop (bs.length - rest.length) = rest := by
  induction n generalizing bs v with
  | zero => simp [varint] at h
  | succ n ih =>
    cases bs with
    | nil => simp [varint] at h
    | cons b bs =>
      have hlen := varint_length h
      rw [length_cons] at hlen
      rw [length_cons, Nat.succ_sub (by omega), drop_succ_cons]
      rw [varint] at h
      split at h
      · cases h
        rw [Nat.sub_self, drop_zero]
      · obtain ⟨⟨v', rest'⟩, hv, hr⟩ := map_eq_some_iff.1 h
        cases hr
        exact ih hv

theorem decodeVarint_eq_some : decodeVarint bs = some (v, rest) ↔ varint 10 bs = some (v, rest) ∧ v < 2 ^ 64 := by
  simp [decodeVarint, filter_eq_some_iff]

theorem decodeVarint_length (h : decodeVarint bs = some (v, rest)) : rest.length < bs.length :=
  varint_length (decodeVarint_eq_some.1 h).1

variable {key : Key}

theorem decodeKey_eq_some (h : decodeKey bs = some (key, rest)) :
    ∃ v, decodeVarint bs = some (v, rest) ∧ key = ⟨v / 8, v % 8⟩ := by
  obtain ⟨⟨v, rest'⟩, hv, h⟩ := bind_eq_some_iff.1 h
  simp only [ite_none_right_eq_some, some.injEq, Prod.mk.injEq] at h
  obtain ⟨-, rfl, rfl⟩ := h
  exact ⟨v, hv, rfl⟩

theorem decodeKey_length (h : decodeKey bs = some (key, rest)) : rest.length < bs.length := by
  obtain ⟨v, hv, -⟩ := decodeKey_eq_some h
  exact decodeVarint_length hv

theorem takeBytes_eq_some {bs bytes rest : List UInt8} (h : takeBytes n bs = some (bytes, rest)) :
    n ≤ bs.length ∧ bytes = bs.take n ∧ rest = bs.drop n := by
  simp only [takeBytes, ite_none_right_eq_some, some.injEq, Prod.mk.injEq] at h
  exact ⟨h.1, h.2.1.symm, h.2.2.symm⟩

/-- What can follow a key. -/
inductive Follows (key : Key) (bs : List UInt8) : Payload → List UInt8 → Prop
  | varint {v : Nat} {rest : List UInt8} (hw : key.wire = 0) (hv : decodeVarint bs = some (v, rest)) :
      Follows key bs (.varint v) rest
  | fixed64 (hw : key.wire = 1) (hl : 8 ≤ bs.length) :
      Follows key bs (.fixed64 (bs.take 8)) (bs.drop 8)
  | len {n : Nat} {rest : List UInt8} (hw : key.wire = 2) (hv : decodeVarint bs = some (n, rest))
      (hl : n ≤ rest.length) : Follows key bs (.len (rest.take n)) (rest.drop n)
  | group {rest : List UInt8} (hw : key.wire = 3) (hl : rest.length < bs.length) :
      Follows key bs .group rest
  | fixed32 (hw : key.wire = 5) (hl : 4 ≤ bs.length) :
      Follows key bs (.fixed32 (bs.take 4)) (bs.drop 4)

theorem Follows.length {p : Payload} (h : Follows key bs p rest) : rest.length ≤ bs.length := by
  cases h with
  | varint _ hv => exact Nat.le_of_lt (decodeVarint_length hv)
  | len _ hv hl =>
    have := decodeVarint_length hv
    simp only [length_drop]
    omega
  | group _ hl => exact Nat.le_of_lt hl
  | fixed64 | fixed32 => simp

theorem decodePayload_follows {fuel : Nat} {p : Payload} (h : decodePayload fuel key bs = some (p, rest)) :
    Follows key bs p rest := by
  induction fuel generalizing key bs p rest with
  | zero => simp [decodePayload] at h
  | succ fuel ih =>
    rw [decodePayload] at h
    split at h
    · rename_i hw
      obtain ⟨⟨v, r⟩, hv, hr⟩ := map_eq_some_iff.1 h
      cases hr
      exact .varint hw hv
    · rename_i hw
      obtain ⟨⟨bytes, r⟩, ht, hr⟩ := map_eq_some_iff.1 h
      cases hr
      obtain ⟨hl, rfl, rfl⟩ := takeBytes_eq_some ht
      exact .fixed64 hw hl
    · rename_i hw
      obtain ⟨⟨n, r⟩, hv, h⟩ := bind_eq_some_iff.1 h
      obtain ⟨⟨bytes, r'⟩, ht, hr⟩ := map_eq_some_iff.1 h
      cases hr
      obtain ⟨hl, rfl, rfl⟩ := takeBytes_eq_some ht
      exact .len hw hv hl
    · rename_i hw
      obtain ⟨⟨inner, r⟩, hk, h⟩ := bind_eq_some_iff.1 h
      have hlen := decodeKey_length hk
      dsimp only at h
      split at h
      · simp only [ite_none_right_eq_some, some.injEq, Prod.mk.injEq] at h
        obtain ⟨-, rfl, rfl⟩ := h
        exact .group hw hlen
      · -- one field of the group, then the rest of it
        obtain ⟨⟨q, r'⟩, hq, h⟩ := bind_eq_some_iff.1 h
        have hskip := (ih hq).length
        dsimp only at h
        cases ih h with
        | group _ hl => exact .group hw (by omega)
        | varint hw' | fixed64 hw' | len hw' | fixed32 hw' => omega
    · rename_i hw
      obtain ⟨⟨bytes, r⟩, ht, hr⟩ := map_eq_some_iff.1 h
      cases hr
      obtain ⟨hl, rfl, rfl⟩ := takeBytes_eq_some ht
      exact .fixed32 hw hl
    · cases h

variable {f : Field}

theorem decodeField_eq_some (h : decodeField bs = some (f, rest)) :
    ∃ v r, decodeVarint bs = some (v, r) ∧ f.num = v / 8 ∧ Follows ⟨v / 8, v % 8⟩ r f.payload rest := by
  obtain ⟨⟨key, r⟩, hk, h⟩ := bind_eq_some_iff.1 h
  obtain ⟨⟨p, r'⟩, hp, hr⟩ := map_eq_some_iff.1 h
  cases hr
  obtain ⟨v, hv, rfl⟩ := decodeKey_eq_some hk
  exact ⟨v, r, hv, rfl, decodePayload_follows hp⟩

theorem decodeField_length (h : decodeField bs = some (f, rest)) : rest.length < bs.length := by
  obtain ⟨v, r, hv, -, hf⟩ := decodeField_eq_some h
  exact Nat.lt_of_le_of_lt hf.length (decodeVarint_length hv)

theorem decodeFields_fuel {fuel : Nat} {bs : List UInt8} (h : bs.length ≤ fuel) : decodeFields fuel bs = decode bs := by
  induction hn : bs.length using Nat.strongRecOn generalizing fuel bs with
  | ind n ih =>
    match bs, fuel with
    | [], _ => rw [decode, decodeFields, decodeFields]
    | b :: bs, fuel + 1 =>
      refine bind_congr fun ⟨f, rest⟩ hf => ?_
      have hlen := decodeField_length hf
      rw [length_cons] at hlen h hn
      dsimp only
      rw [ih rest.length (by omega) (by omega) rfl, ih rest.length (by omega) (by omega) rfl]

theorem decode_cons (b : UInt8) (bs : List UInt8) :
    decode (b :: bs) = (decodeField (b :: bs)).bind fun r => (decode r.2).map (r.1 :: ·) := by
  refine bind_congr fun ⟨f, rest⟩ hf => ?_
  have hlen := decodeField_length hf
  rw [length_cons] at hlen
  dsimp only
  rw [decodeFields_fuel (by omega)]

/-! ## Writing -/

/-- At most `n + 1` bytes. -/
def encodeGroups : Nat → Nat → List UInt8
  | 0, v => [UInt8.ofNat v]
  | n + 1, v =>
    if v < 128 then [UInt8.ofNat v] else UInt8.ofNat (v % 128 + 128) :: encodeGroups n (v / 128)

def encodeVarint (v : Nat) : List UInt8 := encodeGroups 9 v

def encodeKey (num wire : Nat) : List UInt8 := encodeVarint (num * 8 + wire)

def Payload.wire : Payload → Nat
  | .varint _ => 0
  | .fixed64 _ => 1
  | .len _ => 2
  | .group => 3
  | .fixed32 _ => 5

/-- A group is written with nothing in it. -/
def encodePayload (num : Nat) : Payload → List UInt8
  | .varint v => encodeVarint v
  | .fixed64 bytes => bytes
  | .len bytes => encodeVarint bytes.length ++ bytes
  | .group => encodeKey num 4
  | .fixed32 bytes => bytes

def encodeField (f : Field) : List UInt8 :=
  encodeKey f.num f.payload.wire ++ encodePayload f.num f.payload

def encode (fields : List Field) : List UInt8 := fields.flatMap encodeField

def Payload.Fits : Payload → Prop
  | .varint v => v < 2 ^ 64
  | .fixed64 bytes => bytes.length = 8
  | .len bytes => bytes.length < 2 ^ 64
  | .group => True
  | .fixed32 bytes => bytes.length = 4

/-- A field that has an encoding. -/
structure Field.Fits (f : Field) : Prop where
  pos : 0 < f.num
  lt : f.num < 2 ^ 29
  payload : f.payload.Fits

theorem Field.fits_len {num : Nat} {bytes : List UInt8} (hpos : 0 < num) (hnum : num < 2 ^ 29)
    (hlen : bytes.length < 2 ^ 64) : Field.Fits ⟨num, .len bytes⟩ := ⟨hpos, hnum, hlen⟩

theorem varint_encodeGroups {n v : Nat} (hv : v < 128 ^ (n + 1)) (rest : List UInt8) :
    varint (n + 1) (encodeGroups n v ++ rest) = some (v, rest) := by
  induction n generalizing v with
  | zero =>
    have hlt : v < 128 := by simpa using hv
    have hbyte : (UInt8.ofNat v).toNat = v := by
      rw [UInt8.toNat_ofNat']
      omega
    simp [encodeGroups, varint, hbyte, hlt]
  | succ n ih =>
    rw [encodeGroups]
    split
    · rename_i hlt
      have hbyte : (UInt8.ofNat v).toNat = v := by
        rw [UInt8.toNat_ofNat']
        omega
      simp [varint, hbyte, hlt]
    · have hbyte : (UInt8.ofNat (v % 128 + 128)).toNat = v % 128 + 128 := by
        rw [UInt8.toNat_ofNat']
        omega
      have hdiv : v / 128 < 128 ^ (n + 1) := by
        rw [Nat.div_lt_iff_lt_mul (by decide), ← Nat.pow_succ]
        exact hv
      rw [cons_append, varint, hbyte, if_neg (by omega), ih hdiv]
      simp only [map_some, some.injEq, Prod.mk.injEq, and_true]
      omega

theorem decodeVarint_encodeVarint (hv : v < 2 ^ 64) (rest : List UInt8) :
    decodeVarint (encodeVarint v ++ rest) = some (v, rest) :=
  decodeVarint_eq_some.2 ⟨varint_encodeGroups (Nat.lt_trans hv (by decide)) rest, hv⟩

theorem decodeKey_encodeKey {num wire : Nat} (hpos : 0 < num) (hnum : num < 2 ^ 29) (hwire : wire < 8)
    (rest : List UInt8) : decodeKey (encodeKey num wire ++ rest) = some (⟨num, wire⟩, rest) := by
  have hdiv : (num * 8 + wire) / 8 = num := by omega
  have hmod : (num * 8 + wire) % 8 = wire := by omega
  rw [decodeKey, encodeKey, decodeVarint_encodeVarint (by omega), bind_some]
  dsimp only
  rw [hdiv, hmod, if_pos ⟨by omega, hpos⟩]

theorem takeBytes_append {bytes : List UInt8} (h : bytes.length = n) (rest : List UInt8) :
    takeBytes n (bytes ++ rest) = some (bytes, rest) := by
  subst h
  simp [takeBytes]

theorem decodePayload_encodePayload (h : f.Fits) (fuel : Nat) (rest : List UInt8) :
    decodePayload (fuel + 1) ⟨f.num, f.payload.wire⟩ (encodePayload f.num f.payload ++ rest) =
      some (f.payload, rest) := by
  obtain ⟨num, payload⟩ := f
  obtain ⟨hpos, hlt, hp⟩ := h
  cases payload with
  | varint v => simp [decodePayload, Payload.wire, encodePayload, decodeVarint_encodeVarint hp]
  | fixed64 bytes => simp [decodePayload, Payload.wire, encodePayload, takeBytes_append hp]
  | len bytes =>
    simp [decodePayload, Payload.wire, encodePayload, decodeVarint_encodeVarint hp, takeBytes_append]
  | group =>
    simp [decodePayload, Payload.wire, encodePayload, decodeKey_encodeKey hpos hlt (show 4 < 8 by decide)]
  | fixed32 bytes => simp [decodePayload, Payload.wire, encodePayload, takeBytes_append hp]

theorem encodeVarint_ne_nil (v : Nat) : encodeVarint v ≠ [] := by
  rw [encodeVarint, encodeGroups]
  split <;> simp

theorem encodeField_ne_nil (f : Field) : encodeField f ≠ [] := by
  intro h
  exact encodeVarint_ne_nil _ (append_eq_nil_iff.1 h).1

theorem wire_lt (p : Payload) : p.wire < 8 := by
  cases p <;> simp [Payload.wire]

theorem decodeField_encodeField (h : f.Fits) (rest : List UInt8) :
    decodeField (encodeField f ++ rest) = some (f, rest) := by
  obtain ⟨n, hn⟩ : ∃ n, (encodeField f ++ rest).length = n + 1 := by
    obtain ⟨b, bs, hb⟩ := exists_cons_of_ne_nil (encodeField_ne_nil f)
    exact ⟨(bs ++ rest).length, by rw [hb]; rfl⟩
  rw [decodeField, hn, encodeField, append_assoc, decodeKey_encodeKey h.pos h.lt (wire_lt f.payload), bind_some]
  dsimp only
  rw [decodePayload_encodePayload h]
  rfl

theorem decode_encode {fields : List Field} (h : ∀ f ∈ fields, f.Fits) : decode (encode fields) = some fields := by
  induction fields with
  | nil => rfl
  | cons f fields ih =>
    have hfits := h f (by simp)
    have hrest := ih fun g hg => h g (by simp [hg])
    have hf := decodeField_encodeField hfits (encode fields)
    obtain ⟨b, bs, hb⟩ := exists_cons_of_ne_nil (encodeField_ne_nil f)
    have happ : encode (f :: fields) = b :: (bs ++ encode fields) := by
      rw [encode, flatMap_cons, hb]
      rfl
    rw [hb, cons_append] at hf
    rw [happ, decode_cons, hf, bind_some]
    rw [hrest]
    rfl

/-! ## Sizes -/

theorem encodeGroups_length_le (n v : Nat) : (encodeGroups n v).length ≤ n + 1 := by
  induction n generalizing v with
  | zero => simp [encodeGroups]
  | succ n ih =>
    rw [encodeGroups]
    split
    · simp
    · simpa using ih (v / 128)

theorem encodeVarint_length_le (v : Nat) : (encodeVarint v).length ≤ 10 := encodeGroups_length_le 9 v

/-- A field takes at most 20 bytes more than the bytes in it. -/
theorem encodeField_len_length_le (num : Nat) (bytes : List UInt8) :
    (encodeField ⟨num, .len bytes⟩).length ≤ 20 + bytes.length := by
  have hkey := encodeVarint_length_le (num * 8 + 2)
  have hlen := encodeVarint_length_le bytes.length
  simp only [encodeField, encodeKey, encodePayload, Payload.wire, length_append]
  omega

theorem encodeField_varint_length_le (num v : Nat) : (encodeField ⟨num, .varint v⟩).length ≤ 20 := by
  have hkey := encodeVarint_length_le (num * 8 + 0)
  have hv := encodeVarint_length_le v
  simp only [encodeField, encodeKey, encodePayload, Payload.wire, length_append]
  omega

theorem encode_append (fields fields' : List Field) :
    encode (fields ++ fields') = encode fields ++ encode fields' := flatMap_append

end Protobuf
