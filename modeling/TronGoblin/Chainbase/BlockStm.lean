import Mathlib.Data.List.AList
import Mathlib.Data.List.Dedup
import Mathlib.Data.List.Sort
import TronGoblin.Lib.Prog
import TronGoblin.Chainbase.Backend

/-!
# Multi-version memory and per-transaction capture

Model of `tron-chainbase/src/blockstm.rs`.

* `MvMemory`: for every conflict key, the writes keyed by transaction index; `read` resolves a
  read to the highest index strictly below the reader.
* `TxCapture`: the read-set, write-set and side channels of one speculative execution.
* `VersionedBackend`: the store view a speculative execution runs on, with its four read paths:
  deferred keys, energy-deferred contract rows, accumulators and ordinary keys.

Principal results: `read_congr` (a read below `r` depends only on indices below `r`), `get_ordinary`
(an ordinary key takes the multi-version path) and `lastWrite_effectiveWriteSet` (the published
write-set is the captured one without the writes that restore the value first read).
-/

namespace TronGoblin.BlockStm

open List Function

/-- The store index of the conflict-key namespace. -/
abbrev StoreId := UInt16

/-- A conflict key: store index and key bytes. -/
abbrev ConflictKey := StoreId × Bytes

/-- A value a transaction wrote: `some` is a put, `none` a tombstone. -/
abbrev VersionValue := Option Bytes

structure Version where
  idx : Nat
  incarnation : Nat
  deriving DecidableEq

inductive Entry
  | written (value : VersionValue) (incarnation : Nat)
  | estimate
  deriving DecidableEq

/-- Where a recorded read resolved. -/
inductive ReadOrigin
  | base
  | version (v : Version)
  deriving DecidableEq

/-- Outcome of resolving a read against the multi-version memory. -/
inductive ReadOutcome
  | versioned (value : VersionValue) (version : Version)
  | base
  | blocked (blocking : Nat)
  deriving DecidableEq

structure ReadDescriptor where
  key : ConflictKey
  origin : ReadOrigin
  value : VersionValue
  deriving DecidableEq

/-! ## Multi-version memory -/

abbrev MvMemory := ConflictKey → Nat → Option Entry

/-- The entry of the highest index below `r`: `versions.range(..r).next_back()`. -/
def highestBelow (versions : Nat → Option Entry) : Nat → Option (Nat × Entry)
  | 0 => none
  | r + 1 => match versions r with
    | some e => some (r, e)
    | none => highestBelow versions r

namespace MvMemory

def read (mv : MvMemory) (key : ConflictKey) (reader : Nat) : ReadOutcome :=
  match highestBelow (mv key) reader with
  | none => .base
  | some (idx, .estimate) => .blocked idx
  | some (idx, .written value incarnation) => .versioned value ⟨idx, incarnation⟩

/-- Replace the slot of one key at one index; each per-key iteration of `record_writes` and
`remove_writes` is one such replacement under the shard lock. -/
def setEntry (mv : MvMemory) (key : ConflictKey) (idx : Nat) (e : Option Entry) : MvMemory :=
  update mv key (update (mv key) idx e)

def recordWrite (mv : MvMemory) (version : Version) (w : Kv.Write ConflictKey Bytes) : MvMemory :=
  mv.setEntry w.key version.idx (some (.written w.value version.incarnation))

def removeWrite (mv : MvMemory) (idx : Nat) (key : ConflictKey) : MvMemory :=
  mv.setEntry key idx none

def validateRead (mv : MvMemory) (reader : Nat) (rd : ReadDescriptor) : Bool :=
  match mv.read rd.key reader with
  | .base => rd.origin == .base
  | .versioned value _ => value == rd.value
  | .blocked _ => false

def validate (mv : MvMemory) (reader : Nat) (readSet : List ReadDescriptor) : Bool :=
  readSet.all (mv.validateRead reader)

/-- Two memories that hold the same versions at every index below `r`. -/
def AgreeBelow (r : Nat) (mv mv' : MvMemory) : Prop := ∀ key, ∀ j < r, mv key j = mv' key j

end MvMemory

theorem highestBelow_congr {v v' : Nat → Option Entry} :
    ∀ {r : Nat}, (∀ j < r, v j = v' j) → highestBelow v r = highestBelow v' r
  | 0, _ => rfl
  | r + 1, h => by
    rw [highestBelow, highestBelow, h r (Nat.lt_succ_self r), highestBelow_congr fun j hj => h j (Nat.lt_succ_of_lt hj)]

theorem highestBelow_lt {v : Nat → Option Entry} {j : Nat} {e : Entry} :
    ∀ {r : Nat}, highestBelow v r = some (j, e) → j < r
  | 0, h => by cases h
  | r + 1, h => by
    rw [highestBelow] at h
    split at h
    · cases h; exact Nat.lt_succ_self _
    · exact Nat.lt_succ_of_lt (highestBelow_lt h)

theorem highestBelow_eq {v : Nat → Option Entry} {j : Nat} {e : Entry} :
    ∀ {r : Nat}, highestBelow v r = some (j, e) → v j = some e
  | 0, h => by cases h
  | r + 1, h => by
    rw [highestBelow] at h
    split at h
    · rename_i heq
      cases h; exact heq
    · exact highestBelow_eq h

namespace MvMemory

variable {mv mv' : MvMemory} {r : Nat}

theorem setEntry_self (mv : MvMemory) (key : ConflictKey) (idx : Nat) (e : Option Entry) :
    mv.setEntry key idx e key idx = e := by
  rw [setEntry, update_self, update_self]

theorem setEntry_of_key_ne (mv : MvMemory) {key key' : ConflictKey} (h : key' ≠ key) (idx j : Nat)
    (e : Option Entry) : mv.setEntry key idx e key' j = mv key' j := by
  rw [setEntry, update_of_ne h]

theorem setEntry_of_idx_ne (mv : MvMemory) (key key' : ConflictKey) {idx j : Nat} (h : j ≠ idx)
    (e : Option Entry) : mv.setEntry key idx e key' j = mv key' j := by
  by_cases hk : key' = key
  · rw [hk, setEntry, update_self, update_of_ne h]
  · exact setEntry_of_key_ne mv hk idx j e

theorem read_congr (h : AgreeBelow r mv mv') (key : ConflictKey) : mv.read key r = mv'.read key r := by
  rw [read, read, highestBelow_congr (h key)]

theorem validate_congr (h : AgreeBelow r mv mv') (rs : List ReadDescriptor) : mv.validate r rs = mv'.validate r rs := by
  have hrd : mv.validateRead r = mv'.validateRead r := by
    funext rd
    rw [validateRead, validateRead, read_congr h]
  rw [validate, validate, hrd]

theorem agreeBelow_setEntry (mv : MvMemory) (key : ConflictKey) {idx : Nat} (h : r ≤ idx)
    (e : Option Entry) : AgreeBelow r (mv.setEntry key idx e) mv :=
  fun key' _ hj => setEntry_of_idx_ne mv key key' (Nat.ne_of_lt (Nat.lt_of_lt_of_le hj h)) e

def NoEstimate (mv : MvMemory) : Prop := ∀ key j, mv key j ≠ some .estimate

theorem read_ne_blocked (h : mv.NoEstimate) (key : ConflictKey) (r idx : Nat) : mv.read key r ≠ .blocked idx := by
  intro hr
  unfold read at hr
  split at hr
  · cases hr
  · rename_i heq
    exact h key _ (highestBelow_eq heq)
  · cases hr

theorem noEstimate_setEntry (h : mv.NoEstimate) (key : ConflictKey) (idx : Nat) {e : Option Entry}
    (he : e ≠ some .estimate) : (mv.setEntry key idx e).NoEstimate := by
  intro key' j
  by_cases hj : j = idx
  · by_cases hk : key' = key
    · rw [hk, hj, setEntry_self]; exact he
    · rw [setEntry_of_key_ne mv hk]; exact h key' j
  · rw [setEntry_of_idx_ne mv key key' hj]; exact h key' j

theorem read_versioned_lt {key : ConflictKey} {value : VersionValue} {v : Version}
    (h : mv.read key r = .versioned value v) : v.idx < r := by
  unfold read at h
  split at h
  · cases h
  · cases h
  · rename_i heq
    cases h
    exact highestBelow_lt heq

end MvMemory

/-! ## Captured executions -/

/-- Last value written per key. -/
abbrev Writes := AList fun _ : ConflictKey => VersionValue

structure TxCapture where
  reads : List ReadDescriptor := []
  writes : Writes := ∅
  /-- Net change of each commutative accumulator against the base. -/
  deltas : AList fun _ : ConflictKey => Int64 := ∅
  /-- Lower indices whose speculative writes were read, with duplicates. -/
  versionDeps : List Nat := []
  publicNetBytes : Option Int64 := none
  /-- Net `energy_usage` change of each contract already caught up in this cycle. -/
  contractEnergy : AList fun _ : Bytes => Int64 := ∅
  contractEnergyBoundary : Bool := false

namespace TxCapture

/-- The state `clear` resets a capture to. -/
def cleared : TxCapture := {}

/-- `TxIsolation::revert` on a capture: everything but the read-set is dropped. -/
def revert (cap : TxCapture) : TxCapture :=
  { cap with
    writes := ∅
    deltas := ∅
    publicNetBytes := none
    contractEnergy := ∅
    contractEnergyBoundary := false }

def depSet (cap : TxCapture) : List Nat := (cap.versionDeps.insertionSort (· ≤ ·)).dedup

def writtenKeys (cap : TxCapture) : List ConflictKey := cap.writes.keys

def readBaseline (cap : TxCapture) (key : ConflictKey) : Option VersionValue :=
  (cap.reads.find? fun rd => rd.key = key).map (·.value)

/-- The write-set without the writes that restore the value first read. -/
def effectiveWriteSet (cap : TxCapture) : List (Kv.Write ConflictKey Bytes) :=
  (cap.writes.entries.filter fun e => cap.readBaseline e.1 != some e.2).map fun e => ⟨e.1, e.2⟩

def effective (cap : TxCapture) (key : ConflictKey) : Option VersionValue :=
  (cap.writes.lookup key).filter fun v => cap.readBaseline key != some v

variable {cap : TxCapture}

theorem mem_depSet {j : Nat} : j ∈ cap.depSet ↔ j ∈ cap.versionDeps := by
  rw [depSet, mem_dedup, mem_insertionSort]

variable {key : ConflictKey} {v : VersionValue}

theorem effective_eq_some :
    cap.effective key = some v ↔ cap.writes.lookup key = some v ∧ cap.readBaseline key ≠ some v := by
  rw [effective, Option.filter_eq_some_iff, bne_iff_ne]

theorem mem_effectiveWriteSet {w : Kv.Write ConflictKey Bytes} :
    w ∈ cap.effectiveWriteSet ↔ cap.effective w.key = some w.value := by
  rw [effective_eq_some, effectiveWriteSet, mem_map]
  constructor
  · rintro ⟨⟨k, v⟩, hmem, rfl⟩
    obtain ⟨hmem, hne⟩ := mem_filter.1 hmem
    exact ⟨AList.mem_lookup_iff.2 hmem, bne_iff_ne.1 hne⟩
  · rintro ⟨hl, hne⟩
    exact ⟨⟨w.key, w.value⟩, mem_filter.2 ⟨AList.mem_lookup_iff.1 hl, bne_iff_ne.2 hne⟩, rfl⟩

theorem lastWrite_effectiveWriteSet (cap : TxCapture) (key : ConflictKey) :
    Kv.lastWrite cap.effectiveWriteSet key = cap.effective key := by
  cases h : Kv.lastWrite cap.effectiveWriteSet key with
  | some v =>
    obtain ⟨w, hw, rfl, rfl⟩ := Kv.exists_mem_of_lastWrite h
    exact (mem_effectiveWriteSet.1 hw).symm
  | none =>
    cases he : cap.effective key with
    | none => rfl
    | some v =>
      have hmem : (⟨key, v⟩ : Kv.Write ConflictKey Bytes) ∈ cap.effectiveWriteSet :=
        mem_effectiveWriteSet.2 he
      exact absurd rfl (Kv.lastWrite_eq_none.1 h _ hmem)

theorem mem_writtenKeys_of_effective (h : cap.effective key = some v) : key ∈ cap.writtenKeys := by
  rw [writtenKeys, ← AList.mem_keys, ← AList.lookup_isSome, (effective_eq_some.1 h).1]
  rfl

theorem exists_read_of_baseline (h : cap.readBaseline key = some v) : ∃ rd ∈ cap.reads, rd.key = key ∧ rd.value = v := by
  obtain ⟨rd, hfind, hv⟩ := Option.map_eq_some_iff.1 h
  exact ⟨rd, mem_of_find?_eq_some hfind, by simpa using List.find?_some hfind, hv⟩

end TxCapture

/-! ## The versioned backend -/

/-- The fields of the `ContractState` message that the energy deferral reads. -/
structure ContractState where
  energyUsage : Int64 := 0
  energyFactor : Int64 := 0
  updateCycle : Int64 := 0
  deriving DecidableEq

/-- `decode_long`: the last eight bytes, big-endian, padded with zeros on the left. -/
def decodeLong : Option Bytes → Int64
  | none => 0
  | some bytes =>
    Int64.ofNat ((bytes.drop (bytes.length - 8)).foldl (fun acc b => acc * 256 + b.toNat) 0)

def toBeBytes (x : Int64) : Bytes :=
  (List.range 8).map fun i => UInt8.ofNat (x.toUInt64.toNat >>> (8 * (7 - i)))

/-- The block-constant part of the versioned stores of one block: the committed base and which
keys leave the multi-version path. -/
structure VersionedBackend where
  base : Kv.Map ConflictKey Bytes
  accumulators : ConflictKey → Bool
  deferred : ConflictKey → Bool
  energyDeferred : StoreId → Bool
  nowCycle : Int64
  /-- The protobuf decoder of `ContractState`. -/
  decode : Bytes → Option ContractState

/-- A store call of a transaction; `revert` is the isolation layer's revert. -/
inductive TxOp
  | get (key : ConflictKey)
  | put (key : ConflictKey) (value : Bytes)
  | delete (key : ConflictKey)
  | revert

/-- What a store call answers. -/
def TxOp.Res : TxOp → Type
  | .get _ => Option Bytes
  | _ => Unit

namespace VersionedBackend

/-- `decode_contract_state`: an absent or undecodable row is the default record. -/
def decodeContractState (vb : VersionedBackend) (bytes : Option Bytes) : ContractState :=
  (bytes.bind vb.decode).getD {}

/-- The energy-deferred rows: contracts already caught up in this cycle. -/
def caughtUp (vb : VersionedBackend) (key : ConflictKey) : Bool :=
  vb.energyDeferred key.1 && (vb.decodeContractState (vb.base key)).updateCycle == vb.nowCycle

def get (vb : VersionedBackend) (mv : MvMemory) (txIdx : Nat) (key : ConflictKey)
    (cap : TxCapture) : Option Bytes × TxCapture :=
  if vb.deferred key then (vb.base key, cap)
  else if vb.caughtUp key then (vb.base key, cap)
  else if vb.accumulators key then
    match vb.base key, cap.deltas.lookup key with
    | none, none => (none, cap)
    | baseOpt, d => (some (toBeBytes (decodeLong baseOpt + d.getD 0)), cap)
  else match cap.writes.lookup key with
    -- read-your-writes is not a dependency on another transaction
    | some v => (v, cap)
    | none => match mv.read key txIdx with
      | .versioned value version =>
        (value, { cap with
          reads := cap.reads ++ [⟨key, .version version, value⟩]
          versionDeps := cap.versionDeps ++ [version.idx] })
      | .base | .blocked _ =>
        (vb.base key, { cap with reads := cap.reads ++ [⟨key, .base, vb.base key⟩] })

def put (vb : VersionedBackend) (key : ConflictKey) (value : Bytes) (cap : TxCapture) : TxCapture :=
  if vb.deferred key then cap
  else if vb.caughtUp key then
    let baseCs := vb.decodeContractState (vb.base key)
    match vb.decode value with
    | some newCs =>
      if newCs.updateCycle = baseCs.updateCycle ∧ newCs.energyFactor = baseCs.energyFactor then
        { cap with
          contractEnergy := cap.contractEnergy.insert key.2 (newCs.energyUsage - baseCs.energyUsage) }
      else { cap with contractEnergyBoundary := true }
    | none => { cap with contractEnergyBoundary := true }
  else if vb.accumulators key then
    { cap with
      deltas := cap.deltas.insert key (decodeLong (some value) - decodeLong (vb.base key)) }
  else { cap with writes := cap.writes.insert key (some value) }

def delete (vb : VersionedBackend) (key : ConflictKey) (cap : TxCapture) : TxCapture :=
  if vb.deferred key then cap else { cap with writes := cap.writes.insert key none }

def perform (vb : VersionedBackend) (mv : MvMemory) (txIdx : Nat) :
    Prog.Handler TxOp TxOp.Res TxCapture
  | .get key, cap => vb.get mv txIdx key cap
  | .put key value, cap => ((), vb.put key value cap)
  | .delete key, cap => ((), vb.delete key cap)
  | .revert, cap => ((), cap.revert)

/-- Keys that take the multi-version path: neither deferred, nor a caught-up contract row, nor an
accumulator. -/
def Ordinary (vb : VersionedBackend) (key : ConflictKey) : Prop :=
  vb.deferred key = false ∧ vb.caughtUp key = false ∧ vb.accumulators key = false

def OrdinaryOp (vb : VersionedBackend) : TxOp → Prop
  | .get key => vb.Ordinary key
  | .put key _ => vb.Ordinary key
  | .delete key => vb.Ordinary key
  | .revert => True

variable {vb : VersionedBackend} {key : ConflictKey}

variable (h : vb.Ordinary key)
include h

/-- A read of an ordinary key either returns the transaction's own write or records one read,
which validates where it was taken. -/
theorem get_ordinary {mv : MvMemory} (hmv : mv.NoEstimate) (txIdx : Nat) (cap : TxCapture) :
    (∃ v, cap.writes.lookup key = some v ∧ vb.get mv txIdx key cap = (v, cap)) ∨
      (cap.writes.lookup key = none ∧ ∃ rd deps,
        vb.get mv txIdx key cap = (rd.value, { cap with
          reads := cap.reads ++ [rd]
          versionDeps := cap.versionDeps ++ deps }) ∧
        rd.key = key ∧ mv.validateRead txIdx rd = true ∧
        (rd.origin = .base → rd.value = vb.base key) ∧ ∀ j ∈ deps, j < txIdx) := by
  obtain ⟨h1, h2, h3⟩ := h
  cases hw : cap.writes.lookup key with
  | some v =>
    refine Or.inl ⟨v, rfl, ?_⟩
    simp [get, h1, h2, h3, hw]
  | none =>
    refine Or.inr ⟨rfl, ?_⟩
    cases hr : mv.read key txIdx with
    | versioned value version =>
      refine ⟨⟨key, .version version, value⟩, [version.idx], ?_, rfl, ?_, ?_, ?_⟩
      · simp [get, h1, h2, h3, hw, hr]
      · simp [MvMemory.validateRead, hr]
      · intro hb; cases hb
      · intro j hj
        rw [mem_singleton.1 hj]
        exact MvMemory.read_versioned_lt hr
    | base =>
      refine ⟨⟨key, .base, vb.base key⟩, [], ?_, rfl, ?_, fun _ => rfl, ?_⟩
      · simp [get, h1, h2, h3, hw, hr]
      · simp [MvMemory.validateRead, hr]
      · intro j hj; cases hj
    | blocked idx => exact absurd hr (MvMemory.read_ne_blocked hmv key txIdx idx)

theorem put_ordinary (value : Bytes) (cap : TxCapture) :
    vb.put key value cap = { cap with writes := cap.writes.insert key (some value) } := by
  obtain ⟨h1, h2, h3⟩ := h
  simp [put, h1, h2, h3]

theorem delete_ordinary (cap : TxCapture) : vb.delete key cap = { cap with writes := cap.writes.insert key none } := by
  simp [delete, h.1]

end VersionedBackend

end TronGoblin.BlockStm
