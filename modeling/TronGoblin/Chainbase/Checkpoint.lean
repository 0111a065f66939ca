import Mathlib.Data.List.Sort
import TronGoblin.Lib.Durable
import TronGoblin.Lib.Prog
import TronGoblin.Chainbase.Backend

/-!
# The disk under the executor

The state stores, the checkpoint directory (`tron-chainbase/src/checkpoint_v2.rs`) and the undo store
(`stores/block_undo_store.rs`) as one state, and the elementary operations that the commit, recovery
and rollback code performs on it.  A crash can fall between any two of these operations.

* `DiskOp` / `Disk.handle`: the operations when all of them succeed.
* `Disk.faulty`: any store write or sync may instead return an error and change nothing.
* `Disk.Crash`: every store loses some suffix of its un-synced write calls; manifests, once written,
  are durable.
-/

namespace TronGoblin

abbrev KvError := String

structure CheckpointEntry where
  dbName : String
  key : Bytes
  value : Option Bytes
  deriving DecidableEq

inductive CheckpointError
  | decode (msg : String)
  | notFound (id : Nat)
  deriving DecidableEq

/-- One `(store, key)` pre-image of a block. -/
structure UndoEntry where
  store : StoreId
  key : Bytes
  before : Option Bytes
  deriving DecidableEq

abbrev BlockUndoRecord := List UndoEntry

structure Manifest where
  id : Nat
  entries : List CheckpointEntry
  /-- Specification only: how long each store's log was when the manifest was written. -/
  start : StoreId → Nat

structure Disk where
  stores : StoreId → Kv.Durable Bytes Bytes
  /-- The manifests in the checkpoint directory, in the order they were written. -/
  manifests : List Manifest
  /-- Specification only: every manifest written so far, oldest first. -/
  written : List Manifest
  /-- The last identifier `unique_ms` handed out. -/
  lastId : Nat
  /-- The wall clock in milliseconds, as read by the `n`-th manifest write. -/
  clock : Nat → Nat
  undo : Kv.Durable Int BlockUndoRecord

/-- Every store empty, nothing written yet. -/
def emptyDisk : Disk :=
  ⟨fun _ => .ofMap fun _ => none, [], [], 0, fun _ => 0, .ofMap fun _ => none⟩

/-! ## Operations -/

inductive DiskOp
  | writeManifest (entries : List CheckpointEntry)
  | readManifest (id : Nat)
  | deleteManifest (id : Nat)
  | listManifests
  /-- `write_batch`, or `write_batch_sync`. -/
  | writeBatch (store : StoreId) (ops : List WriteOp) (sync : Bool)
  /-- A plain `put` or `delete`. -/
  | putOrDelete (store : StoreId) (op : WriteOp)
  | syncWal (store : StoreId)
  | undoPut (num : Int) (record : BlockUndoRecord)
  | undoGet (num : Int)
  | undoDelete (num : Int)

/-- What an operation answers; a store operation answers with its error, if any. -/
def DiskOp.Res : DiskOp → Type
  | .writeManifest _ => Nat
  | .readManifest _ => Option (List CheckpointEntry)
  | .deleteManifest _ => Bool
  | .listManifests => List Nat
  | .writeBatch _ _ _ => Option KvError
  | .putOrDelete _ _ => Option KvError
  | .syncWal _ => Option KvError
  | .undoPut _ _ => Unit
  | .undoGet _ => Option BlockUndoRecord
  | .undoDelete _ => Unit

namespace Disk

variable (s : Disk)

def contents (id : StoreId) : Contents := (s.stores id).contents

def setStore (id : StoreId) (d : Kv.Durable Bytes Bytes) : Disk :=
  { s with stores := Function.update s.stores id d }

/-- `unique_ms`: the clock, but always past the last identifier. -/
def uniqueMs : Nat := max (s.clock s.written.length) (s.lastId + 1)

/-- The manifest that `CheckPointV2::write` creates. -/
def newManifest (entries : List CheckpointEntry) : Manifest :=
  ⟨s.uniqueMs, entries, fun id => (s.stores id).log.length⟩

def addManifest (entries : List CheckpointEntry) : Disk :=
  { s with
    manifests := s.manifests ++ [s.newManifest entries]
    written := s.written ++ [s.newManifest entries]
    lastId := s.uniqueMs }

def dropManifest (id : Nat) : Disk :=
  { s with manifests := s.manifests.filter fun m => m.id ≠ id }

/-- An empty batch is a no-op, synced or not. -/
def batch (d : Kv.Durable Bytes Bytes) (ops : List WriteOp) (sync : Bool) : Kv.Durable Bytes Bytes :=
  if ops.isEmpty then d else if sync then (d.append ops).sync else d.append ops

/-- `CheckPointV2::list`: the identifiers in ascending order. -/
def listIds : List Nat := (s.manifests.map (·.id)).insertionSort (· ≤ ·)

def handle : Prog.Handler DiskOp DiskOp.Res Disk
  | .writeManifest entries, s => (s.uniqueMs, s.addManifest entries)
  | .readManifest id, s => ((s.manifests.find? fun m => m.id = id).map (·.entries), s)
  | .deleteManifest id, s => (s.manifests.any fun m => m.id = id, s.dropManifest id)
  | .listManifests, s => (s.listIds, s)
  | .writeBatch id ops sync, s => (none, s.setStore id (batch (s.stores id) ops sync))
  | .putOrDelete id op, s => (none, s.setStore id ((s.stores id).append [op]))
  | .syncWal id, s => (none, s.setStore id (s.stores id).sync)
  | .undoPut num record, s => ((), { s with undo := (s.undo.append [⟨num, some record⟩]).sync })
  | .undoGet num, s => (s.undo.contents num, s)
  | .undoDelete num, s => ((), { s with undo := s.undo.append [⟨num, none⟩] })

/-- A store write or sync returned an error. -/
def storeError : (o : DiskOp) → o.Res → Prop
  | .writeBatch _ _ _, r => ∃ e : KvError, r = some e
  | .putOrDelete _ _, r => ∃ e : KvError, r = some e
  | .syncWal _, r => ∃ e : KvError, r = some e
  | _, _ => False

def faulty : Prog.Sem DiskOp DiskOp.Res Disk := fun o s r s' =>
  handle o s = (r, s') ∨ storeError o r ∧ s' = s

/-- What a crash can leave: each store loses a suffix of its un-synced calls. -/
structure Crash (s s' : Disk) : Prop where
  stores : ∀ id, ∃ m, (s.stores id).Survives m ∧ s'.stores id = .ofMap m
  undo : ∃ m, s.undo.Survives m ∧ s'.undo = .ofMap m
  manifests : s'.manifests = s.manifests

end Disk

end TronGoblin
