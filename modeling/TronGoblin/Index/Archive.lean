import TronGoblin.Chainbase.StoreScan
import TronGoblin.Index.ArchiveKeys

/-!
# The historical-state archive

The writer and the reader of the versioned archive (`tron-index/src/archive.rs`), over one ordered
store.  Heights are natural numbers below `2^63`, as block numbers are.

* `onBlockApplied`: a block's write-set becomes version rows at its height; a key without a row at the
  coverage base gets its value before the block pinned there.  Before that the archive starts, unwinds
  orphaned heights (`unwindTo`), repairs a gap from the undo log (`repairGap`), or gives up its coverage
  (`resetCoverage`).
* `pruneBelow`: the retention pass, as the steps `passStep` between which others may write: the base is
  moved first, the rows are scanned in chunks, and deletes are flushed as they pile up.
* `valueAt`, `ArchiveAtBackend.get`: the historical point read.
-/

namespace TronGoblin.Archive

open BigEndian

open Store (cursorAfter)

/-- One key mutation of a block's write-set. -/
structure DeltaRef where
  key : StoreKey
  before : Option Bytes
  after : Option Bytes

/-- One entry of a block's undo record. -/
structure UndoEntry where
  key : StoreKey
  before : Option Bytes

/-- What the writer reads besides its own rows: the undo log and the live stores. -/
structure Sources where
  undo : Option (Nat → Option (List UndoEntry))
  live : StoreId → Option Contents

inductive IndexError
  | ringMissing (height : Nat)
  | ringUndecodable (height : Nat)
  | noUndoStore
  | notRetained (height : Nat)
  | noLiveBackend (store : StoreId)
  | noWipingMarker
  deriving DecidableEq

def put (key value : Bytes) : WriteOp := ⟨key, some value⟩

variable (key : Bytes)

def delete : WriteOp := ⟨key, none⟩

@[simp] theorem put_key (key value : Bytes) : (put key value).key = key := rfl

@[simp] theorem put_value (key value : Bytes) : (put key value).value = some value := rfl

@[simp] theorem delete_key : (delete key).key = key := rfl

/-- A height as the archive stores it. -/
def beBytes (height : Nat) : Bytes := encode 8 height

def heights (lo hi : Nat) : List Nat := List.range' lo (hi + 1 - lo)

section Coverage

variable (s : Store)

def getI64 (key : Bytes) : Option Nat :=
  (s.contents key).bind fun v => if v.length = 8 then some (decode v) else none

def baseHeight : Option Nat := getI64 s metaBase

def head : Option Nat := getI64 s metaHead

/-- `(base, head)`, or nothing until capture has started. -/
def coverage : Option (Nat × Nat) :=
  match baseHeight s, head s with
  | some base, some head => some (base, head)
  | _, _ => none

end Coverage

/-! ## Coverage reset -/

def wipeChunk : Nat := 50000

/-- The loop of `finish_reset`: everything but the marker is deleted, chunk by chunk. -/
def wipe : Nat → Bytes → Store → Store
  | 0, _, s => s
  | fuel + 1, cur, s =>
    let rows := s.reads.scanFrom cur wipeChunk
    match rows.getLast? with
    | none => s
    | some last =>
      wipe fuel (cursorAfter last.1)
        (s.writeAll ((rows.filter (·.1 ≠ metaWiping)).map fun row => delete row.1))

def formatVersion : Bytes := encode 4 1

/-- `check_or_init` on an empty store. -/
def initial : Store := (∅ : Store).write (put metaFormat formatVersion)

def finishReset (s : Store) : Except IndexError Store :=
  match s.contents metaWiping with
  | none => .error .noWipingMarker
  | some marker =>
    let stamp := [put metaFormat formatVersion, delete metaWiping]
    let cover :=
      if marker.length = 8 then
        [put metaBase (beBytes (decode marker)), put metaHead (beBytes (decode marker))]
      else []
    .ok ((wipe (s.size + 1) [] s).writeAll (stamp ++ cover))

/-- `reset_coverage`: wipe everything and restart coverage with `base = head = at`. -/
def resetCoverage (s : Store) (height : Nat) : Except IndexError Store :=
  finishReset (s.write (put metaWiping (beBytes height)))

def unwindRing (s : Store) (height : Nat) : Except IndexError (List WriteOp) :=
  match s.contents (metaKeysAt height) with
  | none => .error (.ringMissing height)
  | some bytes =>
    match decodeKeyList bytes with
    | none => .error (.ringUndecodable height)
    | some keys => .ok (keys.map delete ++ [delete (metaKeysAt height)])

/-- `unwind_to`: delete what is recorded for the heights above `ancestor`, newest first. -/
def unwindTo (s : Store) (ancestor upto : Nat) : Except IndexError Store := do
  let ops ← (heights (ancestor + 1) upto).reverse.mapM (unwindRing s)
  pure (s.writeAll (ops.flatten ++ [put metaHead (beBytes ancestor)]))

/-! ## Gap repair -/

/-- A write and the height in whose ring its key is recorded. -/
abbrev Placed := Nat × WriteOp

/-- The key as `BTreeMap` orders it. -/
def StoreKey.bytes (k : StoreKey) : Bytes := k.store.toU8 :: k.key

def gapKeys (records : List (Nat × List UndoEntry)) : List StoreKey :=
  ((records.flatMap (·.2)).map (·.key)).dedup.insertionSort fun k l => (compare k.bytes l.bytes).isLE

/-- `per_key[key]`: the heights at which the key was written, with its value before. -/
def writesOf (records : List (Nat × List UndoEntry)) (k : StoreKey) : List (Nat × Option Bytes) :=
  records.flatMap fun r => (r.2.filter (·.key = k)).map fun e => (r.1, e.before)

variable (src : Sources)

/-- The value after the last write inside the gap: the next block's pre-image, or the live value. -/
def finalValue (next : List DeltaRef) (k : StoreKey) : Except IndexError (Option Bytes) :=
  match next.find? (·.key = k) with
  | some d => .ok d.before
  | none =>
    match src.live k.store with
    | some live => .ok (live k.key)
    | none => .error (.noLiveBackend k.store)

/-- The value of the key before its first write is pinned at the base, if no row is there. -/
def pinAt (s : Store) (base : Nat) (k : StoreKey) (height : Nat) (before : Option Bytes) : List Placed :=
  if s.contents (rowKey k base) = none then [(height, put (rowKey k base) (encValue before))] else []

/-- The rows of one key: every write is followed by the value before the next one. -/
def placeKey (s : Store) (base : Nat) (records : List (Nat × List UndoEntry))
    (next : List DeltaRef) (k : StoreKey) : Except IndexError (List Placed) := do
  let final ← finalValue src next k
  let writes := writesOf records k
  let posts := writes.tail.map (·.2) ++ [final]
  let rows := List.zipWith (fun w post => (w.1, put (rowKey k w.1) (encValue post))) writes posts
  pure (rows ++ writes.head?.elim [] fun w => pinAt s base k w.1 w.2)

def ringOf (placed : List Placed) (height : Nat) : List Bytes :=
  (placed.filter (·.1 = height)).map (·.2.key)

def repairGap (s : Store) (first last : Nat) (next : List DeltaRef) :
    Except IndexError Store := do
  let undo ← match src.undo with
    | some undo => .ok undo
    | none => .error .noUndoStore
  let base := (baseHeight s).getD (first - 1)
  let records ← (heights first last).mapM fun g =>
    match undo g with
    | some record => .ok (g, record)
    | none => .error (.notRetained g)
  let placed := (← (gapKeys records).mapM (placeKey src s base records next)).flatten
  let rings := ((heights first last).filter fun g => ringOf placed g ≠ []).map fun g =>
    put (metaKeysAt g) (encodeKeyList (ringOf placed g))
  pure (s.writeAll (placed.map (·.2) ++ rings))

/-! ## Capture -/

def ringDepth : Nat := 512

/-- The rows of a block, each with its pin. -/
def captureRows (s : Store) (base height : Nat) (deltas : List DeltaRef) : List Placed :=
  deltas.flatMap fun d =>
    (height, put (rowKey d.key height) (encValue d.after)) :: pinAt s base d.key height d.before

/-- The heights whose rings leave the reorg window. -/
def expired (prevHead height : Nat) : List Nat :=
  heights (max (prevHead + 1 - ringDepth) 1) (height - ringDepth)

def captureOps (s : Store) (base prevHead height : Nat) (deltas : List DeltaRef) : List WriteOp :=
  let placed := captureRows s base height deltas
  placed.map (·.2) ++ put (metaKeysAt height) (encodeKeyList (placed.map (·.2.key))) ::
    ((expired prevHead height).map fun h => delete (metaKeysAt h)) ++ [put metaHead (beBytes height)]

/-- What comes before the capture, by where the block stands. -/
def prepare (s : Store) (height : Nat) (deltas : List DeltaRef) : Except IndexError Store :=
  match head s with
  | none => .ok (s.writeAll [put metaBase (beBytes (height - 1)), put metaHead (beBytes (height - 1))])
  | some h =>
    if height ≤ h then
      match unwindTo s (height - 1) h with
      | .ok s' => .ok s'
      | .error _ => resetCoverage s (height - 1)
    else if h + 1 < height then
      match repairGap src s (h + 1) (height - 1) deltas with
      | .ok s' => .ok s'
      | .error _ => resetCoverage s (height - 1)
    else .ok s

def onBlockApplied (s : Store) (height : Nat) :
    Option (List DeltaRef) → Except IndexError Store
  | none => resetCoverage s height
  | some deltas => do
    let s' ← prepare src s height deltas
    let base := (baseHeight s').getD (height - 1)
    pure (s'.writeAll (captureOps s' base ((head s).getD (height - 1)) height deltas))

/-! ## Retention -/

def chunkSize : Nat := 4096

def flushAt : Nat := 50000

/-- What a pass holds in memory. -/
structure Pass where
  cur : Bytes
  group : Bytes
  pastAnchor : Bool
  ops : List WriteOp

/-- One version row: rows older than the anchor are deleted, an anchor below the floor is pinned again
at the floor. -/
def Pass.row (floor : Nat) (p : Pass) (key value group : Bytes) (height : Nat) : Pass :=
  if group = p.group ∧ p.pastAnchor then { p with ops := p.ops ++ [delete key] }
  else if height ≤ floor then
    { p with
      group := group, pastAnchor := true
      ops := if height < floor then p.ops ++ [put (group ++ heightDesc floor) value, delete key] else p.ops }
  else { p with group := group, pastAnchor := false }

/-- The rows of a chunk; `true` when the scan left the version rows. -/
def Pass.rows (floor : Nat) : List (Bytes × Bytes) → Pass → Pass × Bool
  | [], p => (p, false)
  | (key, value) :: rest, p =>
    match splitRowKey key with
    | none => if key.head? ≠ some tagRow then (p, true) else Pass.rows floor rest p
    | some (group, height) => Pass.rows floor rest (p.row floor key value group height)

/-- Where a pass stands: a flush is followed by the commit when the chunk was the last one. -/
inductive Phase
  | start
  | scan
  | flush (last : Bool)
  | commit
  | done
  deriving DecidableEq

structure Prune where
  phase : Phase
  pass : Pass

/-- A pass that has not begun. -/
def Prune.begin : Prune := ⟨.start, ⟨[tagRow], [], false, []⟩⟩

/-- What a pass does between two points at which others may write. -/
def passStep (floor : Nat) (s : Store) (p : Prune) : Store × Prune :=
  match p.phase with
  | .start =>
    if floor ≤ (baseHeight s).getD floor then (s, { p with phase := .done })
    else (s.write (put metaBase (beBytes floor)), { p with phase := .scan })
  | .scan =>
    let chunk := s.reads.scanFrom p.pass.cur chunkSize
    match chunk.getLast? with
    | none => (s, { p with phase := .commit })
    | some last =>
      let (pass, left) := p.pass.rows floor chunk
      if left then (s, ⟨.commit, pass⟩)
      else
        let ended := decide (chunk.length < chunkSize)
        let phase := if flushAt ≤ pass.ops.length then .flush ended else if ended then .commit else .scan
        (s, ⟨phase, { pass with cur := cursorAfter last.1 }⟩)
  | .flush ended =>
    (s.writeAll p.pass.ops, ⟨if ended then .commit else .scan, { p.pass with ops := [] }⟩)
  | .commit => (s.writeAll p.pass.ops, ⟨.done, { p.pass with ops := [] }⟩)
  | .done => (s, p)

def passRun (floor : Nat) : Nat → Store × Prune → Store × Prune
  | 0, x => x
  | fuel + 1, x => passRun floor fuel (passStep floor x.1 x.2)

/-- Remove the versions older than `floor`. -/
def pruneBelow (s : Store) (floor : Nat) : Store := (passRun floor (2 * s.size + 8) (s, .begin)).1

def maxI64 : Nat := 0x7FFFFFFFFFFFFFFF

def pruneForWindow (s : Store) (headHeight retainBlocks solidified : Nat) : Store :=
  match head s with
  | none => s
  | some _ => pruneBelow s (min (headHeight - min retainBlocks maxI64) solidified)

/-! ## Reads -/

/-- The value of a key as of a height: one seek. -/
def valueAt (s : Store) (k : StoreKey) (height : Nat) : AtHeight :=
  let seek := rowKey k height
  match (s.reads.scanFrom seek 1).head? with
  | some (key, v) =>
    if key.length = seek.length ∧ key.take (seek.length - 8) = seek.take (seek.length - 8) then decValue v
    else .notCovered
  | none => .notCovered

/-- One store as of a height. -/
structure ArchiveAtBackend where
  live : Contents
  reader : Store
  store : StoreId
  height : Nat

def ArchiveAtBackend.get (a : ArchiveAtBackend) (key : Bytes) : Option Bytes :=
  match valueAt a.reader ⟨a.store, key⟩ a.height with
  | .value v => some v
  | .deleted => none
  | .notCovered => a.live key

end TronGoblin.Archive
