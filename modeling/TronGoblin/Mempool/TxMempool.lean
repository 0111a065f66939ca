import TronGoblin.Chainbase.Backend
import TronGoblin.Lib.Assoc

/-!
# The transaction pool

Model of `TxMempool` (`tron-mempool/src/lib.rs`): the pending transactions, the record of recently
included ones, and the copy on disk.  Every operation takes the wall clock as an argument.

* `submitInner`: admission: `screen` holds the checks that leave the pool alone, `room` those made
  after the sweep.
* `lookup_remove`, `lookup_evictExpired`: what is left of a pending transaction.
-/

namespace TronGoblin

open Assoc

open Assoc (Table)

abbrev TxId := Bytes

structure RawData where
  expiration : Int
  /-- Its re-encoding. -/
  encoded : Bytes

structure Transaction where
  rawData : Option RawData
  signature : List Bytes

/-- The functions on wire bytes and signatures that admission calls. -/
structure TxCodec where
  decode : Bytes → Except String Transaction
  sha256 : Bytes → TxId
  /-- `sha256` of the `raw_data` span of the wire bytes, if it can be found. -/
  txIdFromTxBytes : Bytes → Option TxId
  recoverAllSigners : Transaction → TxId → Except String (List Bytes)

structure MempoolConfig where
  maxSize : Nat
  perTxMaxBytes : Nat
  maxBytes : Nat
  perSenderCap : Nat
  maxFutureExpirationMs : Int
  pendingTimeoutMs : Int
  localReserved : Nat
  recentlyIncludedTtlMs : Int
  recentlyIncludedMax : Nat

def MempoolConfig.default : MempoolConfig where
  maxSize := 2000
  perTxMaxBytes := 500 * 1024
  maxBytes := 128 * 1024 * 1024
  perSenderCap := 256
  maxFutureExpirationMs := 24 * 60 * 60 * 1000
  pendingTimeoutMs := 60000
  localReserved := 256
  recentlyIncludedTtlMs := 60 * 60 * 1000
  recentlyIncludedMax := 100000

inductive MempoolError
  | decode (msg : String)
  | missingRawData
  | noSignatures
  | expired (expirationMs nowMs : Int)
  | expirationTooFar (expirationMs nowMs maxWindowMs : Int)
  | badSignature (msg : String)
  | badSignatureLength (len : Nat)
  | duplicate
  | alreadyIncluded
  | full (size max : Nat)
  | txTooLarge (size max : Nat)
  | bytesFull (current incoming max : Nat)
  | senderLimit (pending cap : Nat)
  | validationFailed (reason : String)
  deriving DecidableEq

structure PendingTx where
  tx : Transaction
  rawBytes : Bytes
  txId : TxId
  receivedAtMs : Int
  expirationMs : Int
  sender : Option Bytes
  isLocal : Bool

structure TxMempool where
  config : MempoolConfig
  pending : Table TxId PendingTx
  /-- Recently included transactions, and until when each is remembered. -/
  recentlyIncluded : Table TxId Int
  /-- The order in which they were recorded. -/
  recentlyIncludedOrder : List TxId
  /-- The rows on disk, if the pool is persistent. -/
  persistence : Option (Kv.Map TxId Bytes)

/-- Expired, or waiting for longer than the timeout. -/
def PendingTx.stale (p : PendingTx) (pendingTimeoutMs now : Int) : Bool :=
  (0 < p.expirationMs && p.expirationMs ≤ now) ||
    (0 < pendingTimeoutMs && pendingTimeoutMs < now - p.receivedAtMs)

namespace TxMempool

/-! ## Sweeping, removing, forgetting -/

def evictExpiredInner (pool : TxMempool) (now : Int) : TxMempool :=
  { pool with
    pending := retain (fun _ p => !p.stale pool.config.pendingTimeoutMs now) pool.pending }

def unpersist (pool : TxMempool) (ids : List TxId) : TxMempool :=
  { pool with persistence := pool.persistence.map fun rows key => if key ∈ ids then none else rows key }

/-- The sweep that the node drives; unlike the one inside `submit_inner` it also clears the disk. -/
def evictExpired (pool : TxMempool) (now : Int) : TxMempool :=
  let evicted := (retain (fun _ p => p.stale pool.config.pendingTimeoutMs now) pool.pending).keys
  let included := retain (fun _ expiry => now < expiry) pool.recentlyIncluded
  { (pool.evictExpiredInner now).unpersist evicted with
    recentlyIncluded := included
    recentlyIncludedOrder := pool.recentlyIncludedOrder.dropWhile fun id => id ∉ included }

/-- Drop the oldest records until at most `max` are left. -/
def trimIncluded (max : Nat) : List TxId → Table TxId Int → Table TxId Int × List TxId
  | [], included => (included, [])
  | old :: order, included =>
    if size included ≤ max then (included, old :: order)
    else trimIncluded max order (included.erase old)

/-- Drop a transaction that has been included in a block, and remember it. -/
def remove (pool : TxMempool) (now : Int) (txId : TxId) : TxMempool :=
  let order := if txId ∈ pool.recentlyIncluded then pool.recentlyIncludedOrder
    else pool.recentlyIncludedOrder ++ [txId]
  let included := pool.recentlyIncluded.insert txId (now + pool.config.recentlyIncludedTtlMs)
  let trimmed := trimIncluded pool.config.recentlyIncludedMax order included
  let removed := { pool with
    pending := pool.pending.erase txId
    recentlyIncluded := trimmed.1
    recentlyIncludedOrder := trimmed.2 }
  if txId ∈ pool.pending then removed.unpersist [txId] else removed

theorem lookup_remove (pool : TxMempool) (now : Int) (txId k : TxId) :
    (pool.remove now txId).pending.lookup k = if k = txId then none else pool.pending.lookup k := by
  rw [← lookup_erase_eq]
  unfold remove
  dsimp only
  split <;> rfl

theorem config_remove (pool : TxMempool) (now : Int) (txId : TxId) : (pool.remove now txId).config = pool.config := by
  unfold remove
  dsimp only
  split <;> rfl

theorem lookup_evictExpired (pool : TxMempool) (now : Int) (k : TxId) :
    (pool.evictExpired now).pending.lookup k =
      (pool.pending.lookup k).filter fun p => !p.stale pool.config.pendingTimeoutMs now :=
  lookup_retain ..

def forgetIncluded (pool : TxMempool) (txId : TxId) : TxMempool :=
  { pool with recentlyIncluded := pool.recentlyIncluded.erase txId }

/-! ## Admission -/

variable (codec : TxCodec) (validator : Option (Transaction → Except String Unit))

/-- Neither pending nor recently included. -/
def checkFresh (pool : TxMempool) (now : Int) (txId : TxId) : Except MempoolError Unit :=
  if txId ∈ pool.pending then .error .duplicate
  else match pool.recentlyIncluded.lookup txId with
    | some expiry => if now < expiry then .error .alreadyIncluded else .ok ()
    | none => .ok ()

/-- The window in which a transaction's expiration must fall; `0` means that it has none. -/
def checkExpiration (config : MempoolConfig) (now expiration : Int) : Except MempoolError Unit :=
  if 0 < expiration then
    if expiration ≤ now then .error (.expired expiration now)
    else if now + config.maxFutureExpirationMs < expiration then
      .error (.expirationTooFar expiration now config.maxFutureExpirationMs)
    else .ok ()
  else .ok ()

/-- The checks before the sweep. -/
def screen (pool : TxMempool) (now : Int) (raw : Bytes) (isLocal : Bool) :
    Except MempoolError PendingTx := do
  if pool.config.perTxMaxBytes < raw.length then
    throw (.txTooLarge raw.length pool.config.perTxMaxBytes)
  let tx ← (codec.decode raw).mapError .decode
  match tx.rawData with
  | none => throw .missingRawData
  | some rawData =>
    if tx.signature.isEmpty then throw .noSignatures
    match tx.signature.find? fun sig => sig.length < 65 || 68 < sig.length with
    | some sig => throw (.badSignatureLength sig.length)
    | none => pure ()
    checkExpiration pool.config now rawData.expiration
    let txId := (codec.txIdFromTxBytes raw).getD (codec.sha256 rawData.encoded)
    let signers ← (codec.recoverAllSigners tx txId).mapError .badSignature
    pool.checkFresh now txId
    match validator with
    | some validate => (validate tx).mapError .validationFailed
    | none => pure ()
    -- once more, with the lock taken again
    pool.checkFresh now txId
    pure ⟨tx, raw, txId, now, rawData.expiration, signers.head?, isLocal⟩

/-- The checks after the sweep. -/
def room (pool : TxMempool) (p : PendingTx) : Except MempoolError Unit :=
  let cap := if p.isLocal then pool.config.maxSize else pool.config.maxSize - pool.config.localReserved
  let bytes := (values pool.pending).foldl (fun n p => n + p.rawBytes.length) 0
  let senderPending :=
    if p.sender.isSome then ((values pool.pending).filter (·.sender = p.sender)).length else 0
  if cap < size pool.pending then .error (.full (size pool.pending) cap)
  else if pool.config.maxBytes < bytes + p.rawBytes.length then
    .error (.bytesFull bytes p.rawBytes.length pool.config.maxBytes)
  else if p.sender.isSome && pool.config.perSenderCap ≤ senderPending then
    .error (.senderLimit senderPending pool.config.perSenderCap)
  else .ok ()

def insertPending (pool : TxMempool) (p : PendingTx) : TxMempool :=
  { pool with
    pending := pool.pending.insert p.txId p
    persistence := pool.persistence.map fun rows => Function.update rows p.txId (some p.rawBytes) }

def submitInner (pool : TxMempool) (now : Int) (raw : Bytes) (isLocal : Bool) : Except MempoolError TxId × TxMempool :=
  match pool.screen codec validator now raw isLocal with
  | .error e => (.error e, pool)
  | .ok p =>
    let swept := pool.evictExpiredInner now
    match swept.room p with
    | .error e => (.error e, swept)
    | .ok () => (.ok p.txId, swept.insertPending p)

def submitLocal (pool : TxMempool) (now : Int) (raw : Bytes) : Except MempoolError TxId × TxMempool :=
  pool.submitInner codec validator now raw true

end TxMempool

end TronGoblin
