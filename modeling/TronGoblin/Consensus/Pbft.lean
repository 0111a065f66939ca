import Mathlib.Data.List.Sort
import TronGoblin.Chainbase.Backend
import TronGoblin.Lib.Assoc
import TronGoblin.Lib.BigEndian

/-!
# PBFT votes

Model of `tron-consensus/src/pbft.rs` and `sr_epoch.rs`: messages and payloads, the vote tally, the
detector of double signing, and the two most recent lists of super representatives.

* `recordVote`: one vote for one payload; a signer that comes back with another signature is dropped.
* `PbftVoteTally`: the tallies of all payloads, with what drops them: `forget`, `pruneBelow`,
  `expireStale`.
* `EquivocationDetector.record`: two messages of one signer that differ in the payload only.
* `blockDataPayload_parse`: a payload that parses is the payload of what it parses to.
-/

namespace TronGoblin

open Assoc (Table)

/-! ## Messages -/

abbrev Address := { a : Bytes // a.length = 21 }

abbrev BlockHash := { h : Bytes // h.length = 32 }

inductive MsgType
  | viewChange | request | preprepare | prepare | commit
  deriving DecidableEq

/-- The number on the wire. -/
def MsgType.code : MsgType → Int
  | viewChange => 0
  | request => 1
  | preprepare => 2
  | prepare => 3
  | commit => 4

def MsgType.tryFrom (n : Int) : Option MsgType :=
  [viewChange, request, preprepare, prepare, commit].find? fun t => t.code = n

inductive DataType
  | block | srl
  deriving DecidableEq

/-- The number on the wire. -/
def DataType.code : DataType → Int
  | block => 0
  | srl => 1

/-- The signed part of a message; the two types are whatever the wire carries. -/
structure PbftRaw where
  msgType : Int
  dataType : Int
  viewN : Int
  epoch : Int
  data : Bytes
  deriving DecidableEq

structure PbftMessage where
  rawData : Option PbftRaw
  signature : Bytes
  deriving DecidableEq

/-- `recover_signer`, and `sign_pbft_raw` with the key of the local witness. -/
structure PbftCrypto where
  recoverSigner : PbftMessage → Option Address
  sign : PbftRaw → Except String Bytes

/-- What `cast_prepare` and `cast_commit` sign. -/
def voteRaw (type : MsgType) (epoch viewN : Int) (dataType : DataType) (data : Bytes) : PbftRaw :=
  ⟨type.code, dataType.code, viewN, epoch, data⟩

variable (crypto : PbftCrypto)

def castVote (type : MsgType) (epoch viewN : Int) (dataType : DataType) (data : Bytes) : Except String PbftMessage :=
  (crypto.sign (voteRaw type epoch viewN dataType data)).map
    (⟨some (voteRaw type epoch viewN dataType data), ·⟩)

theorem castVote_eq {crypto : PbftCrypto} {type : MsgType} {epoch viewN : Int} {d : DataType} {data : Bytes}
    {msg : PbftMessage} (h : castVote crypto type epoch viewN d data = .ok msg) :
    ∃ signature, msg = ⟨some (voteRaw type epoch viewN d data), signature⟩ := by
  unfold castVote at h
  cases hsign : crypto.sign (voteRaw type epoch viewN d data) with
  | error e =>
    rw [hsign] at h
    cases h
  | ok signature =>
    rw [hsign] at h
    cases h
    exact ⟨signature, rfl⟩

def castPrepare := castVote crypto .prepare

def castCommit := castVote crypto .commit

/-! ## Payloads -/

/-- The number, big-endian, and the hash. -/
def blockDataPayload (blockNum : Int) (blockHash : BlockHash) : Bytes :=
  BigEndian.encodeI64 blockNum ++ blockHash.val

def parseBlockDataPayload (data : Bytes) : Option (Int × BlockHash) :=
  if h : data.length = 40 then
    some (BigEndian.decodeI64 (data.take 8), ⟨data.drop 8, by rw [List.length_drop, h]⟩)
  else none

theorem blockDataPayload_parse {data : Bytes} {num : Int} {hash : BlockHash}
    (h : parseBlockDataPayload data = some (num, hash)) : blockDataPayload num hash = data := by
  unfold parseBlockDataPayload at h
  split at h
  · obtain ⟨rfl, rfl⟩ := Prod.mk.inj (Option.some.inj h)
    have htake : (data.take 8).length = 8 := by
      rw [List.length_take]
      omega
    rw [blockDataPayload, BigEndian.encodeI64_decodeI64 htake]
    exact List.take_append_drop 8 data
  · cases h

/-- The protobuf encoding of an `SRL`: each address is field 1, of 21 bytes. -/
def srlDataPayload (srAddresses : List Address) : Bytes :=
  srAddresses.flatMap fun a => 0x0a :: 21 :: a.val

/-! ## The tally of one payload -/

/-- `floor(2N/3) + 1`, or `usize::MAX` when there is nobody to vote. -/
def agreeNodeCount (activeWitnessCount : Nat) : Nat :=
  if activeWitnessCount = 0 then 0xffffffffffffffff else activeWitnessCount * 2 / 3 + 1

inductive VoteRecord
  | fresh
  | duplicate
  | equivocation (signer : Address) (firstSignature conflictingSignature : Bytes)
  deriving DecidableEq

/-- The recorded votes of one phase, with their signatures. -/
abbrev Votes := Table Address Bytes

/-- One more vote: counted once, and not at all if the signer has used two signatures. -/
def recordVote (votes : Votes) (signer : Address) (signature : Bytes) : VoteRecord × Votes :=
  match votes.lookup signer with
  | some existing =>
    if existing = signature then (.duplicate, votes)
    else (.equivocation signer existing signature, votes.erase signer)
  | none => (.fresh, votes.insert signer signature)

structure BlockVoteTally where
  prepareVotes : Votes
  commitVotes : Votes
  broadcastPrepare : Bool
  broadcastCommit : Bool

namespace BlockVoteTally

def new : BlockVoteTally := ⟨∅, ∅, false, false⟩

def recordPrepare (t : BlockVoteTally) (signer : Address) (signature : Bytes) : VoteRecord × BlockVoteTally :=
  let r := recordVote t.prepareVotes signer signature
  (r.1, { t with prepareVotes := r.2 })

def recordCommit (t : BlockVoteTally) (signer : Address) (signature : Bytes) : VoteRecord × BlockVoteTally :=
  let r := recordVote t.commitVotes signer signature
  (r.1, { t with commitVotes := r.2 })

def prepareThresholdMet (t : BlockVoteTally) (activeCount : Nat) : Bool :=
  agreeNodeCount activeCount ≤ Assoc.size t.prepareVotes

def commitThresholdMet (t : BlockVoteTally) (activeCount : Nat) : Bool :=
  agreeNodeCount activeCount ≤ Assoc.size t.commitVotes

/-- The order of addresses, byte by byte. -/
def lexLe : Bytes → Bytes → Bool
  | [], _ => true
  | _ :: _, [] => false
  | a :: as, b :: bs => a.toNat < b.toNat || (a.toNat == b.toNat && lexLe as bs)

/-- `commit_signatures().values()`: in the order of the signers. -/
def commitSignatures (t : BlockVoteTally) : List Bytes :=
  (t.commitVotes.entries.insertionSort fun a b => lexLe a.1.val b.1.val = true).map (·.2)

end BlockVoteTally

/-! ## The tallies of all payloads -/

structure PbftVoteTally where
  blocks : Table Bytes BlockVoteTally
  firstSeenMs : Table Bytes Int

def voteTimeoutMs : Int := 60000

namespace PbftVoteTally

def new : PbftVoteTally := ⟨∅, ∅⟩

variable (t : PbftVoteTally) (key : Bytes)

/-- The tally of a payload; empty if there is none yet. -/
def entry : BlockVoteTally := (t.blocks.lookup key).getD .new

variable (nowMs : Int)

/-- `entry_with_time`, and what the caller then does to the entry. -/
def withEntry (e : BlockVoteTally) :
    PbftVoteTally where
  blocks := t.blocks.insert key e
  firstSeenMs := if t.firstSeenMs.lookup key = none then t.firstSeenMs.insert key nowMs
    else t.firstSeenMs

def forget : PbftVoteTally :=
  ⟨t.blocks.erase key, t.firstSeenMs.erase key⟩

/-- Whether `prune_below` keeps a payload: one that does not parse stays. -/
def keptFrom (threshold : Int) (key : Bytes) : Bool :=
  match parseBlockDataPayload key with
  | some (n, _) => threshold ≤ n
  | none => true

def pruneBelow (threshold : Int) : PbftVoteTally where
  blocks := Assoc.retain (fun key _ => keptFrom threshold key) t.blocks
  firstSeenMs := Assoc.retain (fun key _ => keptFrom threshold key) t.firstSeenMs

/-- The payloads that timed out; `saturating_sub` stops at the least `i64`. -/
def stale : List Bytes :=
  (t.firstSeenMs.entries.filter fun e => e.2 < max (nowMs - voteTimeoutMs) (-0x8000000000000000)).map (·.1)

def expireStale : PbftVoteTally :=
  (t.stale nowMs).foldl forget t

end PbftVoteTally

/-! ## Double signing -/

structure EquivocationKey where
  epoch : Int
  viewN : Int
  msgType : Int
  dataType : Int
  signer : Address
  deriving DecidableEq

structure EquivocationEvidence where
  signer : Address
  epoch : Int
  viewN : Int
  msgType : Int
  dataType : Int
  first : PbftMessage
  conflicting : PbftMessage
  deriving DecidableEq

structure ObservedVote where
  data : Bytes
  msg : PbftMessage

structure EquivocationDetector where
  firstSeen : Table EquivocationKey ObservedVote
  evidence : List EquivocationEvidence
  evidenceCap : Nat

namespace EquivocationDetector

def new (evidenceCap : Nat) : EquivocationDetector := ⟨∅, [], max evidenceCap 1⟩

def pushEvidence (det : EquivocationDetector) (ev : EquivocationEvidence) : EquivocationDetector :=
  { det with
    evidence := (if det.evidenceCap ≤ det.evidence.length then det.evidence.drop 1 else det.evidence) ++ [ev] }

def key (signer : Address) (raw : PbftRaw) : EquivocationKey :=
  ⟨raw.epoch, raw.viewN, raw.msgType, raw.dataType, signer⟩

def record (det : EquivocationDetector) (signer : Address) (msg : PbftMessage) :
    Option EquivocationEvidence × EquivocationDetector :=
  match msg.rawData with
  | none => (none, det)
  | some raw =>
    match det.firstSeen.lookup (key signer raw) with
    | some prev =>
      if prev.data = raw.data then (none, det)
      else
        let ev : EquivocationEvidence :=
          ⟨signer, raw.epoch, raw.viewN, raw.msgType, raw.dataType, prev.msg, msg⟩
        (some ev, det.pushEvidence ev)
    | none => (none, { det with firstSeen := det.firstSeen.insert (key signer raw) ⟨raw.data, msg⟩ })

end EquivocationDetector

/-! ## The lists of super representatives -/

structure SrEpochSnapshot where
  current : List Address
  before : List Address
  beforeMaintenanceTimeMs : Int
  deriving DecidableEq

namespace SrEpochSnapshot

def fromCurrent (current : List Address) : SrEpochSnapshot := ⟨current, [], 0⟩

/-- The list that a message of this epoch is checked against. -/
def activeSetForEpoch (snap : SrEpochSnapshot) (epoch : Int) : List Address :=
  if snap.beforeMaintenanceTimeMs < epoch then snap.current else snap.before

def rotate (prevActive newActive : List Address) (beforeMaintenanceTimeMs : Int) : SrEpochSnapshot :=
  ⟨newActive, prevActive, beforeMaintenanceTimeMs⟩

end SrEpochSnapshot

end TronGoblin
