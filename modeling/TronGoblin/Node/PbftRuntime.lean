import Mathlib.Data.Finset.Card
import TronGoblin.Consensus.Pbft

/-!
# The PBFT runtime

Model of `PbftRuntime` (`tron-node/src/pbft_runtime.rs`), the vote-driving loop of one super
representative.  A call reads the clock once; the stores of the node are what the runtime reads from
and writes to them, with `pbftSignData` kept as the list of its puts.  Blocks and witness lists run
through the same two phases over two tallies, `tallyOf`.

* `handleInbound`: one message from the wire; `onLocalBlock`: a block seen locally; `tick`: the
  timer.
* `PbftInput`, `step`, `run`: everything that can happen to the runtime, in any order.
-/

namespace TronGoblin

inductive PbftRuntimeError
  | malformed (text : String)
  | sign (text : String)
  | storage (text : String)
  deriving DecidableEq

/-- `PbftSignDataStore::block_key` and `sr_list_key`. -/
inductive SignDataKey
  | block (num : Int)
  | srList (epoch : Int)
  deriving DecidableEq

/-- One `put_commit_result`. -/
structure CommitResult where
  key : SignDataKey
  raw : PbftRaw
  signatures : List Bytes
  deriving DecidableEq

structure PbftRuntime where
  /-- The address of the local witness. -/
  identity : Address
  tally : PbftVoteTally
  srlTally : PbftVoteTally
  lastSrlCycle : Int
  historyCap : Int
  srSnapshot : Option SrEpochSnapshot
  equivocation : EquivocationDetector
  viewChangeCount : Nat
  /-- What `WitnessScheduleStore::load_active` returns. -/
  witnessSchedule : Except String (Option (List Address))
  currentCycleNumber : Int
  latestSolidifiedBlockNum : Option Int
  /-- `LATEST_PBFT_BLOCK_NUM`, if the database is attached. -/
  latestPbftBlockNum : Option Int
  /-- The commit results put so far. -/
  pbftSignData : List CommitResult
  /-- The messages sent so far. -/
  outbound : List PbftMessage

/-! ## The two tallies -/

namespace PbftVoteTally

variable (t : PbftVoteTally) (key : Bytes) (nowMs : Int)

/-- The locked section of a Prepare: record the vote; whether our own Commit is due. -/
def votePrepare (signer : Address) (signature : Bytes) (activeCount : Nat) : Bool × PbftVoteTally :=
  let e := ((t.entry key).recordPrepare signer signature).2
  let need := e.prepareThresholdMet activeCount && !e.broadcastCommit
  (need, t.withEntry key nowMs { e with broadcastCommit := need || e.broadcastCommit })

/-- The locked section of a Commit: record the vote; whether the threshold is met. -/
def voteCommit (signer : Address) (signature : Bytes) (activeCount : Nat) : Bool × PbftVoteTally :=
  let e := ((t.entry key).recordCommit signer signature).2
  (e.commitThresholdMet activeCount, t.withEntry key nowMs e)

/-- The locked section of a local block: whether our Prepare had been sent. -/
def markPrepared : Bool × PbftVoteTally :=
  ((t.entry key).broadcastPrepare, t.withEntry key nowMs { t.entry key with broadcastPrepare := true })

def ownPrepare (identity : Address) (signature : Bytes) : PbftVoteTally :=
  t.withEntry key nowMs ((t.entry key).recordPrepare identity signature).2

def ownCommit (identity : Address) (signature : Bytes) : PbftVoteTally :=
  t.withEntry key nowMs ((t.entry key).recordCommit identity signature).2

end PbftVoteTally

namespace PbftRuntime

variable (crypto : PbftCrypto) (s : PbftRuntime)

def tallyOf : DataType → PbftVoteTally
  | .block => s.tally
  | .srl => s.srlTally

variable (d : DataType)

def setTally (t : PbftVoteTally) : PbftRuntime :=
  match d with
  | .block => { s with tally := t }
  | .srl => { s with srlTally := t }

/-- `PbftRuntime::new` over the given stores, with the snapshot and the database attached or not. -/
def new (identity : Address) (srSnapshot : Option SrEpochSnapshot)
    (witnessSchedule : Except String (Option (List Address))) (currentCycleNumber : Int)
    (latestSolidifiedBlockNum latestPbftBlockNum : Option Int) : PbftRuntime where
  identity := identity
  tally := .new
  srlTally := .new
  lastSrlCycle := 0
  historyCap := 1024
  srSnapshot := srSnapshot
  equivocation := .new 256
  viewChangeCount := 0
  witnessSchedule := witnessSchedule
  currentCycleNumber := currentCycleNumber
  latestSolidifiedBlockNum := latestSolidifiedBlockNum
  latestPbftBlockNum := latestPbftBlockNum
  pbftSignData := []
  outbound := []

def loadActiveSet : Except PbftRuntimeError (Finset Address) :=
  match s.witnessSchedule with
  | .error e => .error (.storage ("load_active: " ++ e))
  | .ok list => .ok (list.getD []).toFinset

def loadActiveSetForEpoch (epoch : Int) : Except PbftRuntimeError (Finset Address) :=
  match s.srSnapshot with
  | some snap => .ok (snap.activeSetForEpoch epoch).toFinset
  | none => s.loadActiveSet

/-! ## Our own votes -/

def sendPrepare (epoch viewN : Int) (data : Bytes) (nowMs : Int) : Except PbftRuntimeError Unit × PbftRuntime :=
  match castPrepare crypto epoch viewN d data with
  | .error e => (.error (.sign e), s)
  | .ok msg =>
    (.ok (), { s.setTally d ((s.tallyOf d).ownPrepare data nowMs s.identity msg.signature) with
      outbound := s.outbound ++ [msg] })

def sendCommit (epoch viewN : Int) (data : Bytes) (nowMs : Int) : Except PbftRuntimeError Unit × PbftRuntime :=
  match castCommit crypto epoch viewN d data with
  | .error e => (.error (.sign e), s)
  | .ok msg =>
    (.ok (), { s.setTally d ((s.tallyOf d).ownCommit data nowMs s.identity msg.signature) with
      outbound := s.outbound ++ [msg] })

/-- Send our Prepare for a payload, unless it has been sent. -/
def announce (epoch viewN : Int) (data : Bytes) (nowMs : Int) : Except PbftRuntimeError Unit × PbftRuntime :=
  let marked := (s.tallyOf d).markPrepared data nowMs
  if marked.1 then (.ok (), s.setTally d marked.2)
  else sendPrepare crypto (s.setTally d marked.2) d epoch viewN data nowMs

def onLocalBlock (blockNum : Int) (blockHash : BlockHash) (epoch nowMs : Int) :
    Except PbftRuntimeError Unit × PbftRuntime :=
  announce crypto s .block epoch 0 (blockDataPayload blockNum blockHash) nowMs

/-- `cast_our_srl_prepare`: the view is the epoch, and a failure to sign is ignored. -/
def castOurSrlPrepare (epoch : Int) (payload : Bytes) (nowMs : Int) : PbftRuntime :=
  (announce crypto s .srl epoch epoch payload nowMs).2

/-! ## Inbound messages -/

def recordEquivocationIfAny (signer : Address) (msg : PbftMessage) : PbftRuntime :=
  { s with equivocation := (s.equivocation.record signer msg).2 }

def handleViewChange : Except PbftRuntimeError Unit × PbftRuntime :=
  (.ok (), { s with viewChangeCount := min (s.viewChangeCount + 1) 0xffffffffffffffff })

variable (raw : PbftRaw)

def prepareVoted (signer : Address) (signature : Bytes) (active : Finset Address) (nowMs : Int) :
    Except PbftRuntimeError Unit × PbftRuntime :=
  let voted := (s.tallyOf d).votePrepare raw.data nowMs signer signature active.card
  if voted.1 then sendCommit crypto (s.setTally d voted.2) d raw.epoch raw.viewN raw.data nowMs
  else (.ok (), s.setTally d voted.2)

def handlePrepare (signer : Address) (signature : Bytes)
    (active : Finset Address) (nowMs : Int) : Except PbftRuntimeError Unit × PbftRuntime :=
  prepareVoted crypto s .block raw signer signature active nowMs

def signaturesOf (t : PbftVoteTally) (key : Bytes) : List Bytes :=
  ((t.blocks.lookup key).map (·.commitSignatures)).getD []

/-- A block is final: its number goes to the two counters, and old votes are dropped. -/
def solidify (blockNum : Int) (raw : PbftRaw) : PbftRuntime :=
  { s with
    pbftSignData := s.pbftSignData ++ [⟨.block blockNum, raw, signaturesOf s.tally raw.data⟩]
    latestSolidifiedBlockNum :=
      if s.latestSolidifiedBlockNum.getD 0 < blockNum then some blockNum
      else s.latestSolidifiedBlockNum
    latestPbftBlockNum := s.latestPbftBlockNum.map fun latest =>
      if blockNum ≤ latest then latest else blockNum
    tally := (s.tally.forget raw.data).pruneBelow (BigEndian.wrapI64 (blockNum - s.historyCap)) }

/-- `put` is what the store answers to the put of the commit result. -/
def handleCommit (signer : Address) (signature : Bytes)
    (active : Finset Address) (nowMs : Int) (put : Except String Unit) :
    Except PbftRuntimeError Unit × PbftRuntime :=
  let voted := s.tally.voteCommit raw.data nowMs signer signature active.card
  let s := { s with tally := voted.2 }
  if voted.1 then
    match parseBlockDataPayload raw.data with
    | none => (.error (.malformed "bad data payload in commit handler"), s)
    | some (blockNum, _) =>
      match put with
      | .error e => (.error (.storage e), s)
      | .ok () => (.ok (), s.solidify blockNum raw)
  else (.ok (), s)

/-- A Commit for a list of representatives. -/
def handleSrlCommit (signer : Address) (signature : Bytes)
    (active : Finset Address) (nowMs : Int) (put : Except String Unit) :
    Except PbftRuntimeError Unit × PbftRuntime :=
  let voted := s.srlTally.voteCommit raw.data nowMs signer signature active.card
  let s := { s with srlTally := voted.2 }
  if voted.1 then
    match put with
    | .error e => (.error (.storage e), s)
    | .ok () =>
      (.ok (), { s with
        pbftSignData := s.pbftSignData ++ [⟨.srList raw.epoch, raw, signaturesOf s.srlTally raw.data⟩]
        srlTally := s.srlTally.forget raw.data })
  else (.ok (), s)

variable (msg : PbftMessage)

def handleSrlInbound (raw : PbftRaw) (nowMs : Int)
    (put : Except String Unit) : Except PbftRuntimeError Unit × PbftRuntime :=
  match crypto.recoverSigner msg with
  | none => (.error (.malformed "SRL signature recovery failed"), s)
  | some signer =>
    match s.loadActiveSetForEpoch raw.epoch with
    | .error e => (.error e, s)
    | .ok active =>
      if signer ∈ active then
        let s := s.recordEquivocationIfAny signer msg
        match MsgType.tryFrom raw.msgType with
        | some .preprepare => (.ok (), castOurSrlPrepare crypto s raw.epoch raw.data nowMs)
        | some .prepare => prepareVoted crypto s .srl raw signer msg.signature active nowMs
        | some .commit => handleSrlCommit s raw signer msg.signature active nowMs put
        | _ => (.ok (), s)
      else (.ok (), s)

def handleBlockInbound (raw : PbftRaw) (nowMs : Int)
    (put : Except String Unit) : Except PbftRuntimeError Unit × PbftRuntime :=
  match parseBlockDataPayload raw.data with
  | none => (.error (.malformed "bad data payload"), s)
  | some (blockNum, blockHash) =>
    match crypto.recoverSigner msg with
    | none => (.error (.malformed "signature recovery failed"), s)
    | some signer =>
      match s.loadActiveSetForEpoch raw.epoch with
      | .error e => (.error e, s)
      | .ok active =>
        if signer ∈ active then
          let s := s.recordEquivocationIfAny signer msg
          match MsgType.tryFrom raw.msgType with
          | some .prepare => handlePrepare crypto s raw signer msg.signature active nowMs
          | some .commit => handleCommit s raw signer msg.signature active nowMs put
          | some .preprepare => onLocalBlock crypto s blockNum blockHash raw.epoch nowMs
          | some .viewChange => handleViewChange s
          | some .request => (.ok (), s)
          | none => (.ok (), s)
        else (.ok (), s)

def handleInbound (nowMs : Int) (put : Except String Unit) : Except PbftRuntimeError Unit × PbftRuntime :=
  match msg.rawData with
  | none => (.error (.malformed "missing raw_data"), s)
  | some raw =>
    if raw.dataType = DataType.srl.code then handleSrlInbound crypto s msg raw nowMs put
    else if raw.dataType ≠ DataType.block.code then (.ok (), s)
    else handleBlockInbound crypto s msg raw nowMs put

/-! ## The timer -/

/-- The list that a new cycle makes the runtime announce, if it can be read. -/
def srlDue : Option (List Address) :=
  if s.currentCycleNumber ≤ s.lastSrlCycle ∨ s.currentCycleNumber = 0 then none
  else match s.witnessSchedule with
    | .ok (some list) => some list
    | _ => none

def maybeCastSrlOnCycleAdvance (nowMs : Int) : PbftRuntime :=
  match s.srlDue with
  | none => s
  | some list =>
    { castOurSrlPrepare crypto s s.currentCycleNumber (srlDataPayload list) nowMs with
      lastSrlCycle := s.currentCycleNumber }

/-- The timer arm of `run`. -/
def tick (nowMs : Int) : PbftRuntime :=
  maybeCastSrlOnCycleAdvance crypto
    { s with tally := s.tally.expireStale nowMs, srlTally := s.srlTally.expireStale nowMs } nowMs

/-! ## Runs -/

end PbftRuntime

/-- What can happen to a runtime: a call, or a change of what it reads. -/
inductive PbftInput
  | inbound (msg : PbftMessage) (nowMs : Int) (put : Except String Unit)
  | localBlock (blockNum : Int) (blockHash : BlockHash) (epoch nowMs : Int)
  | tick (nowMs : Int)
  /-- A rotation of the shared snapshot. -/
  | rotate (prevActive newActive : List Address) (beforeMaintenanceTimeMs : Int)
  /-- The chain has moved on. -/
  | chain (cycleNumber : Int) (witnessSchedule : Except String (Option (List Address)))

namespace PbftRuntime

variable (crypto : PbftCrypto)

def step (s : PbftRuntime) : PbftInput → PbftRuntime
  | .inbound msg nowMs put => (handleInbound crypto s msg nowMs put).2
  | .localBlock num hash epoch nowMs => (onLocalBlock crypto s num hash epoch nowMs).2
  | .tick nowMs => tick crypto s nowMs
  | .rotate prev new time =>
    { s with srSnapshot := s.srSnapshot.map fun _ => SrEpochSnapshot.rotate prev new time }
  | .chain cycle schedule => { s with currentCycleNumber := cycle, witnessSchedule := schedule }

def run (s : PbftRuntime) (inputs : List PbftInput) : PbftRuntime := inputs.foldl (step crypto) s

end PbftRuntime

/-! ## Sample messages -/

namespace Sample

/-- Signatures that name their signer; the local witness is number 9. -/
def namedSigners : PbftCrypto where
  recoverSigner msg := if h : msg.signature.length = 21 then some ⟨msg.signature, h⟩ else none
  sign _ := .ok (List.replicate 21 9)

def address (n : UInt8) : Address := ⟨List.replicate 21 n, List.length_replicate⟩

def payload (num : Int) : Bytes := blockDataPayload num ⟨List.replicate 32 0, List.length_replicate⟩

def vote (type : MsgType) (n : UInt8) (epoch num : Int) : PbftMessage :=
  ⟨some (voteRaw type epoch 0 .block (payload num)), List.replicate 21 n⟩

/-- The vote arrives, and the stores work. -/
def arrives (msg : PbftMessage) : PbftInput := .inbound msg 0 (.ok ())

/-- The witness number 9 before any rotation. -/
def booted (active : List Address) : PbftRuntime :=
  .new (address 9) (some (.fromCurrent active)) (.ok none) 0 none none

end Sample

end TronGoblin
