import TronGoblin.Consensus.KhaosPush
import TronGoblin.Consensus.Slot
import TronGoblin.Mempool.TxMempool
import TronGoblin.Node.RefBlock

/-!
# Executing a block

Model of `execute_block_logic` and of the checks at the start of `execute_one_tx_isolated`
(`tron-executor/src/lib.rs`), over a ledger of which only the part is spelled out that the sync driver
reads as well.

* `refusal`: the checks of a transaction that come before its contract: size, expiration window.
* `executeTxs`: the transactions of a block in order, with what each of them did.
* `executeBlock`: a block on a state of the chain.  A state keeps the blocks that were executed to
  reach it.

The contracts, the block hash history, the rewards and the maintenance pass are parameters (`Env`), as
is the recovery of signers.
-/

namespace TronGoblin.Accept

open Assoc (Table)
open Proto (Block HeaderRaw)

variable {T σ : Type}

/-! ## The ledger -/

/-- What the sync driver reads of the state; `rest` is everything else. -/
structure Ledger (σ : Type) where
  latestBlockHeaderHash : Option BlockId
  latestBlockHeaderNumber : Option Int
  latestBlockHeaderTimestamp : Option Int
  genesisBlockTimestamp : Option Int
  /-- `state_flag = 1`. -/
  headWasMaintenance : Bool
  allowConsensusLogicOptimization : Bool
  /-- The active witnesses, if a schedule is stored. -/
  active : Option (List Address)
  /-- `latest_block_num` of every witness. -/
  witnesses : Table Address Int
  rest : σ

/-- What a transaction does beyond the executor's own bookkeeping. -/
structure TxEffects (σ : Type) where
  createdWitnesses : List Address
  rest : σ

/-- What the end of a block does: adaptive energy, missed slots, rewards, maintenance. -/
structure BlockEffects (σ : Type) where
  headWasMaintenance : Bool
  allowConsensusLogicOptimization : Bool
  active : Option (List Address)
  rest : σ

/-- The row of a new witness; an existing row stays. -/
def addWitness (rows : Table Address Int) (a : Address) : Table Address Int :=
  match rows.lookup a with
  | some _ => rows
  | none => rows.insert a 0

variable (l : Ledger σ)

def Ledger.applyTx (e : TxEffects σ) : Ledger σ :=
  { l with witnesses := e.createdWitnesses.foldl addWitness l.witnesses, rest := e.rest }

def Ledger.applyEnd (e : BlockEffects σ) : Ledger σ :=
  { l with
    headWasMaintenance := e.headWasMaintenance
    allowConsensusLogicOptimization := e.allowConsensusLogicOptimization
    active := e.active
    rest := e.rest }

/-- `latest_block_num` of the producer, if it is a witness. -/
def Ledger.recordProducer (raw : HeaderRaw) : Ledger σ :=
  match decodeWitnessAddress raw.witnessAddress with
  | none => l
  | some a =>
    match l.witnesses.lookup a with
    | none => l
    | some _ => { l with witnesses := l.witnesses.insert a raw.number }

def Ledger.setHead (id : BlockId) (raw : HeaderRaw) : Ledger σ :=
  { l with
    latestBlockHeaderHash := some id
    latestBlockHeaderNumber := some raw.number
    latestBlockHeaderTimestamp := some raw.timestamp }

/-- How transactions are read, and the parts of the node that are not modelled. -/
structure Env (T σ : Type) where
  sha256 : Bytes → Hash256
  encodeTransaction : T → Bytes
  rawOf : T → Option TxRaw
  /-- `raw_data.encode_to_vec()`. -/
  encodeRaw : T → Bytes
  /-- `tx_wire_infos_from_block_bytes`: the id of every transaction in the block's own bytes. -/
  txWireIds : Bytes → Option (List (Option TxId))
  /-- The block is signed by the key that its witness must use in this state. -/
  verifyWitness : Block T → Ledger σ → Except String Unit
  headSlot : Ledger σ → Int
  writeParentHash : Block T → Ledger σ → Except String σ
  /-- The permission check, the charges and the contract; `none` if nothing is kept of them. -/
  runContract : Block T → T → TxId → Ledger σ → Option (TxEffects σ)
  /-- The comparison with the recorded results, and the end of the block. -/
  finishBlock : Block T → Ledger σ → Except String (BlockEffects σ)
  verifyTxTrie : Bool
  requireSignature : Bool
  strictRefBlock : Bool

/-- How the fork tree reads a block. -/
def Env.fmt (env : Env T σ) : BlockFormat (Block T) where
  headerRaw block := block.raw.map fun raw => ⟨raw.number, raw.parentHash, raw.encode⟩
  sha256 bytes := (env.sha256 bytes).toList

/-! ## Transactions -/

def TRANSACTION_MAX_BYTE_SIZE : Int := 500 * 1024

def MAX_RESULT_SIZE_IN_TX : Int := 64

/-- Why a transaction is turned away before its contract is looked at. -/
inductive TxRefusal
  | missingRawData
  | tooBig (sizeBytes maxSize : Int)
  | expired (expirationMs headTimeMs : Int)
  | noContract
  deriving DecidableEq

/-- The expiration is set, and outside the day that follows the parent block. -/
def outsideWindow (expiration headTime : Int) : Bool :=
  decide (0 < expiration ∧ (expiration ≤ headTime ∨
    min (headTime + MAXIMUM_TIME_UNTIL_EXPIRATION_MS) 0x7fffffffffffffff < expiration))

def refusal (env : Env T σ) (headTime : Int) (tx : T) : Option TxRefusal :=
  match env.rawOf tx with
  | none => some .missingRawData
  | some raw =>
    let rawSerializedLen : Int := (env.encodeRaw tx).length
    let generalBytesSize := rawSerializedLen + MAX_RESULT_SIZE_IN_TX + MAX_RESULT_SIZE_IN_TX
    if TRANSACTION_MAX_BYTE_SIZE < generalBytesSize ∨ TRANSACTION_MAX_BYTE_SIZE < rawSerializedLen then
      some (.tooBig generalBytesSize TRANSACTION_MAX_BYTE_SIZE)
    else if outsideWindow raw.expiration headTime then some (.expired raw.expiration headTime)
    else if raw.contractCount = 0 then some .noContract
    else none

/-- The id from the wire if there is one; all zeroes without `raw_data`. -/
def txId (env : Env T σ) (tx : T) (wire : Option TxId) : TxId :=
  match env.rawOf tx with
  | none => List.replicate 32 0
  | some _ => wire.getD (env.sha256 (env.encodeRaw tx)).toList

def executeOneTx (env : Env T σ) (block : Block T) (headTime : Int) (tx : T) (id : TxId) (l : Ledger σ) : Ledger σ :=
  match refusal env headTime tx with
  | some _ => l
  | none =>
    match env.runContract block tx id l with
    | none => l
    | some e => l.applyTx e

/-- One execution of a transaction: where and when, and what became of the ledger. -/
structure ExecutedTx (T σ : Type) where
  tx : T
  id : TxId
  /-- The time of the parent block. -/
  headTime : Int
  before : Ledger σ
  after : Ledger σ

def executeTxs (env : Env T σ) (block : Block T) (headTime : Int) :
    List (T × Option TxId) → Ledger σ → List (ExecutedTx T σ) × Ledger σ
  | [], l => ([], l)
  | (tx, wire) :: rest, l =>
    let id := txId env tx wire
    let l' := executeOneTx env block headTime tx id l
    let done := executeTxs env block headTime rest l'
    (⟨tx, id, headTime, l, l'⟩ :: done.1, done.2)

/-! ## Blocks -/

inductive BlockExecError
  | noHeader
  | parentLinkMismatch (headerHas : Bytes) (expected : BlockId)
  | txTrie (cause : BlockValidateError)
  | signature (cause : String)
  | logic (cause : String)
  deriving DecidableEq

structure ExecutedBlock (T σ : Type) where
  block : Block T
  txs : List (ExecutedTx T σ)

/-- A ledger and the blocks that led to it, newest first. -/
structure ChainState (T σ : Type) where
  ledger : Ledger σ
  executed : List (ExecutedBlock T σ)

/-- The executions of transactions on the chain, oldest first. -/
def ChainState.positions (s : ChainState T σ) : List (ExecutedTx T σ) :=
  s.executed.reverse.flatMap (·.txs)

def verifyTxTrieRoot (env : Env T σ) (block : Block T) : Except BlockValidateError Unit :=
  match block.raw with
  | none => .error .missingHeader
  | some raw =>
    compareTxTrieRoot (calcTxTrieRoot env.sha256 env.encodeTransaction block.transactions) raw.txTrieRoot

/-- `verify_parent_link`, if a parent is expected. -/
def verifyParentLink (raw : HeaderRaw) : Option BlockId → Except BlockExecError Unit
  | none => .ok ()
  | some parent =>
    Checked.require (raw.parentHash = parent) (.parentLinkMismatch raw.parentHash parent)

def withWireIds (block : Block T) (wire : Option (List (Option TxId))) : List (T × Option TxId) :=
  block.transactions.zipIdx.map fun (tx, i) => (tx, (wire.bind (·[i]?)).join)

/-- The stored time of the parent block, or one derived from the slot. -/
def headBlockTime (env : Env T σ) (l : Ledger σ) : Int :=
  l.latestBlockHeaderTimestamp.getD (env.headSlot l * 3000)

/-- The structural validation at the start of `execute_block_logic`. -/
def validateStructure (env : Env T σ) (block : Block T) (expectedParent : Option BlockId)
    (l : Ledger σ) : Except BlockExecError HeaderRaw := do
  let raw ← Checked.orFail block.raw .noHeader
  verifyParentLink raw expectedParent
  if env.verifyTxTrie then (verifyTxTrieRoot env block).mapError .txTrie
  if env.requireSignature then (env.verifyWitness block l).mapError .signature
  return raw

/-- `execute_block_logic`. -/
def executeBlock (env : Env T σ) (b : WireBlock (Block T)) (expectedParent : Option BlockId)
    (s : ChainState T σ) : Except BlockExecError (ChainState T σ) := do
  let block := b.block
  let raw ← validateStructure env block expectedParent s.ledger
  let rest ← (env.writeParentHash block s.ledger).mapError .logic
  let l := { s.ledger with rest := rest }
  let done := executeTxs env block (headBlockTime env s.ledger)
    (withWireIds block (b.raw.bind env.txWireIds)) l
  let id := blockIdFromHeaderRaw env.fmt ⟨raw.number, raw.parentHash, raw.encode⟩
  let l := (done.2.setHead id raw).recordProducer raw
  let e ← (env.finishBlock block l).mapError .logic
  return ⟨l.applyEnd e, ⟨block, done.1⟩ :: s.executed⟩

end TronGoblin.Accept
