import TronGoblin.Consensus.KhaosPush
import TronGoblin.Consensus.Slot
import TronGoblin.Types.TxTrieRoot

/-!
# Producing a block

Model of `tron-consensus/src/producer.rs`, with `sign_block` (`tron-types/src/block_validate.rs`).  The
signature over a digest is a parameter.

* `assembleBlock`: a block without a signature.
* `produceBlockWithStateRoot`: the signed block and its id.
* `produce_eq_ok`: what a block that was produced looks like.
-/

namespace TronGoblin

open Proto (Block BlockHeader HeaderRaw)

variable {T : Type}

/-- `RecoverableSignature::to_bytes`. -/
abbrev SignatureBytes := Vector UInt8 65

/-- The functions that producing a block calls. -/
structure BlockCodec (T : Type) where
  sha256 : Bytes → Hash256
  encodeTransaction : T → Bytes

inductive ProducerError
  | nonMonotonicNumber (parent got : Int)
  | sign (message : String)
  deriving DecidableEq

/-- `block_id_from_header_raw`. -/
def Proto.HeaderRaw.blockId (sha256 : Bytes → Hash256) (raw : HeaderRaw) : BlockId :=
  BigEndian.encodeI64 raw.number ++ (sha256 raw.encode).toList.drop 8

def assembledHeader (codec : BlockCodec T) (parent : Hash256) (newNumber timestampMs : Int)
    (witnessAddress : Address) (transactions : List T) (version : Int) : HeaderRaw where
  timestamp := timestampMs
  txTrieRoot :=
    ((calcTxTrieRoot codec.sha256 codec.encodeTransaction transactions).map (·.toList)).getD zeroHash
  parentHash := parent.toList
  number := newNumber
  witnessId := 0
  witnessAddress := witnessAddress.val
  version := version
  accountStateRoot := []

def assembleBlock (codec : BlockCodec T) (parent : Hash256) (newNumber timestampMs : Int)
    (witnessAddress : Address) (transactions : List T) (version : Int) :
    Except ProducerError (Block T) :=
  let parentNum := BlockId.height parent.toList
  if newNumber ≤ parentNum then .error (.nonMonotonicNumber parentNum newNumber)
  else .ok
    { transactions := transactions
      blockHeader := some
        { rawData := some
            (assembledHeader codec parent newNumber timestampMs witnessAddress transactions version)
          witnessSignature := [] } }

/-- `account_state_root` set to what is given. -/
def withStateRoot (raw : HeaderRaw) : Option Hash256 → HeaderRaw
  | none => raw
  | some root => { raw with accountStateRoot := root.toList }

/-- Assembled, completed and signed. -/
def produceBlockWithStateRoot (codec : BlockCodec T) (parent : Hash256) (newNumber timestampMs : Int)
    (witnessAddress : Address) (signPrehash : Hash256 → Except String SignatureBytes)
    (transactions : List T) (version : Int) (accountStateRoot : Option Hash256) :
    Except ProducerError (Block T × BlockId) := do
  let block ← assembleBlock codec parent newNumber timestampMs witnessAddress transactions version
  -- an assembled block has a header
  let raw := withStateRoot
    (assembledHeader codec parent newNumber timestampMs witnessAddress transactions version)
    accountStateRoot
  match signPrehash (codec.sha256 raw.encode) with
  | .error e => throw (.sign e)
  | .ok signature =>
    let header : BlockHeader := { rawData := some raw, witnessSignature := signature.toList }
    return ({ block with blockHeader := some header }, raw.blockId codec.sha256)

theorem produce_eq_ok {codec : BlockCodec T} {parent : Hash256} {newNumber timestampMs : Int} {witnessAddress : Address}
    {signPrehash : Hash256 → Except String SignatureBytes} {transactions : List T} {version : Int}
    {accountStateRoot : Option Hash256} {block : Block T} {id : BlockId}
    (h : produceBlockWithStateRoot codec parent newNumber timestampMs witnessAddress signPrehash
      transactions version accountStateRoot = .ok (block, id)) :
    BlockId.height parent.toList < newNumber ∧ ∃ signature : SignatureBytes, block =
      { transactions := transactions
        blockHeader := some
          { rawData := some (withStateRoot
              (assembledHeader codec parent newNumber timestampMs witnessAddress transactions version)
              accountStateRoot)
            witnessSignature := signature.toList } } := by
  simp only [produceBlockWithStateRoot, assembleBlock] at h
  split at h
  · cases h
  · rename_i hnum
    simp only [bind, Except.bind] at h
    split at h
    · cases h
    · rename_i signature _
      cases h
      exact ⟨Int.not_le.1 hnum, signature, rfl⟩

theorem withStateRoot_timestamp (raw : HeaderRaw) (root : Option Hash256) :
    (withStateRoot raw root).timestamp = raw.timestamp := by
  cases root <;> rfl

end TronGoblin
