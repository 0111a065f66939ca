import TronGoblin.Lib.Checked
import TronGoblin.Types.TxTrieRoot

/-!
# The block that a transaction refers to

Model of `tron-node/src/ref_block.rs` and of the checks of the mempool's validator that come before the
contract itself is looked at (`tron-node/src/mempool_validator.rs`).  A transaction names the low 16 bits
of a block number, and 8 bytes of that block's id.

* `resolve_spec`: the candidate is the one block number in the window with these low bits.
* `validateRefBlock_later`: a transaction that was accepted at one head, at a later head: it is
  accepted again as long as its block has not left the window.
-/

namespace TronGoblin

def REF_BLOCK_WINDOW : Int := 65536

/-- What the checks read of a transaction's `raw_data`. -/
structure TxRaw where
  refBlockBytes : Bytes
  refBlockHash : Bytes
  expiration : Int
  contractCount : Nat
  deriving DecidableEq

inductive RefBlockError
  | invalidRefBlockBytesLength (got : Nat)
  | invalidRefBlockHashLength (got : Nat)
  | unknownReferencedBlock (refLow16 : Nat) (headNum : Int)
  | hashMismatch (blockNum : Int) (expected actual : Bytes)
  deriving DecidableEq

/-- `BlockIndexStore::get`; `none` also for an entry of the wrong length. -/
abbrev BlockIndex := Int → Option Hash256

/-- The last block number up to the head with these low bits. -/
def resolveRefBlockCandidate (headNum : Int) (refLow16 : Nat) : Int :=
  let highBits := headNum - headNum % 65536
  let candidate := highBits + refLow16
  if headNum < candidate then candidate - REF_BLOCK_WINDOW else candidate

/-- `u16::from_be_bytes` of two bytes. -/
def TxRaw.refLow16 (raw : TxRaw) : Nat := BigEndian.decode raw.refBlockBytes

/-- `BlockId.bytes[8..16]`. -/
def refSlice (id : Hash256) : Bytes := (id.toList.drop 8).take 8

def validateRefBlock (raw : TxRaw) (headNum : Int) (blockIndex : BlockIndex) : Except RefBlockError Unit :=
  if raw.refBlockBytes.length ≠ 2 then
    .error (.invalidRefBlockBytesLength raw.refBlockBytes.length)
  else if raw.refBlockHash.length ≠ 8 then
    .error (.invalidRefBlockHashLength raw.refBlockHash.length)
  else if headNum < 0 then
    .error (.unknownReferencedBlock raw.refLow16 headNum)
  else
    let candidate := resolveRefBlockCandidate headNum raw.refLow16
    if candidate < 0 ∨ REF_BLOCK_WINDOW ≤ headNum - candidate then
      .error (.unknownReferencedBlock raw.refLow16 headNum)
    else match blockIndex candidate with
      | none => .error (.unknownReferencedBlock raw.refLow16 headNum)
      | some id =>
        if refSlice id ≠ raw.refBlockHash then
          .error (.hashMismatch candidate (refSlice id) raw.refBlockHash)
        else .ok ()

/-! ## The window -/

variable {raw : TxRaw}

theorem refLow16_lt (h : raw.refBlockBytes.length = 2) : raw.refLow16 < 65536 := by
  have := BigEndian.decode_lt raw.refBlockBytes
  rw [h] at this
  exact this

theorem resolve_spec (headNum : Int) {low : Nat} (hlow : low < 65536) :
    resolveRefBlockCandidate headNum low % 65536 = low ∧ resolveRefBlockCandidate headNum low ≤ headNum ∧
      headNum - resolveRefBlockCandidate headNum low < REF_BLOCK_WINDOW := by
  unfold resolveRefBlockCandidate REF_BLOCK_WINDOW
  dsimp only
  split <;> omega

theorem resolve_later {headNum laterNum : Int} {low : Nat} (hlow : low < 65536) (hle : headNum ≤ laterNum)
    (hin : laterNum - resolveRefBlockCandidate headNum low < REF_BLOCK_WINDOW) :
    resolveRefBlockCandidate laterNum low = resolveRefBlockCandidate headNum low := by
  obtain ⟨hmod, hup, -⟩ := resolve_spec headNum hlow
  obtain ⟨hmod', hup', hwin'⟩ := resolve_spec laterNum hlow
  unfold REF_BLOCK_WINDOW at hin hwin'
  omega

/-- The block with this number has the 8 bytes in its id. -/
def RefersTo (blockIndex : BlockIndex) (num : Int) (hash : Bytes) : Prop :=
  ∃ id ∈ blockIndex num, refSlice id = hash

theorem validateRefBlock_ok {headNum : Int} {blockIndex : BlockIndex} :
    validateRefBlock raw headNum blockIndex = .ok () ↔ raw.refBlockBytes.length = 2 ∧ raw.refBlockHash.length = 8 ∧
        0 ≤ resolveRefBlockCandidate headNum raw.refLow16 ∧
        RefersTo blockIndex (resolveRefBlockCandidate headNum raw.refLow16) raw.refBlockHash := by
  unfold validateRefBlock
  by_cases hbytes : raw.refBlockBytes.length = 2
  on_goal 2 => simp [hbytes]
  by_cases hhash : raw.refBlockHash.length = 8
  on_goal 2 => simp [hbytes, hhash]
  obtain ⟨-, hup, hwin⟩ := resolve_spec headNum (refLow16_lt hbytes)
  by_cases hneg : 0 ≤ resolveRefBlockCandidate headNum raw.refLow16
  · rw [if_neg (by simp [hbytes]), if_neg (by simp [hhash]), if_neg (by omega)]
    rw [if_neg (by omega)]
    cases hid : blockIndex (resolveRefBlockCandidate headNum raw.refLow16) with
    | none => simp [RefersTo, hid]
    | some id => simp [RefersTo, hid, hbytes, hhash, hneg]
  · -- both tests for a negative number lead to the same error
    have hcand : resolveRefBlockCandidate headNum raw.refLow16 < 0 := by omega
    simp [hbytes, hhash, hneg, hcand]

/-- **Accepted at one head, at a later head of the same chain.** -/
theorem validateRefBlock_later {headNum laterNum : Int} {earlier later : BlockIndex} (hle : headNum ≤ laterNum)
    (hsame : ∀ num ≤ headNum, earlier num = later num) (hok : validateRefBlock raw headNum earlier = .ok ()) :
    validateRefBlock raw laterNum later = .ok () ↔
      laterNum - resolveRefBlockCandidate headNum raw.refLow16 < REF_BLOCK_WINDOW ∨
        RefersTo later (resolveRefBlockCandidate laterNum raw.refLow16) raw.refBlockHash := by
  obtain ⟨hbytes, hhash, hpos, hrefers⟩ := validateRefBlock_ok.1 hok
  have hlow := refLow16_lt hbytes
  obtain ⟨hmod, hup, hwin⟩ := resolve_spec headNum hlow
  obtain ⟨hmod', hup', hwin'⟩ := resolve_spec laterNum hlow
  rw [validateRefBlock_ok]
  constructor
  · rintro ⟨-, -, -, hr⟩
    exact Or.inr hr
  · rintro (hin | hr)
    · rw [resolve_later hlow hle hin]
      refine ⟨hbytes, hhash, hpos, ?_⟩
      unfold RefersTo at hrefers ⊢
      rwa [← hsame _ hup]
    · refine ⟨hbytes, hhash, ?_, hr⟩
      unfold REF_BLOCK_WINDOW at hwin'
      omega

/-! ## Admission -/

def MAXIMUM_TIME_UNTIL_EXPIRATION_MS : Int := 24 * 60 * 60 * 1000

inductive ValidatorError
  | noRawData
  | contractSize (actual : Nat)
  | expired (expiration headTime : Int)
  | tooFarFuture (expiration headTime : Int)
  | refBlock (cause : RefBlockError)
  | contract (message : String)
  deriving DecidableEq

/-- What the validator reads when a transaction is submitted. -/
structure ValidatorView (T : Type) where
  latestBlockHeaderNumber : Option Int
  latestBlockHeaderTimestamp : Option Int
  blockIndex : BlockIndex
  /-- The fees and the contract's own checks. -/
  contractChecks : T → Except String Unit

/-- An expiration that is not set is not checked. -/
def checkExpiration (headTime : Option Int) (expiration : Int) : Except ValidatorError Unit :=
  match headTime with
  | none => .ok ()
  | some headTime =>
    if 0 < expiration then
      if expiration ≤ headTime then .error (.expired expiration headTime)
      else if headTime + MAXIMUM_TIME_UNTIL_EXPIRATION_MS < expiration then
        .error (.tooFarFuture expiration headTime)
      else .ok ()
    else .ok ()

/-- The validator of the node's mempool; `rawOf` is the transaction's `raw_data`. -/
def mempoolValidate {T : Type} (rawOf : T → Option TxRaw) (view : ValidatorView T) (tx : T) :
    Except ValidatorError Unit := do
  let raw ← Checked.orFail (rawOf tx) .noRawData
  Checked.require (raw.contractCount = 1) (.contractSize raw.contractCount)
  checkExpiration view.latestBlockHeaderTimestamp raw.expiration
  (validateRefBlock raw (view.latestBlockHeaderNumber.getD 0) view.blockIndex).mapError .refBlock
  (view.contractChecks tx).mapError .contract

theorem mempoolValidate_ok {T : Type} {rawOf : T → Option TxRaw} {view : ValidatorView T} {tx : T}
    (h : mempoolValidate rawOf view tx = .ok ()) :
    ∃ raw, rawOf tx = some raw ∧
      validateRefBlock raw (view.latestBlockHeaderNumber.getD 0) view.blockIndex = .ok () := by
  simp only [mempoolValidate, Checked.bind_eq_ok, Checked.orFail_eq_ok, Checked.mapError_eq_ok] at h
  obtain ⟨raw, hraw, _, -, _, -, _, href, -⟩ := h
  exact ⟨raw, hraw, href⟩

end TronGoblin
