import Mathlib.Algebra.Order.BigOperators.Group.List
import TronGoblin.Node.RefBlock
import TronGoblin.Node.SrRuntime

/-!
# What a peer does with a produced block

The checks that a peer with the same head makes of a received block, in the order of
`tron-node/src/sync.rs`, against the blocks that `SrRuntime::try_produce` signs.

* `signed_decodes`: the peer reads the block that was signed.
* `signed_admissible`, `signed_root`, `signed_consensus`: size and time, transaction root, slot and
  witness.
* `signed_accepted_iff`: all checks pass if and only if every transaction still refers to a block in
  the window.

The producer does not look at the reference again: a transaction that was admitted with a block at the
end of the window is packed after that block has left it.
-/

namespace TronGoblin

open List Protobuf Proto Checked BlockHeader
open Proto (Block BlockHeader HeaderRaw)

variable {T : Type} {rt : SrRuntime T} {a : Attempt T} {last : Int}

/-! ## Sizes -/

variable (codec : BlockCodec T)

/-- What a list of transactions adds to a block. -/
def packedSize (txs : List T) : Nat :=
  (txs.map fun tx => txPackSize (codec.encodeTransaction tx).length).sum

theorem packTransactions_size (get : TxId → Option T) (ids : List TxId) (size : Nat) :
    packedSize codec ((packTransactions codec get ids size).map (·.2)) ≤ BLOCK_SIZE - size := by
  induction ids generalizing size with
  | nil => simp [packTransactions, packedSize]
  | cons id ids ih =>
    rw [packTransactions]
    split
    · exact ih size
    · rename_i tx htx
      dsimp only
      split
      · rename_i hfits
        have hrest := ih (size + txPackSize (codec.encodeTransaction tx).length)
        simp only [txFitsInBlock, decide_eq_true_eq] at hfits
        simp only [packedSize, map_cons, sum_cons] at hrest ⊢
        omega
      · exact ih size

theorem mem_packTransactions {codec : BlockCodec T} {get : TxId → Option T} {ids : List TxId}
    {size : Nat} {p : TxId × T} (h : p ∈ packTransactions codec get ids size) : get p.1 = some p.2 := by
  induction ids generalizing size with
  | nil => simp [packTransactions] at h
  | cons id ids ih =>
    rw [packTransactions] at h
    split at h
    · exact ih h
    · rename_i tx htx
      dsimp only at h
      split at h
      · rcases mem_cons.1 h with rfl | h
        · exact htx
        · exact ih h
      · exact ih h

theorem length_encode_transactions (txs : List T) :
    (encode (txs.map fun tx => ⟨1, .len (codec.encodeTransaction tx)⟩)).length = packedSize codec txs := by
  induction txs with
  | nil => rfl
  | cons tx txs ih =>
    have hfield := length_encodeField_tx (codec.encodeTransaction tx)
    simp only [encode, packedSize, map_cons, flatMap_cons, length_append, sum_cons] at ih ⊢
    omega

theorem length_encode_bytesFields (num : Nat) (value : Bytes) :
    (encode (bytesFields num value)).length ≤ 20 + value.length := by
  unfold bytesFields
  split
  · simp [encode]
  · simpa [encode] using encodeField_len_length_le num value

theorem length_encode_intFields (num : Nat) (value : Int) : (encode (intFields num value)).length ≤ 20 := by
  unfold intFields
  split
  · simp [encode]
  · simpa [encode] using encodeField_varint_length_le num _

/-- The parts of a header that have a fixed length. -/
structure SmallHeader (raw : HeaderRaw) : Prop where
  root : raw.txTrieRoot.length ≤ 32
  parent : raw.parentHash.length ≤ 32
  witness : raw.witnessAddress.length ≤ 32
  state : raw.accountStateRoot.length ≤ 32

theorem length_encode_header {raw : HeaderRaw} (h : SmallHeader raw) : raw.encode.length ≤ 288 := by
  have h₁ := length_encode_intFields 1 raw.timestamp
  have h₂ := length_encode_bytesFields 2 raw.txTrieRoot
  have h₃ := length_encode_bytesFields 3 raw.parentHash
  have h₇ := length_encode_intFields 7 raw.number
  have h₈ := length_encode_intFields 8 raw.witnessId
  have h₉ := length_encode_bytesFields 9 raw.witnessAddress
  have h₁₀ := length_encode_intFields 10 raw.version
  have h₁₁ := length_encode_bytesFields 11 raw.accountStateRoot
  have := h.root
  have := h.parent
  have := h.witness
  have := h.state
  simp only [HeaderRaw.encode, HeaderRaw.fields, encode_append, length_append]
  omega

/-! ## What was signed can be written -/

theorem fits_bytesFields {num : Nat} {value : Bytes} (hpos : 0 < num) (hnum : num < 2 ^ 29)
    (hlen : value.length < 2 ^ 64) : ∀ f ∈ bytesFields num value, f.Fits := by
  intro f hf
  unfold bytesFields at hf
  split at hf
  · cases hf
  · rw [mem_singleton] at hf
    subst hf
    exact Field.fits_len hpos hnum hlen

theorem fits_intFields {num : Nat} (value : Int) (hpos : 0 < num) (hnum : num < 2 ^ 29) :
    ∀ f ∈ intFields num value, f.Fits := by
  intro f hf
  unfold intFields at hf
  split at hf
  · cases hf
  · rw [mem_singleton] at hf
    subst hf
    refine ⟨hpos, hnum, ?_⟩
    simp only [Payload.Fits]
    omega

theorem fits_headerFields {raw : HeaderRaw} (h : SmallHeader raw) : ∀ f ∈ raw.fields, f.Fits := by
  have := h.root
  have := h.parent
  have := h.witness
  have := h.state
  intro f hf
  simp only [HeaderRaw.fields, mem_append] at hf
  rcases hf with ((((((hf | hf) | hf) | hf) | hf) | hf) | hf) | hf
  · exact fits_intFields _ (by decide) (by decide) f hf
  · exact fits_bytesFields (by decide) (by decide) (by omega) f hf
  · exact fits_bytesFields (by decide) (by decide) (by omega) f hf
  · exact fits_intFields _ (by decide) (by decide) f hf
  · exact fits_intFields _ (by decide) (by decide) f hf
  · exact fits_bytesFields (by decide) (by decide) (by omega) f hf
  · exact fits_intFields _ (by decide) (by decide) f hf
  · exact fits_bytesFields (by decide) (by decide) (by omega) f hf

section Signed

variable {slot : ChosenSlot} {headTime slotsSince : Int} {active : List Address}
  {root : Option Hash256} {signature : SignatureBytes}

theorem smallHeader_signedHeader (rt : SrRuntime T) (a : Attempt T) (slot : ChosenSlot)
    (root : Option Hash256) : SmallHeader (signedHeader rt a slot root) := by
  have hroot : ∀ txs : List T, (((calcTxTrieRoot rt.codec.sha256 rt.codec.encodeTransaction txs).map
      (·.toList)).getD zeroHash).length = 32 := by
    intro txs
    cases calcTxTrieRoot rt.codec.sha256 rt.codec.encodeTransaction txs <;> simp [zeroHash]
  have hwitness := rt.witnessAddress.property
  cases root with
  | none =>
    exact ⟨Nat.le_of_eq (hroot _), by simp [signedHeader, withStateRoot, assembledHeader],
      by simp [signedHeader, withStateRoot, assembledHeader, hwitness],
      by simp [signedHeader, withStateRoot, assembledHeader]⟩
  | some r =>
    exact ⟨Nat.le_of_eq (hroot _), by simp [signedHeader, withStateRoot, assembledHeader],
      by simp [signedHeader, withStateRoot, assembledHeader, hwitness], by simp [signedHeader, withStateRoot]⟩

/-- What a state root leaves as it was. -/
theorem signedHeader_fields (rt : SrRuntime T) (a : Attempt T) (slot : ChosenSlot) (root : Option Hash256) :
    (signedHeader rt a slot root).timestamp = slot.blockTime ∧ (signedHeader rt a slot root).number = slot.newNumber ∧
      (signedHeader rt a slot root).parentHash = slot.headId.toList ∧
      (signedHeader rt a slot root).witnessAddress = rt.witnessAddress.val ∧
      (signedHeader rt a slot root).txTrieRoot =
        ((calcTxTrieRoot rt.codec.sha256 rt.codec.encodeTransaction
          ((pickTransactions rt a slot).map (·.2))).map (·.toList)).getD zeroHash := by
  cases root <;> exact ⟨rfl, rfl, rfl, rfl, rfl⟩

theorem length_le_packedSize {codec : BlockCodec T} {txs : List T} {tx : T} (h : tx ∈ txs) :
    (codec.encodeTransaction tx).length ≤ packedSize codec txs := by
  have hpack : txPackSize (codec.encodeTransaction tx).length ≤ packedSize codec txs :=
    le_sum_of_mem (mem_map_of_mem h)
  unfold txPackSize at hpack
  omega

theorem length_encode_headerFields (rt : SrRuntime T) (a : Attempt T) (slot : ChosenSlot)
    (root : Option Hash256) (signature : SignatureBytes) :
    (encode (fields ⟨some (signedHeader rt a slot root), signature.toList⟩)).length
      ≤ 393 := by
  have hraw := length_encode_header (smallHeader_signedHeader rt a slot root)
  have hfield := encodeField_len_length_le 1 (signedHeader rt a slot root).encode
  have hsig := length_encode_bytesFields 2 signature.toList
  have h65 : signature.toList.length = 65 := by simp
  have hone : encode [⟨1, .len (signedHeader rt a slot root).encode⟩] =
      encodeField ⟨1, .len (signedHeader rt a slot root).encode⟩ := by
    simp [encode]
  simp only [fields, Option.map_some, Option.toList_some, encode_append, hone, length_append]
  omega

theorem packedSize_pick (rt : SrRuntime T) (a : Attempt T) (slot : ChosenSlot) :
    packedSize rt.codec ((pickTransactions rt a slot).map (·.2)) ≤ BLOCK_SIZE :=
  Nat.le_trans (packTransactions_size rt.codec a.get _ _) (Nat.sub_le _ _)

theorem fits_signedBlock : ∀ f ∈ (signedBlock rt a slot root signature).fields rt.codec.encodeTransaction, f.Fits := by
  intro f hf
  simp only [signedBlock, Block.fields, Option.map_some, Option.toList_some, mem_append, mem_map, mem_singleton] at hf
  rcases hf with ⟨tx, ⟨p, hp, rfl⟩, rfl⟩ | rfl
  · have hlen : (rt.codec.encodeTransaction p.2).length ≤ BLOCK_SIZE :=
      Nat.le_trans (length_le_packedSize (mem_map_of_mem hp)) (packedSize_pick rt a slot)
    unfold BLOCK_SIZE at hlen
    exact Field.fits_len (by decide) (by decide) (by omega)
  · have hlen := length_encode_headerFields rt a slot root signature
    exact Field.fits_len (by decide) (by decide) (by omega)

/-! ## The checks -/

theorem fits_signedHeader (htime : -2 ^ 63 ≤ slot.blockTime ∧ slot.blockTime < 2 ^ 63) :
    Fits ⟨some (signedHeader rt a slot root), signature.toList⟩ := by
  have hsmall := smallHeader_signedHeader rt a slot root
  have hraw := length_encode_header hsmall
  refine ⟨?_, ?_, ?_⟩
  · intro f hf
    simp only [fields, Option.map_some, Option.toList_some, mem_append, mem_singleton] at hf
    rcases hf with rfl | hf
    · exact Field.fits_len (by decide) (by decide) (by omega)
    · exact fits_bytesFields (by decide) (by decide) (by simp) f hf
  · rintro raw hr
    cases hr
    exact fits_headerFields hsmall
  · rintro raw hr
    cases hr
    obtain ⟨hts, hnum, -⟩ := signedHeader_fields rt a slot root
    have hfit := fits_wrapI64 (slot.headNum + 1)
    unfold FitsI64 at hfit
    refine ⟨by rw [hts]; exact htime, ?_, ?_, ?_⟩
    · rw [hnum, ChosenSlot.newNumber]
      omega
    · cases root <;> simp [signedHeader, withStateRoot, assembledHeader]
    · cases root <;> simp [signedHeader, withStateRoot, assembledHeader, BLOCK_VERSION]

theorem signed_decodes (a : Attempt T) (root : Option Hash256) (signature : SignatureBytes)
    {decodeTransaction : Bytes → Option T} (hcodec : ∀ tx, decodeTransaction (rt.codec.encodeTransaction tx) = some tx)
    (htime : -2 ^ 63 ≤ slot.blockTime ∧ slot.blockTime < 2 ^ 63) :
    decodeBlock decodeTransaction
      (encodeBlock rt.codec.encodeTransaction (signedBlock rt a slot root signature)) =
      some (signedBlock rt a slot root signature) := by
  refine decodeBlock_encodeBlock fits_signedBlock ?_ (fun tx _ => hcodec tx)
  rintro header hh
  cases hh
  exact fits_signedHeader htime

/-- Size and time. -/
theorem signed_admissible (hown : OwnSlot rt a slot headTime active slotsSince) :
    checkBlockMessageAdmission
      (encodeBlock rt.codec.encodeTransaction (signedBlock rt a slot root signature)).length
      slot.blockTime a.now = .ok () := by
  have hsize : (encodeBlock rt.codec.encodeTransaction
      (signedBlock rt a slot root signature)).length ≤ MAX_BLOCK_MESSAGE_SIZE := by
    have htxs := length_encode_transactions rt.codec ((pickTransactions rt a slot).map (·.2))
    have hpick := packedSize_pick rt a slot
    have hheader := length_encode_headerFields rt a slot root signature
    have hfield := encodeField_len_length_le 2
      (encode (fields ⟨some (signedHeader rt a slot root), signature.toList⟩))
    have hone : ∀ f, encode [f] = encodeField f := by
      simp [encode]
    simp only [encodeBlock, signedBlock, Block.fields, Option.map_some, Option.toList_some,
      encode_append, hone, length_append]
    unfold MAX_BLOCK_MESSAGE_SIZE BLOCK_SIZE
    unfold BLOCK_SIZE at hpick
    omega
  obtain ⟨-, -, hnow, -⟩ := hown.slot_spec
  unfold checkBlockMessageAdmission
  rw [if_neg (Nat.not_lt.2 hsize)]
  rw [if_neg]
  unfold BLOCK_PRODUCED_INTERVAL_MS
  omega

/-- The root over the wire bytes. -/
theorem signed_root {decodeTransaction : Bytes → Option T}
    (hdecodes : decodeBlock decodeTransaction
      (encodeBlock rt.codec.encodeTransaction (signedBlock rt a slot root signature)) =
      some (signedBlock rt a slot root signature)) :
    verifyTxTrieRootRaw rt.codec.sha256 (signedBlock rt a slot root signature)
      (encodeBlock rt.codec.encodeTransaction (signedBlock rt a slot root signature)) = .ok () := by
  obtain ⟨-, -, -, -, hroot⟩ := signedHeader_fields rt a slot root
  have hgroup : NoGroup (encodeBlock rt.codec.encodeTransaction (signedBlock rt a slot root signature)) := by
    refine noGroup_of_decode _ (decode_encode fits_signedBlock) ?_
    intro f hf
    simp only [signedBlock, Block.fields, Option.map_some, Option.toList_some, mem_append, mem_map, mem_singleton] at hf
    rcases hf with ⟨tx, -, rfl⟩ | rfl <;> simp
  refine (verifyTxTrieRootRaw_ok rt.codec.sha256).2 ⟨(signedHeader rt a slot root).txTrieRoot, rfl, ?_⟩
  rw [(txTrieRootFromBlockBytes_decode rt.codec.sha256 hdecodes).1 hgroup,
    wireTransactions_encodeBlock fits_signedBlock, compareTxTrieRoot_ok, hroot]
  rw [calcTxTrieRoot_eq]
  change merkleRoot rt.codec.sha256
    ((((pickTransactions rt a slot).map (·.2)).map rt.codec.encodeTransaction).map rt.codec.sha256)
      = none ∧ _ ∨ ∃ c, merkleRoot rt.codec.sha256
    ((((pickTransactions rt a slot).map (·.2)).map rt.codec.encodeTransaction).map rt.codec.sha256)
      = some c ∧ _
  cases merkleRoot rt.codec.sha256
    ((((pickTransactions rt a slot).map (·.2)).map rt.codec.encodeTransaction).map rt.codec.sha256) with
  | none => exact Or.inl ⟨rfl, Or.inr rfl⟩
  | some c => exact Or.inr ⟨c, rfl, rfl⟩

/-- Slot and witness. -/
theorem signed_consensus (root : Option Hash256) (signature : SignatureBytes)
    (hown : OwnSlot rt a slot headTime active slotsSince)
    (hgenesis : rt.genesisTime % 3000 = 0) (hpast : rt.genesisTime ≤ headTime) (optimization : Bool) :
    validateBlockConsensus (signedBlock rt a slot root signature) active headTime rt.genesisTime
      (a.stateFlag == 1) optimization = .ok () := by
  obtain ⟨hts, -, -, hwitness, -⟩ := signedHeader_fields rt a slot root
  obtain ⟨haligned, hslot, -, -⟩ := hown.slot_spec
  have hrel : relativeSlot slot.blockTime headTime rt.genesisTime (a.stateFlag == 1) = slotsSince := by
    rw [hown.blockTime]
    exact relativeSlot_slotTimeMs hown.pos hpast
  have hpos := hown.pos
  have hraw : (signedBlock rt a slot root signature).raw = some (signedHeader rt a slot root) := rfl
  apply validateBlockConsensus_ok hraw hwitness
  · unfold BLOCK_PRODUCED_INTERVAL_MS
    omega
  · rw [hts]
    exact hslot
  · rw [hts, hrel]
    omega
  · rw [hts, hrel]
    exact hown.own

end Signed

/-! ## The peer -/

structure PeerView where
  headHash : Hash256
  headTime : Int
  genesisTime : Int
  headWasMaintenance : Bool
  allowConsensusLogicOptimization : Bool
  active : List Address
  blockIndex : BlockIndex
  now : Int

inductive PeerRejection
  | undecodable
  | admission (cause : BlockAdmissionError)
  | txTrie (cause : BlockValidateError)
  | consensus (cause : ConsensusError)
  | refBlock (index : Nat) (cause : RefBlockError)
  deriving DecidableEq

/-- `i64::saturating_sub(1)`. -/
def saturatingPred (n : Int) : Int := max (n - 1) (-0x8000000000000000)

/-- The references of all transactions; one without `raw_data` is left to the executor. -/
def checkRefBlocks (rawOf : T → Option TxRaw) (headNum : Int) (blockIndex : BlockIndex) :
    Nat → List T → Except PeerRejection Unit
  | _, [] => .ok ()
  | i, tx :: txs =>
    match rawOf tx with
    | none => checkRefBlocks rawOf headNum blockIndex (i + 1) txs
    | some raw =>
      match validateRefBlock raw headNum blockIndex with
      | .error e => .error (.refBlock i e)
      | .ok () => checkRefBlocks rawOf headNum blockIndex (i + 1) txs

/-- `block_extends_executed_head`. -/
def PeerView.extendsHead (peer : PeerView) (block : Block T) : Bool :=
  block.raw.any fun raw => raw.parentHash = peer.headHash.toList

/-- What is checked of a block's bytes; the signature apart. -/
def peerReceive (sha256 : Bytes → Hash256) (decodeTransaction : Bytes → Option T)
    (rawOf : T → Option TxRaw) (peer : PeerView) (bytes : Bytes) : Except PeerRejection Unit := do
  let block ← orFail (decodeBlock decodeTransaction bytes) .undecodable
  (checkBlockMessageAdmission bytes.length block.timestamp peer.now).mapError .admission
  (verifyTxTrieRootRaw sha256 block bytes).mapError .txTrie
  if peer.extendsHead block then
    (validateBlockConsensus block peer.active peer.headTime peer.genesisTime peer.headWasMaintenance
      peer.allowConsensusLogicOptimization).mapError .consensus
    checkRefBlocks rawOf (saturatingPred ((block.raw.map (·.number)).getD 0)) peer.blockIndex 0
      block.transactions
  else
    return ()

theorem checkRefBlocks_ok {rawOf : T → Option TxRaw} {headNum : Int} {blockIndex : BlockIndex} {i : Nat}
    {txs : List T} :
    checkRefBlocks rawOf headNum blockIndex i txs = .ok () ↔
      ∀ tx ∈ txs, ∀ raw ∈ rawOf tx, validateRefBlock raw headNum blockIndex = .ok () := by
  induction txs generalizing i with
  | nil => simp [checkRefBlocks]
  | cons tx txs ih =>
    rw [checkRefBlocks]
    cases hraw : rawOf tx with
    | none => simp [ih, hraw]
    | some raw =>
      cases hv : validateRefBlock raw headNum blockIndex with
      | error e => simp [hraw, hv]
      | ok u => simp [ih, hraw, hv]

/-- The head that an attempt finds is the peer's as well. -/
structure SameHead (peer : PeerView) (rt : SrRuntime T) (a : Attempt T) : Prop where
  hash : a.latestBlockHeaderHash = .ok (some peer.headHash)
  time : a.latestBlockHeaderTimestamp = some peer.headTime
  genesis : rt.genesisTime = peer.genesisTime
  maintenance : peer.headWasMaintenance = (a.stateFlag == 1)
  active : ∃ l, a.loadActive = .ok l ∧ l.getD [] = peer.active
  now : peer.now = a.now

/-- A pending transaction passed the validator at a head of the same chain. -/
structure AdmittedAt (rawOf : T → Option TxRaw) (blockIndex : BlockIndex) (tx : T)
    (view : ValidatorView T) (headNum : Int) : Prop where
  valid : mempoolValidate rawOf view tx = .ok ()
  head : view.latestBlockHeaderNumber = some headNum
  chain : ∀ num ≤ headNum, view.blockIndex num = blockIndex num

/-- The block that a transaction referred to when it was admitted is still in the window (or the block
that has taken its place has the same 8 bytes in its id). -/
def StillInWindow (blockIndex : BlockIndex) (headNum admitted : Int) (raw : TxRaw) : Prop :=
  headNum - resolveRefBlockCandidate admitted raw.refLow16 < REF_BLOCK_WINDOW ∨
    RefersTo blockIndex (resolveRefBlockCandidate headNum raw.refLow16) raw.refBlockHash

/-- The number before the block's is the head's. -/
theorem saturatingPred_newNumber {slot : ChosenSlot} (hfits : FitsI64 slot.headNum)
    (hnum : BlockId.height slot.headId.toList < slot.newNumber) :
    saturatingPred slot.newNumber = slot.headNum := by
  have hlow : -0x8000000000000000 ≤ BlockId.height slot.headId.toList := (fits_wrapI64 _).1
  obtain ⟨hlo, hhi⟩ := hfits
  unfold ChosenSlot.newNumber at hnum ⊢
  by_cases hmax : slot.headNum = 0x7fffffffffffffff
  · -- the sum wraps to the least number, and no block is assembled
    have hwrap : BigEndian.wrapI64 (0x7fffffffffffffff + 1) = -0x8000000000000000 := by decide
    rw [hmax, hwrap] at hnum
    omega
  · rw [wrapI64_of_fits ⟨by omega, by omega⟩, saturatingPred]
    omega

/-- **A signed block passes the peer's checks if and only if its references are in the window.** -/
theorem signed_accepted_iff {decodeTransaction : Bytes → Option T} {rawOf : T → Option TxRaw} {peer : PeerView}
    {slot : ChosenSlot} {block : Block T} {id : BlockId} (admitted : TxId → Int) (view : TxId → ValidatorView T)
    (hsame : SameHead peer rt a) (hgenesis : peer.genesisTime % 3000 = 0) (hpast : peer.genesisTime ≤ peer.headTime)
    (hfits : ∀ n ∈ a.latestBlockHeaderNumber, FitsI64 n) (hclock : a.now < 2 ^ 63)
    (hcodec : ∀ tx, decodeTransaction (rt.codec.encodeTransaction tx) = some tx)
    (hadmitted : ∀ id tx, a.get id = some tx → AdmittedAt rawOf peer.blockIndex tx (view id) (admitted id) ∧
        ∀ n ∈ a.latestBlockHeaderNumber, admitted id ≤ n)
    (hsigned : signBlock rt a last = .ok (some (slot, block, id))) :
    peerReceive rt.codec.sha256 decodeTransaction rawOf peer
        (encodeBlock rt.codec.encodeTransaction block) = .ok () ↔
      ∀ p ∈ pickTransactions rt a slot, ∀ raw ∈ rawOf p.2,
        StillInWindow peer.blockIndex slot.headNum (admitted p.1) raw := by
  obtain ⟨⟨headTime, active, slotsSince, hown⟩, hnum, root, signature, rfl⟩ := signBlock_spec hsigned
  -- the peer has the same head
  have hheadTime : headTime = peer.headTime := by
    have := hown.time.symm.trans hsame.time
    exact Option.some.inj this
  have hheadId : slot.headId = peer.headHash := by
    have := hown.hash.symm.trans hsame.hash
    exact Option.some.inj (Except.ok.inj this)
  have hactive : active = peer.active := by
    obtain ⟨l, hl, rfl⟩ := hown.loaded
    obtain ⟨l', hl', h⟩ := hsame.active
    rw [hl, Except.ok.injEq] at hl'
    rw [← h, hl']
  subst hheadTime hactive
  obtain ⟨hts, hnumber, hparent, -, -⟩ := signedHeader_fields rt a slot root
  obtain ⟨-, -, hnow, hnow'⟩ := hown.slot_spec
  have htime : -2 ^ 63 ≤ slot.blockTime ∧ slot.blockTime < 2 ^ 63 := by
    unfold BLOCK_PRODUCED_INTERVAL_MS at hnow'
    constructor <;> omega
  have hdecodes := signed_decodes a root signature hcodec htime
  have hextends : peer.extendsHead (signedBlock rt a slot root signature) = true := by
    simp [PeerView.extendsHead, Block.raw, signedBlock, hparent, hheadId]
  have hconsensus := signed_consensus root signature hown (hsame.genesis ▸ hgenesis)
    (hsame.genesis ▸ hpast) peer.allowConsensusLogicOptimization
  rw [hsame.genesis, ← hsame.maintenance] at hconsensus
  have hpred : saturatingPred ((((signedBlock rt a slot root signature).raw).map (·.number)).getD 0) =
      slot.headNum := by
    rw [← saturatingPred_newNumber (hfits _ hown.head) hnum, ← hnumber]
    rfl
  have hstamp : (signedBlock rt a slot root signature).timestamp = slot.blockTime := hts
  have hreceive : peerReceive rt.codec.sha256 decodeTransaction rawOf peer
      (encodeBlock rt.codec.encodeTransaction (signedBlock rt a slot root signature)) =
      checkRefBlocks rawOf slot.headNum peer.blockIndex 0
        ((pickTransactions rt a slot).map (·.2)) := by
    simp only [peerReceive, hdecodes, orFail, hstamp, hsame.now, signed_admissible hown, signed_root hdecodes, hextends,
      hconsensus, hpred, Except.mapError, bind, Except.bind, if_true]
    rfl
  rw [hreceive, checkRefBlocks_ok]
  -- each transaction was accepted at an earlier head
  have hlater : ∀ p ∈ pickTransactions rt a slot, ∀ raw ∈ rawOf p.2,
      (validateRefBlock raw slot.headNum peer.blockIndex = .ok () ↔
        StillInWindow peer.blockIndex slot.headNum (admitted p.1) raw) := by
    intro p hp raw hraw
    obtain ⟨hadm, hle⟩ := hadmitted p.1 p.2 (mem_packTransactions hp)
    obtain ⟨raw', hraw', hvalid⟩ := mempoolValidate_ok hadm.valid
    rw [Option.mem_def.1 hraw, Option.some.injEq] at hraw'
    subst hraw'
    rw [hadm.head, Option.getD_some] at hvalid
    exact validateRefBlock_later (hle _ hown.head) hadm.chain hvalid
  constructor
  · intro h p hp raw hraw
    exact (hlater p hp raw hraw).1 (h p.2 (mem_map_of_mem hp) raw hraw)
  · intro h tx htx raw hraw
    obtain ⟨p, hp, rfl⟩ := mem_map.1 htx
    exact (hlater p hp raw hraw).2 (h p hp raw hraw)

/-! ## A reference at the end of the window -/

/-- A chain in which bytes 8 to 16 of a block's id are its number. -/
def numberedIndex : BlockIndex := fun num =>
  some (Vector.ofFn fun i => (BigEndian.encodeI64 num).getD (i.val % 8) 0)

/-- Every transaction refers to block 1. -/
def refersToOne : Bytes → Option TxRaw := fun _ => some
  { refBlockBytes := [0, 1]
    refBlockHash := BigEndian.encodeI64 1
    expiration := 0
    contractCount := 1 }

/-- The validator at a head of that chain. -/
def validatorAt (headNum : Int) : ValidatorView Bytes where
  latestBlockHeaderNumber := some headNum
  latestBlockHeaderTimestamp := some (headNum * 3000)
  blockIndex := numberedIndex
  contractChecks := fun _ => .ok ()

/-- One pending transaction, half a second into the slot after the head. -/
def onePending (headNum : Nat) : Attempt Bytes :=
  { attemptAt (headNum * 3000 + 3500) headNum (headNum * 3000) with
    pendingIds := [[1]]
    get := fun _ => some [7] }

def peerAt (headNum : Nat) : PeerView where
  headHash := Vector.replicate 32 0
  headTime := headNum * 3000
  genesisTime := 0
  headWasMaintenance := false
  allowConsensusLogicOptimization := true
  active := [soleWitness.witnessAddress]
  blockIndex := numberedIndex
  now := headNum * 3000 + 3500

def slotAfter (headNum : Nat) : ChosenSlot where
  headNum := headNum
  headId := Vector.replicate 32 0
  blockTime := headNum * 3000 + 3000

/-- The block that is made of it. -/
def madeBlock (headNum : Nat) : Block Bytes :=
  signedBlock soleWitness (onePending headNum) (slotAfter headNum) none (Vector.replicate 65 1)

def madeId (headNum : Nat) : BlockId :=
  (signedHeader soleWitness (onePending headNum) (slotAfter headNum) none).blockId
    soleWitness.codec.sha256

theorem admittedAt_numbered (headNum : Int) (h : mempoolValidate refersToOne (validatorAt headNum) [7] =
    .ok ()) : AdmittedAt refersToOne numberedIndex [7] (validatorAt headNum) headNum :=
  ⟨h, rfl, fun _ _ => rfl⟩

/-- At head 65536, where the transaction was admitted, block 1 is the last in the window. -/
theorem signed_accepted_sample :
    peerReceive soleWitness.codec.sha256 some refersToOne (peerAt 65536)
      (encodeBlock soleWitness.codec.encodeTransaction (madeBlock 65536)) = .ok () := by
  have hsigned : signBlock soleWitness (onePending 65536) 0 =
      .ok (some (slotAfter 65536, madeBlock 65536, madeId 65536)) := by
    decide +kernel
  have hsame : SameHead (peerAt 65536) soleWitness (onePending 65536) :=
    ⟨rfl, rfl, rfl, rfl, ⟨_, rfl, rfl⟩, rfl⟩
  refine (signed_accepted_iff (fun _ => 65536) (fun _ => validatorAt 65536) hsame rfl (by decide) ?_ (by decide) (fun _ => rfl) ?_ hsigned).2 ?_
  · rintro n hn
    cases hn
    decide
  · rintro id tx htx
    cases htx
    refine ⟨admittedAt_numbered 65536 (by decide +kernel), ?_⟩
    rintro n hn
    cases hn
    decide
  · rintro p - raw hraw
    cases hraw
    exact Or.inl (by decide +kernel)

/-- Admitted at head 65536, packed at head 65537: the peer finds block 65537 in place of block 1. -/
theorem signed_rejected_after_window :
    mempoolValidate refersToOne (validatorAt 65536) [7] = .ok () ∧
    (onePending 65537).get [1] = some [7] ∧
    signBlock soleWitness (onePending 65537) 0 = .ok (some (slotAfter 65537, madeBlock 65537, madeId 65537)) ∧
    peerReceive soleWitness.codec.sha256 some refersToOne (peerAt 65537)
      (encodeBlock soleWitness.codec.encodeTransaction (madeBlock 65537)) =
      .error (.refBlock 0 (.hashMismatch 65537 (BigEndian.encodeI64 65537) (BigEndian.encodeI64 1))) := by
  decide +kernel

end TronGoblin
