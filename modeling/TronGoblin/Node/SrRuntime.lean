import TronGoblin.Consensus.Producer
import TronGoblin.Mempool.TxMempool

/-!
# The block-production loop

Model of `SrRuntime::try_produce` and of the loop of `SrRuntime::run` (`tron-node/src/sr_runtime.rs`).
What an attempt finds is an `Attempt`: the clock, the head and the schedule at that moment, the pending
transactions, and how the calls after signing end.

* `chooseSlot_spec`, `tryProduce_spec`: what an attempt that produces a block has found and made.
* `poll_increases`, `run_increasing`: announced blocks go up in slots, under `SlotPassed`.
* `announces_once`: at most one block for each slot.

The loop remembers the number of the last block where it means its slot.  After a fork switch that puts
the head back before the last block's slot, nothing stops a second block for that slot.
-/

namespace TronGoblin

open Checked List
open Proto (Block)

variable {T : Type}

def BLOCK_VERSION : Int := 38

/-- What does not change while the process runs. -/
structure SrRuntime (T : Type) where
  codec : BlockCodec T
  witnessAddress : Address
  /-- Signs with the witness's key. -/
  signPrehash : Hash256 → Except String SignatureBytes
  maxTxsPerBlock : Nat
  genesisBlockTimestamp : Option Int

def SrRuntime.genesisTime (rt : SrRuntime T) : Int := rt.genesisBlockTimestamp.getD 0

/-- What one attempt finds. -/
structure Attempt (T : Type) where
  /-- There is no backup group, or this node is its master. -/
  isMaster : Bool
  /-- `current_time_ms`, which is not negative. -/
  now : Nat
  latestBlockHeaderNumber : Option Int
  latestBlockHeaderHash : Except String (Option Hash256)
  latestBlockHeaderTimestamp : Option Int
  stateFlag : Int
  loadActive : Except String (Option (List Address))
  pendingIds : List TxId
  get : TxId → Option T
  allowAccountStateRoot : Option Int
  dryRunForStateRoot : Block T → Except String Hash256
  khaosPush : Block T → Except PushError Unit
  /-- Both block stores. -/
  persist : Block T → Except String Unit
  execute : Block T → Except String Unit

inductive SrRuntimeError
  | storage (message : String)
  | produce (cause : ProducerError)
  | dryRun (message : String)
  | khaosPush (cause : PushError)
  | execute (message : String)
  deriving DecidableEq

structure ProducedBlockNotice where
  blockId : BlockId
  blockNum : Int
  encoded : Bytes

/-! ## One attempt -/

/-- A slot that belongs to the witness. -/
structure ChosenSlot where
  headNum : Int
  headId : Hash256
  blockTime : Int
  deriving DecidableEq

/-- The first part of `try_produce`: is it our slot? -/
def chooseSlot (rt : SrRuntime T) (a : Attempt T) (lastProducedSlot : Int) :
    Except SrRuntimeError (Option ChosenSlot) := do
  if !a.isMaster then
    return none
  let some headNum := a.latestBlockHeaderNumber | return none
  let headHash ← a.latestBlockHeaderHash.mapError fun e => .storage s!"read head hash: {e}"
  let some headId := headHash | return none
  let some headTime := a.latestBlockHeaderTimestamp | return none
  let headWasMaintenance := a.stateFlag == 1
  let slotsSince :=
    slotFromHead a.now headTime rt.genesisTime headWasMaintenance MAINTENANCE_SKIP_SLOTS
  if slotsSince < 1 then
    return none
  let targetSlot := abSlot headTime rt.genesisTime + slotsSince
  if targetSlot ≤ lastProducedSlot then
    return none
  let active ← a.loadActive.mapError fun e => .storage s!"load active witnesses: {e}"
  if scheduledWitness targetSlot (active.getD []) ≠ some rt.witnessAddress then
    -- no active witnesses, or another one
    return none
  return some
    { headNum := headNum
      headId := headId
      blockTime :=
        slotTimeMs slotsSince headTime rt.genesisTime headWasMaintenance MAINTENANCE_SKIP_SLOTS }

/-- The packing loop; those that do not fit are passed over. -/
def packTransactions (codec : BlockCodec T) (get : TxId → Option T) : List TxId → Nat → List (TxId × T)
  | [], _ => []
  | id :: ids, currentSize =>
    match get id with
    | none => packTransactions codec get ids currentSize
    | some tx =>
      let packSize := txPackSize (codec.encodeTransaction tx).length
      if txFitsInBlock currentSize packSize then
        (id, tx) :: packTransactions codec get ids (currentSize + packSize)
      else packTransactions codec get ids currentSize

def ChosenSlot.newNumber (slot : ChosenSlot) : Int := BigEndian.wrapI64 (slot.headNum + 1)

/-- A block without transactions and signature; `0` if there is none. -/
def headerOnlySize (rt : SrRuntime T) (slot : ChosenSlot) : Nat :=
  match assembleBlock rt.codec slot.headId slot.newNumber slot.blockTime rt.witnessAddress []
    BLOCK_VERSION with
  | .ok block => (Proto.encodeBlock rt.codec.encodeTransaction block).length
  | .error _ => 0

def pickTransactions (rt : SrRuntime T) (a : Attempt T) (slot : ChosenSlot) : List (TxId × T) :=
  packTransactions rt.codec a.get (a.pendingIds.take rt.maxTxsPerBlock) (headerOnlySize rt slot)

/-- The state root to embed, if it is enabled. -/
def stateRoot (rt : SrRuntime T) (a : Attempt T) (slot : ChosenSlot) (txs : List T) :
    Except SrRuntimeError (Option Hash256) := do
  if a.allowAccountStateRoot.getD 0 = 1 then
    let unsigned ← (assembleBlock rt.codec slot.headId slot.newNumber slot.blockTime rt.witnessAddress
      txs BLOCK_VERSION).mapError .produce
    let root ← (a.dryRunForStateRoot unsigned).mapError .dryRun
    return some root
  else
    return none

/-- `try_produce` up to the signature: the slot, and the block with its id. -/
def signBlock (rt : SrRuntime T) (a : Attempt T) (lastProducedSlot : Int) :
    Except SrRuntimeError (Option (ChosenSlot × Block T × BlockId)) := do
  match ← chooseSlot rt a lastProducedSlot with
  | none => return none
  | some slot =>
    let txs := (pickTransactions rt a slot).map (·.2)
    let root ← stateRoot rt a slot txs
    let (block, blockId) ← (produceBlockWithStateRoot rt.codec slot.headId slot.newNumber
      slot.blockTime rt.witnessAddress rt.signPrehash txs BLOCK_VERSION root).mapError .produce
    return some (slot, block, blockId)

/-- `try_produce`: the notice, and the block that it holds. -/
def tryProduce (rt : SrRuntime T) (a : Attempt T) (lastProducedSlot : Int) :
    Except SrRuntimeError (Option (ProducedBlockNotice × Block T)) := do
  match ← signBlock rt a lastProducedSlot with
  | none => return none
  | some (slot, block, blockId) =>
    match a.khaosPush block with
    -- an unlinked block seeds an empty tree
    | .ok () | .error .unlinked => pure ()
    | .error e => throw (.khaosPush e)
    (a.persist block).mapError .storage
    (a.execute block).mapError .execute
    return some
      ({ blockId := blockId
         blockNum := slot.newNumber
         encoded := Proto.encodeBlock rt.codec.encodeTransaction block }, block)

/-! ## What an attempt has found -/

/-- The slot after the head is the witness's own, and its time has come. -/
structure OwnSlot (rt : SrRuntime T) (a : Attempt T) (slot : ChosenSlot) (headTime : Int)
    (active : List Address) (slotsSince : Int) : Prop where
  head : a.latestBlockHeaderNumber = some slot.headNum
  hash : a.latestBlockHeaderHash = .ok (some slot.headId)
  time : a.latestBlockHeaderTimestamp = some headTime
  since : slotsSince = slotFromHead a.now headTime rt.genesisTime (a.stateFlag == 1) MAINTENANCE_SKIP_SLOTS
  pos : 1 ≤ slotsSince
  loaded : ∃ l, a.loadActive = .ok l ∧ l.getD [] = active
  own : scheduledWitness (abSlot headTime rt.genesisTime + slotsSince) active = some rt.witnessAddress
  blockTime : slot.blockTime = slotTimeMs slotsSince headTime rt.genesisTime (a.stateFlag == 1) MAINTENANCE_SKIP_SLOTS

variable {rt : SrRuntime T} {a : Attempt T} {last : Int} {slot : ChosenSlot}

theorem chooseSlot_spec (h : chooseSlot rt a last = .ok (some slot)) :
    ∃ headTime active slotsSince, OwnSlot rt a slot headTime active slotsSince := by
  unfold chooseSlot at h
  split at h
  · cases h
  split at h
  on_goal 2 => cases h
  rename_i headNum hhead
  obtain ⟨headHash, hhash, h⟩ := bind_eq_ok.1 h
  split at h
  on_goal 2 => cases h
  split at h
  on_goal 2 => cases h
  rename_i headTime htime
  dsimp only at h
  split at h
  · cases h
  split at h
  · cases h
  obtain ⟨active, hactive, h⟩ := bind_eq_ok.1 h
  split at h
  · cases h
  rename_i hown
  cases h
  exact ⟨headTime, active.getD [], _, hhead, mapError_eq_ok.1 hhash, htime, rfl, by omega,
    ⟨active, mapError_eq_ok.1 hactive, rfl⟩, not_not.1 hown, rfl⟩

def signedHeader (rt : SrRuntime T) (a : Attempt T) (slot : ChosenSlot) (root : Option Hash256) : Proto.HeaderRaw :=
  withStateRoot (assembledHeader rt.codec slot.headId slot.newNumber slot.blockTime rt.witnessAddress
    ((pickTransactions rt a slot).map (·.2)) BLOCK_VERSION) root

def signedBlock (rt : SrRuntime T) (a : Attempt T) (slot : ChosenSlot) (root : Option Hash256)
    (signature : SignatureBytes) : Block T where
  transactions := (pickTransactions rt a slot).map (·.2)
  blockHeader := some
    { rawData := some (signedHeader rt a slot root)
      witnessSignature := signature.toList }

theorem signBlock_spec {block : Block T} {id : BlockId} (h : signBlock rt a last = .ok (some (slot, block, id))) :
    (∃ headTime active slotsSince, OwnSlot rt a slot headTime active slotsSince) ∧
      BlockId.height slot.headId.toList < slot.newNumber ∧
      ∃ root signature, block = signedBlock rt a slot root signature := by
  obtain ⟨chosen, hchoose, h⟩ := bind_eq_ok.1 h
  split at h
  · cases h
  obtain ⟨root, -, h⟩ := bind_eq_ok.1 h
  obtain ⟨⟨block', id'⟩, hproduce, h⟩ := bind_eq_ok.1 h
  cases h
  obtain ⟨hnum, signature, hblock⟩ := produce_eq_ok (mapError_eq_ok.1 hproduce)
  exact ⟨chooseSlot_spec hchoose, hnum, root, signature, hblock⟩

/-- The time in a block's header. -/
def Proto.Block.timestamp (block : Block T) : Int := (block.raw.map (·.timestamp)).getD 0

theorem tryProduce_spec {notice : ProducedBlockNotice} {block : Block T}
    (h : tryProduce rt a last = .ok (some (notice, block))) :
    ∃ slot headTime active slotsSince, OwnSlot rt a slot headTime active slotsSince ∧
      block.timestamp = slot.blockTime := by
  obtain ⟨signed, hsign, h⟩ := bind_eq_ok.1 h
  split at h
  · cases h
  rename_i slot block' id
  obtain ⟨⟨headTime, active, slotsSince, hown⟩, -, root, signature, hblock⟩ := signBlock_spec hsign
  have hmade : block = block' := by
    split at h
    all_goals first | cases h | skip
    all_goals
      obtain ⟨_, -, h⟩ := bind_eq_ok.1 h
      obtain ⟨_, -, h⟩ := bind_eq_ok.1 h
      cases h
      rfl
  refine ⟨slot, headTime, active, slotsSince, hown, ?_⟩
  rw [hmade, hblock]
  exact withStateRoot_timestamp _ root

/-! ## The loop -/

/-- The memory of the loop, and the blocks announced so far. -/
structure LoopState (T : Type) where
  lastProducedSlot : Int
  announced : List (Block T)

def LoopState.init : LoopState T := ⟨-0x8000000000000000, []⟩

/-- One tick. -/
def poll (rt : SrRuntime T) (st : LoopState T) (a : Attempt T) : LoopState T :=
  match tryProduce rt a st.lastProducedSlot with
  | .ok (some (notice, block)) =>
    { lastProducedSlot := notice.blockNum
      announced := st.announced ++ [block] }
  | .ok none => st
  | .error _ => st

def runLoop (rt : SrRuntime T) (attempts : List (Attempt T)) : LoopState T :=
  attempts.foldl (poll rt) .init

/-- The slot of the last announced block is over, or the head has reached it. -/
def SlotPassed (rt : SrRuntime T) (announced : List (Block T)) (a : Attempt T) : Prop :=
  ∀ block ∈ announced.getLast?, block.timestamp + BLOCK_PRODUCED_INTERVAL_MS ≤ a.now ∨
    ∀ headTime ∈ a.latestBlockHeaderTimestamp,
      abSlot block.timestamp rt.genesisTime ≤ abSlot headTime rt.genesisTime

def SrRuntime.slotOf (rt : SrRuntime T) (block : Block T) : Int :=
  abSlot block.timestamp rt.genesisTime

/-- Blocks for slots that go up, each at the beginning of its slot. -/
structure Increasing (rt : SrRuntime T) (announced : List (Block T)) : Prop where
  up : announced.Pairwise fun b b' => rt.slotOf b < rt.slotOf b'
  aligned : ∀ b ∈ announced, b.timestamp = rt.genesisTime + 3000 * rt.slotOf b

theorem Increasing.lt_of_last {announced : List (Block T)} (h : Increasing rt announced) {s : Int}
    (hlast : ∀ b ∈ announced.getLast?, rt.slotOf b < s) : ∀ b ∈ announced, rt.slotOf b < s := by
  intro b hb
  rcases eq_nil_or_concat' announced with rfl | ⟨earlier, last, rfl⟩
  · cases hb
  · have hls := hlast last (by simp)
    rcases mem_append.1 hb with hb | hb
    · exact Int.lt_trans ((pairwise_append.1 h.up).2.2 b hb last (by simp)) hls
    · rwa [mem_singleton.1 hb]

/-- A block that was produced begins its slot, and comes after the head. -/
theorem OwnSlot.slot_spec {headTime slotsSince : Int} {active : List Address}
    (h : OwnSlot rt a slot headTime active slotsSince) :
    slot.blockTime = rt.genesisTime + 3000 * abSlot slot.blockTime rt.genesisTime ∧
      abSlot headTime rt.genesisTime < abSlot slot.blockTime rt.genesisTime ∧
      slot.blockTime ≤ a.now ∧ a.now < slot.blockTime + BLOCK_PRODUCED_INTERVAL_MS := by
  have hpos := h.pos
  have hslot := abSlot_slotTimeMs slotsSince headTime rt.genesisTime (a.stateFlag == 1)
    MAINTENANCE_SKIP_SLOTS
  have htime := slotTimeMs_eq slotsSince headTime rt.genesisTime (a.stateFlag == 1)
    MAINTENANCE_SKIP_SLOTS
  have hnow := slotFromHead_spec (h.since ▸ h.pos)
  rw [← h.since, ← h.blockTime] at hnow
  rw [← h.blockTime] at hslot htime
  refine ⟨by rw [hslot, ← htime], ?_, hnow.1, hnow.2⟩
  rw [hslot]
  unfold MAINTENANCE_SKIP_SLOTS
  split <;> omega

theorem poll_increases {st : LoopState T} (hinv : Increasing rt st.announced)
    (hpassed : SlotPassed rt st.announced a) : Increasing rt (poll rt st a).announced := by
  unfold poll
  split
  on_goal 2 => exact hinv
  on_goal 2 => exact hinv
  rename_i notice block hproduce
  obtain ⟨slot, headTime, active, slotsSince, hown, htime⟩ := tryProduce_spec hproduce
  obtain ⟨haligned, hhead, hnow, hnow'⟩ := hown.slot_spec
  have hslot : rt.slotOf block = abSlot slot.blockTime rt.genesisTime := by
    rw [SrRuntime.slotOf, htime]
  -- the last block announced is in the highest slot
  have hlast : ∀ b ∈ st.announced.getLast?, rt.slotOf b < rt.slotOf block := by
    intro b hb
    have hb' := hinv.aligned b (mem_of_getLast? hb)
    rcases hpassed b hb with hover | hreached
    · omega
    · have := hreached headTime hown.time
      rw [hslot, SrRuntime.slotOf]
      omega
  refine ⟨?_, ?_⟩
  · rw [pairwise_append]
    refine ⟨hinv.up, pairwise_singleton _ _, ?_⟩
    intro b hb b' hb'
    rw [mem_singleton] at hb'
    subst hb'
    exact hinv.lt_of_last hlast b hb
  · intro b hb
    rcases mem_append.1 hb with hb | hb
    · exact hinv.aligned b hb
    · rw [mem_singleton] at hb
      rw [hb, hslot, htime]
      exact haligned

theorem run_increasing {attempts : List (Attempt T)}
    (h : ∀ before a after, attempts = before ++ a :: after → SlotPassed rt (runLoop rt before).announced a) :
    Increasing rt (runLoop rt attempts).announced := by
  induction attempts using List.reverseRecOn with
  | nil => exact ⟨List.Pairwise.nil, by simp [runLoop, LoopState.init]⟩
  | append_singleton attempts a ih =>
    have hprev := ih fun before a' after heq =>
      h before a' (after ++ [a]) (by rw [heq]; simp)
    rw [runLoop, foldl_append]
    exact poll_increases hprev (h attempts a [] rfl)

/-- **At most one announced block for each slot.** -/
theorem announces_once (rt : SrRuntime T) (attempts : List (Attempt T))
    (h : ∀ before a after, attempts = before ++ a :: after → SlotPassed rt (runLoop rt before).announced a) :
    ∀ b ∈ (runLoop rt attempts).announced, ∀ b' ∈ (runLoop rt attempts).announced, b ≠ b' →
      abSlot b.timestamp rt.genesisTime ≠ abSlot b'.timestamp rt.genesisTime := by
  have hup := (run_increasing h).up
  have hne : (runLoop rt attempts).announced.Pairwise fun b b' => rt.slotOf b ≠ rt.slotOf b' :=
    hup.imp fun hlt => Int.ne_of_lt hlt
  have hsymm : Std.Symm fun b b' : Block T => rt.slotOf b ≠ rt.slotOf b' := ⟨fun _ _ hs => hs.symm⟩
  intro b hb b' hb' hdiff
  exact hne.forall hb hb' hdiff

/-! ## A fork switch -/

/-- A witness that is the only one; transactions are byte strings. -/
def soleWitness : SrRuntime Bytes where
  codec := ⟨fun _ => Vector.replicate 32 0, id⟩
  witnessAddress := ⟨List.replicate 21 0x41, rfl⟩
  signPrehash := fun _ => .ok (Vector.replicate 65 1)
  maxTxsPerBlock := 10
  genesisBlockTimestamp := some 0

/-- An attempt at which all calls succeed. -/
def attemptAt (now : Nat) (headNum headTime : Int) : Attempt Bytes where
  isMaster := true
  now := now
  latestBlockHeaderNumber := some headNum
  latestBlockHeaderHash := .ok (some (Vector.replicate 32 0))
  latestBlockHeaderTimestamp := some headTime
  stateFlag := 0
  loadActive := .ok (some [⟨List.replicate 21 0x41, rfl⟩])
  pendingIds := []
  get := fun _ => none
  allowAccountStateRoot := none
  dryRunForStateRoot := fun _ => .ok (Vector.replicate 32 0)
  khaosPush := fun _ => .ok ()
  persist := fun _ => .ok ()
  execute := fun _ => .ok ()

/-- On a head that goes on, one block after the other. -/
theorem announces_once_sample :
    ((runLoop soleWitness [attemptAt 33000 1 30000, attemptAt 36500 2 33000]).announced.map
      fun b => soleWitness.slotOf b) = [11, 12] ∧
    ∀ b ∈ (runLoop soleWitness [attemptAt 33000 1 30000, attemptAt 36500 2 33000]).announced,
    ∀ b' ∈ (runLoop soleWitness [attemptAt 33000 1 30000, attemptAt 36500 2 33000]).announced,
      b ≠ b' → abSlot b.timestamp 0 ≠ abSlot b'.timestamp 0 := by
  refine ⟨by decide +kernel, announces_once soleWitness _ ?_⟩
  intro before a after heq
  rcases before with _ | ⟨first, _ | ⟨second, rest⟩⟩
  · intro b hb
    cases hb
  · -- the second attempt is made when slot 11 is over
    obtain ⟨rfl, rfl, -⟩ := heq
    intro b hb
    have htime : (runLoop soleWitness [attemptAt 33000 1 30000]).announced.getLast?.map
        (·.timestamp) = some 33000 := by decide +kernel
    rw [Option.mem_def.1 hb, Option.map_some, Option.some.injEq] at htime
    left
    rw [htime]
    decide
  · simp at heq

/-- The head is block 1 in slot 10, and block 2 is announced for slot 11.  Another branch wins, whose
head is block 3 in slot 10; within the same slot 11, block 4 is announced. -/
theorem fork_switch_announces_twice :
    ((runLoop soleWitness [attemptAt 33000 1 30000, attemptAt 33500 3 30000]).announced.map
      fun b => (b.raw.map (·.number), b.timestamp, soleWitness.slotOf b)) =
      [(some 2, 33000, 11), (some 4, 33000, 11)] := by
  decide +kernel

end TronGoblin
