import TronGoblin.Consensus.Pbft
import TronGoblin.Lib.Checked
import TronGoblin.Types.Block

/-!
# Slots

Model of the slot arithmetic (`tron-consensus/src/slot.rs`) and of the checks on a block that depend on
it or on its size (`tron-consensus/src/validate.rs`).  Times are milliseconds; division and remainder
truncate as in the source, except where it asks for the Euclidean remainder.

* `slotFromHead_spec`: the slot found for a time begins at most one interval before it.
* `abSlot_slotTimeMs`: the absolute slot of the time at which a slot begins.
* `checkBlockMessageAdmission`, `validateBlockConsensus`: checks of a received block.
-/

namespace TronGoblin

open Protobuf Checked

open Proto (Block)

def BLOCK_PRODUCED_INTERVAL_MS : Int := 3000

def SINGLE_REPEAT : Int := 1

def MAINTENANCE_SKIP_SLOTS : Int := 2

/-! ## Slot arithmetic -/

def abSlot (timeMs genesisTimeMs : Int) : Int := (timeMs - genesisTimeMs).tdiv BLOCK_PRODUCED_INTERVAL_MS

def slotTimeMs (slot headBlockTimeMs genesisTimeMs : Int) (headWasMaintenance : Bool)
    (maintenanceSkipSlots : Int) : Int :=
  let effectiveSlot := if headWasMaintenance then slot + maintenanceSkipSlots else slot
  let headAligned :=
    headBlockTimeMs - (headBlockTimeMs - genesisTimeMs).tmod BLOCK_PRODUCED_INTERVAL_MS
  headAligned + BLOCK_PRODUCED_INTERVAL_MS * effectiveSlot

def slotFromHead (nowMs headBlockTimeMs genesisTimeMs : Int) (headWasMaintenance : Bool)
    (maintenanceSkipSlots : Int) : Int :=
  let firstSlotTime :=
    slotTimeMs 1 headBlockTimeMs genesisTimeMs headWasMaintenance maintenanceSkipSlots
  if nowMs < firstSlotTime then 0
  else (nowMs - firstSlotTime).tdiv BLOCK_PRODUCED_INTERVAL_MS + 1

/-- The list is not empty. -/
def scheduledWitnessIndex (slot : Int) (activeWitnessCount : Nat) : Nat :=
  (slot % (activeWitnessCount * SINGLE_REPEAT) / SINGLE_REPEAT).toNat

/-- `none` only for an empty list. -/
def scheduledWitness (slot : Int) (activeWitnesses : List Address) : Option Address :=
  activeWitnesses[scheduledWitnessIndex slot activeWitnesses.length]?

def decodeWitnessAddress (bytes : Bytes) : Option Address :=
  if h : bytes.length = 21 then some ⟨bytes, h⟩ else none

theorem slotTimeMs_eq (slot head genesis : Int) (maintenance : Bool) (skip : Int) :
    slotTimeMs slot head genesis maintenance skip =
      genesis + 3000 * (abSlot head genesis + slot + if maintenance then skip else 0) := by
  have hdiv := Int.mul_tdiv_add_tmod (head - genesis) 3000
  unfold slotTimeMs abSlot BLOCK_PRODUCED_INTERVAL_MS
  cases maintenance <;> simp <;> omega

theorem abSlot_slotTimeMs (slot head genesis : Int) (maintenance : Bool) (skip : Int) :
    abSlot (slotTimeMs slot head genesis maintenance skip) genesis =
      abSlot head genesis + slot + if maintenance then skip else 0 := by
  rw [slotTimeMs_eq]
  generalize abSlot head genesis + slot + (if maintenance then skip else 0) = k
  have hk : genesis + 3000 * k - genesis = 3000 * k := by omega
  rw [abSlot, hk, BLOCK_PRODUCED_INTERVAL_MS]
  exact Int.mul_tdiv_cancel_left k (by decide)

theorem slotFromHead_spec {now head genesis skip : Int} {maintenance : Bool}
    (h : 1 ≤ slotFromHead now head genesis maintenance skip) :
    slotTimeMs (slotFromHead now head genesis maintenance skip) head genesis maintenance skip ≤ now ∧
      now < slotTimeMs (slotFromHead now head genesis maintenance skip) head genesis maintenance skip
        + BLOCK_PRODUCED_INTERVAL_MS := by
  have hfirst := slotTimeMs_eq 1 head genesis maintenance skip
  rw [slotTimeMs_eq]
  unfold slotFromHead at h ⊢
  dsimp only at h ⊢
  rw [hfirst] at h ⊢
  generalize (if maintenance then skip else 0) = k at h ⊢
  split at h
  · omega
  · rename_i hnow
    rw [if_neg hnow, Int.tdiv_eq_ediv_of_nonneg (by omega)]
    unfold BLOCK_PRODUCED_INTERVAL_MS
    omega

/-! ## Size and time of a received block -/

def BLOCK_SIZE : Nat := 2000000

def MAX_BLOCK_MESSAGE_SIZE : Nat := BLOCK_SIZE + 1000

inductive BlockAdmissionError
  | sizeOverLimit (size : Nat)
  | timeTooFarAhead (timestamp gapMs : Int)
  deriving DecidableEq

def checkBlockMessageAdmission (serializedSize : Nat) (blockTimestampMs nowMs : Int) :
    Except BlockAdmissionError Unit :=
  if MAX_BLOCK_MESSAGE_SIZE < serializedSize then .error (.sizeOverLimit serializedSize)
  else
    let gap := blockTimestampMs - nowMs
    if BLOCK_PRODUCED_INTERVAL_MS ≤ gap then .error (.timeTooFarAhead blockTimestampMs gap)
    else .ok ()

/-- A sum that saturates is over the limit as well. -/
def txFitsInBlock (currentSize txPackSize : Nat) : Bool := decide (currentSize + txPackSize ≤ BLOCK_SIZE)

/-- The loop of `varint_len`; a `usize` has at most ten groups. -/
def varintLenFrom : Nat → Nat → Nat → Nat
  | 0, _, n => n
  | fuel + 1, v, n => if 0 < v then varintLenFrom fuel (v >>> 7) (n + 1) else n

def varintLen (value : Nat) : Nat := varintLenFrom 9 (value >>> 7) 1

def txPackSize (txSerializedSize : Nat) : Nat := 1 + varintLen txSerializedSize + txSerializedSize

theorem varintLenFrom_eq (k v n : Nat) : varintLenFrom k (v >>> 7) n + 1 = n + (encodeGroups k v).length := by
  induction k generalizing v n with
  | zero => simp [varintLenFrom, encodeGroups]
  | succ k ih =>
    have hshift : v >>> 7 = v / 128 := Nat.shiftRight_eq_div_pow v 7
    rw [varintLenFrom, encodeGroups]
    by_cases hv : v < 128
    · rw [if_neg (by omega), if_pos hv]
      simp
    · rw [if_pos (by omega), if_neg hv, ih, List.length_cons, hshift]
      omega

theorem varintLen_eq (v : Nat) : varintLen v = (encodeVarint v).length := by
  have := varintLenFrom_eq 9 v 1
  unfold varintLen encodeVarint
  omega

/-- `tx_pack_size` is what a transaction adds to its block. -/
theorem length_encodeField_tx (bytes : Bytes) : (encodeField ⟨1, .len bytes⟩).length = txPackSize bytes.length := by
  have hkey : (encodeKey 1 2).length = 1 := by decide
  simp only [encodeField, encodePayload, Payload.wire, List.length_append, hkey, txPackSize, varintLen_eq]
  omega

/-! ## The consensus check -/

inductive ConsensusError
  | noHeader
  | invalidWitnessAddress
  | emptyActiveWitnesses
  | wrongWitness (slot : Int) (expected got : Address)
  | misaligned (timestamp : Int)
  | nonAdvancingSlot (bSlot hSlot : Int)
  | zeroSlot
  deriving DecidableEq

def relativeSlot (timeMs headTimeMs genesisTimeMs : Int) (headWasMaintenance : Bool) : Int :=
  let skip := if headWasMaintenance then MAINTENANCE_SKIP_SLOTS else 0
  let headAligned := headTimeMs - (headTimeMs - genesisTimeMs) % BLOCK_PRODUCED_INTERVAL_MS
  let firstSlotTime := headAligned + (1 + skip) * BLOCK_PRODUCED_INTERVAL_MS
  if timeMs < firstSlotTime then 0
  else (timeMs - firstSlotTime).tdiv BLOCK_PRODUCED_INTERVAL_MS + 1

def validateBlockConsensus {T : Type} (block : Block T) (activeWitnesses : List Address)
    (headTimeMs genesisTimeMs : Int) (headWasMaintenance allowConsensusLogicOptimization : Bool) :
    Except ConsensusError Unit := do
  require (activeWitnesses ≠ []) .emptyActiveWitnesses
  let raw ← orFail block.raw .noHeader
  let blockWitness ← orFail (decodeWitnessAddress raw.witnessAddress) .invalidWitnessAddress
  let timestamp := raw.timestamp
  require
    (¬ (allowConsensusLogicOptimization ∧ timestamp % BLOCK_PRODUCED_INTERVAL_MS ≠ 0))
    (.misaligned timestamp)
  let bSlot := abSlot timestamp genesisTimeMs
  let hSlot := abSlot headTimeMs genesisTimeMs
  require (¬ bSlot ≤ hSlot) (.nonAdvancingSlot bSlot hSlot)
  let slot := relativeSlot timestamp headTimeMs genesisTimeMs headWasMaintenance
  require (¬ (slot = 0 ∧ allowConsensusLogicOptimization)) .zeroSlot
  let currentSlot := hSlot + slot
  -- there is one, since the list is not empty
  let expected ← orFail (scheduledWitness currentSlot activeWitnesses) .emptyActiveWitnesses
  require (expected = blockWitness) (.wrongWitness slot expected blockWitness)

/-- For a head after the genesis block, the validator finds the slot that the producer chose. -/
theorem relativeSlot_slotTimeMs {slot head genesis : Int} {maintenance : Bool} (hslot : 1 ≤ slot)
    (hhead : genesis ≤ head) :
    relativeSlot (slotTimeMs slot head genesis maintenance MAINTENANCE_SKIP_SLOTS) head genesis
      maintenance = slot := by
  have hmod : head - (head - genesis) % BLOCK_PRODUCED_INTERVAL_MS = genesis + 3000 * abSlot head genesis := by
    unfold abSlot BLOCK_PRODUCED_INTERVAL_MS
    rw [Int.tdiv_eq_ediv_of_nonneg (by omega)]
    omega
  unfold relativeSlot
  rw [slotTimeMs_eq, hmod]
  unfold BLOCK_PRODUCED_INTERVAL_MS
  rw [if_neg (by omega), Int.tdiv_eq_ediv_of_nonneg (by omega)]
  omega

theorem decodeWitnessAddress_val (address : Address) : decodeWitnessAddress address.val = some address := by
  rw [decodeWitnessAddress, dif_pos address.property]

/-- What it takes to pass. -/
theorem validateBlockConsensus_ok {T : Type} {block : Block T} {raw : Proto.HeaderRaw} {witness : Address}
    {active : List Address} {head genesis : Int} {maintenance optimization : Bool} (hraw : block.raw = some raw)
    (hwitness : raw.witnessAddress = witness.val) (haligned : raw.timestamp % BLOCK_PRODUCED_INTERVAL_MS = 0)
    (hslot : abSlot head genesis < abSlot raw.timestamp genesis)
    (hrel : relativeSlot raw.timestamp head genesis maintenance ≠ 0)
    (hown : scheduledWitness (abSlot head genesis + relativeSlot raw.timestamp head genesis maintenance)
      active = some witness) :
    validateBlockConsensus block active head genesis maintenance optimization = .ok () := by
  have hactive : active ≠ [] := by
    rintro rfl
    simp [scheduledWitness] at hown
  simp only [validateBlockConsensus, bind_eq_ok, require_eq_ok, orFail_eq_ok]
  refine ⟨(), hactive, raw, hraw, witness, ?_, (), fun h => h.2 haligned, (), Int.not_le.2 hslot, (),
    fun h => hrel h.1, witness, hown, rfl⟩
  rw [hwitness, decodeWitnessAddress_val]

end TronGoblin
