import TronGoblin.Consensus.Slot

/-!
# Missed slots

How `execute_block` counts the blocks that witnesses produce and miss (`tron-executor/src/lib.rs`, with its own copy of
the slot arithmetic), against the witness that `validate_block_consensus` asks for.

* `validateBlockConsensus_iff`: who may produce at the time of a slot.
* `missed_are_due`: each slot that was skipped is counted for the witness that was due in it.
-/

namespace TronGoblin.Missed

open Checked List

open Proto (Block HeaderRaw)

structure Witness where
  totalProduced : Int
  totalMissed : Int
  latestBlockNum : Int
  latestSlotNum : Int
  deriving DecidableEq

abbrev WitnessStore := Address → Option Witness

/-- Rewrites the row of a witness, if it has one. -/
def WitnessStore.modify (ws : WitnessStore) (a : Address) (f : Witness → Witness) : WitnessStore :=
  Function.update ws a ((ws a).map f)

def Witness.missed (w : Witness) (n : Int) : Witness := { w with totalMissed := satI64 (w.totalMissed + n) }

def Witness.produced (w : Witness) (raw : HeaderRaw) (genesisTs : Int) : Witness :=
  { w with
    totalProduced := satI64 (w.totalProduced + 1)
    latestBlockNum := raw.number
    latestSlotNum := (max (raw.timestamp - genesisTs) 0).tdiv 3000 }

/-- The slot of the block after the head; `slot` in the source. -/
def slotOf (timestamp prevTs genesisTs stateFlag : Int) : Int :=
  let skip := if stateFlag = 1 then 2 else 0
  let headAligned := prevTs - (prevTs - genesisTs) % 3000
  let firstSlotTime := headAligned + (1 + skip) * 3000
  if timestamp < firstSlotTime then 0 else (timestamp - firstSlotTime).tdiv 3000 + 1

def countMissed (ws : WitnessStore) (active : List Address) (slot prevAbs : Int) : WitnessStore :=
  (range (slot - 1).toNat).foldl (fun ws (i : Nat) =>
    match active[((prevAbs + (i + 1)) % active.length).toNat]? with
    | some a => ws.modify a (·.missed 1)
    | none => ws) ws

def countBlock (ws : WitnessStore) (raw : HeaderRaw) (active : List Address) (prevTs : Option Int)
    (genesisTs stateFlag : Int) : WitnessStore :=
  let ws := (decodeWitnessAddress raw.witnessAddress).elim ws fun a => ws.modify a (·.produced raw genesisTs)
  match prevTs with
  | some prev =>
    if 1 < raw.number ∧ active ≠ [] then
      countMissed ws active (slotOf raw.timestamp prev genesisTs stateFlag) ((prev - genesisTs).tdiv 3000)
    else ws
  | none => ws

variable {T : Type} {active : List Address} {head genesis : Int} {maintenance : Bool} {a : Address}

@[simp] theorem modify_apply (ws : WitnessStore) (a b : Address) (f : Witness → Witness) :
    ws.modify a f b = if a = b then (ws b).map f else ws b := by
  rw [WitnessStore.modify, Function.update_apply]
  split <;> simp_all [eq_comm]

theorem val_of_decodeWitnessAddress {bytes : Bytes} (h : decodeWitnessAddress bytes = some a) : bytes = a.val := by
  rw [decodeWitnessAddress] at h
  split at h
  · rw [← Option.some.inj h]
  · cases h

theorem exists_scheduledWitness (hactive : active ≠ []) (slot : Int) : ∃ a, scheduledWitness slot active = some a := by
  have hpos := length_pos_iff.2 hactive
  have hlt : (slot % active.length).toNat < active.length := by
    have := Int.emod_lt_of_pos slot (show (0 : Int) < active.length by omega)
    omega
  refine Option.isSome_iff_exists.1 ?_
  simp [scheduledWitness, scheduledWitnessIndex, SINGLE_REPEAT, hlt]

theorem validateBlockConsensus_iff {block : Block T} {raw : HeaderRaw} {slot : Int} (hslot : 1 ≤ slot)
    (hgenesis : genesis % 3000 = 0) (hhead : genesis ≤ head) (hraw : block.raw = some raw)
    (htime : raw.timestamp = slotTimeMs slot head genesis maintenance MAINTENANCE_SKIP_SLOTS)
    (hdue : scheduledWitness (abSlot head genesis + slot) active = some a) :
    validateBlockConsensus block active head genesis maintenance true = .ok () ↔ raw.witnessAddress = a.val := by
  have hrel : relativeSlot raw.timestamp head genesis maintenance = slot :=
    htime ▸ relativeSlot_slotTimeMs hslot hhead
  constructor
  · intro h
    simp only [validateBlockConsensus, bind_eq_ok, require_eq_ok, orFail_eq_ok, hraw, Option.some.injEq] at h
    obtain ⟨-, -, _, rfl, w, hw, -, -, -, -, -, -, w', hw', rfl⟩ := h
    rw [hrel, hdue] at hw'
    obtain rfl := Option.some.inj hw'
    exact val_of_decodeWitnessAddress hw
  · intro h
    refine validateBlockConsensus_ok hraw h ?_ ?_ (by omega) (hrel.symm ▸ hdue)
    · rw [htime, slotTimeMs_eq, BLOCK_PRODUCED_INTERVAL_MS]
      omega
    · rw [htime, abSlot_slotTimeMs, MAINTENANCE_SKIP_SLOTS]
      split <;> omega

/-- The witness that a block at the time of a slot must have. -/
def Due (T : Type) (active : List Address) (head genesis : Int) (maintenance : Bool) (slot : Int) (a : Address) : Prop :=
  ∀ (block : Block T) (raw : HeaderRaw), block.raw = some raw →
    raw.timestamp = slotTimeMs slot head genesis maintenance MAINTENANCE_SKIP_SLOTS →
    (validateBlockConsensus block active head genesis maintenance true = .ok () ↔ raw.witnessAddress = a.val)

/-- A block raises `totalMissed` once for each slot before its own, of the one witness that was due in it, and
`totalProduced` of its own witness; a counter stops at the largest `i64`. -/
def Blames (T : Type) (ws : WitnessStore) (raw : HeaderRaw) (active : List Address) (head genesis flag : Int) : Prop :=
  ∃ due : Nat → Address,
    let skipped := range (relativeSlot raw.timestamp head genesis (flag = 1) - 1).toNat
    (∀ i ∈ skipped, (ws (due i)).isSome ∧ Due T active head genesis (flag = 1) (i + 1) (due i)) ∧
    (∃ a, raw.witnessAddress = a.val ∧ (ws a).isSome) ∧
    ∀ a, (countBlock ws raw active (some head) genesis flag a).map (fun w => (w.totalProduced, w.totalMissed)) =
      (ws a).map fun w => (satI64 (w.totalProduced + if raw.witnessAddress = a.val then 1 else 0),
        satI64 (w.totalMissed + skipped.countP (due · = a)))

theorem foldl_missed (due : Nat → Address) (l : List Nat) (ws : WitnessStore)
    (hfits : ∀ w ∈ ws a, FitsI64 w.totalMissed) :
    l.foldl (fun ws i => ws.modify (due i) (·.missed 1)) ws a = (ws a).map (·.missed (l.countP (due · = a))) := by
  induction l generalizing ws with
  | nil =>
    cases h : ws a with
    | none => simp [h]
    | some w => simp [h, Witness.missed, satI64_of_fits (hfits w h)]
  | cons i l ih =>
    have hstep (w : Witness) (hw : ws a = some w) : FitsI64 (satI64 (w.totalMissed + 1)) ∧
        satI64 (satI64 (w.totalMissed + 1) + l.countP (due · = a)) =
          satI64 (w.totalMissed + (l.countP (due · = a) + 1)) := by
      have := hfits w hw
      simp only [satI64, FitsI64] at this ⊢
      omega
    rw [foldl_cons, countP_cons, ih]
    · by_cases hi : due i = a <;> cases h : ws a <;> simp_all [Witness.missed]
    · by_cases hi : due i = a <;> cases h : ws a <;> simp_all [Witness.missed]

/-- **Missed slots are blamed on the witness that was due.** -/
theorem missed_are_due {block : Block T} {raw : HeaderRaw} {ws : WitnessStore} {flag : Int}
    (hgenesis : genesis % 3000 = 0) (hhead : genesis ≤ head) (hrows : ∀ a ∈ active, (ws a).isSome)
    (hfits : ∀ a, ∀ w ∈ ws a, FitsI64 w.totalProduced ∧ FitsI64 w.totalMissed) (hraw : block.raw = some raw)
    (hnumber : 1 < raw.number) (hvalid : validateBlockConsensus block active head genesis (flag = 1) true = .ok ()) :
    Blames T ws raw active head genesis flag := by
  simp only [validateBlockConsensus, bind_eq_ok, require_eq_ok, orFail_eq_ok, hraw, Option.some.injEq] at hvalid
  obtain ⟨-, hactive, _, rfl, w, hw, -, -, -, -, -, -, w', hw', rfl⟩ := hvalid
  choose due hdue using fun i : Nat => exists_scheduledWitness hactive (abSlot head genesis + (i + 1))
  have hval := val_of_decodeWitnessAddress hw
  have hslot : slotOf raw.timestamp head genesis flag = relativeSlot raw.timestamp head genesis (flag = 1) := by
    simp [slotOf, relativeSlot, MAINTENANCE_SKIP_SLOTS, BLOCK_PRODUCED_INTERVAL_MS]
  refine ⟨due, fun i _ => ⟨hrows _ (mem_of_getElem? (hdue i)), fun block raw hraw htime =>
    validateBlockConsensus_iff (by omega) hgenesis hhead hraw htime (hdue i)⟩,
    ⟨w', hval, hrows _ (mem_of_getElem? hw')⟩, fun a => ?_⟩
  have hloop (ws : WitnessStore) (slot : Int) : countMissed ws active slot ((head - genesis).tdiv 3000) =
      (range (slot - 1).toNat).foldl (fun ws i => ws.modify (due i) (·.missed 1)) ws := by
    simp only [scheduledWitness, scheduledWitnessIndex, SINGLE_REPEAT, abSlot, BLOCK_PRODUCED_INTERVAL_MS, Int.mul_one,
      Int.ediv_one] at hdue
    simp [countMissed, hdue]
  simp only [countBlock, hw, Option.elim, hnumber, hactive, ne_eq, not_false_eq_true, and_self, if_true, hloop, hslot]
  rw [foldl_missed]
  · by_cases ha : w' = a
    · cases h : ws a <;> simp [ha, h, hval, Witness.produced, Witness.missed]
    · have hne : w'.val ≠ a.val := fun h => ha (Subtype.ext h)
      cases h : ws a with
      | none => simp [ha, h]
      | some w => simp [ha, h, hval, hne, Witness.missed, satI64_of_fits (hfits a w h).1]
  · intro w
    by_cases ha : w' = a
    · simp only [modify_apply, ha, if_true, Option.mem_def, Option.map_eq_some_iff]
      rintro ⟨v, hv, rfl⟩
      exact (hfits a v hv).2
    · simpa [ha] using fun h => (hfits a w h).2

def sampleWitness (n : UInt8) : Address := ⟨n :: replicate 20 n, rfl⟩

def sampleRaw : HeaderRaw := ⟨12000, [], [], 2, 0, (sampleWitness 1).val, 0, []⟩

def sampleStore (missed : Int) : WitnessStore := fun _ => some ⟨0, missed, 0, 0⟩

theorem missed_are_due_sample : Blames Unit (sampleStore 0) sampleRaw [sampleWitness 1, sampleWitness 2] 3000 0 0 :=
  missed_are_due (by decide) (by decide) (by simp [sampleStore]) (by simp [sampleStore, FitsI64]) rfl (by decide)
    (show validateBlockConsensus ⟨[], some ⟨some sampleRaw, []⟩⟩ _ _ _ _ _ = .ok () from rfl)

/-- **A full counter is not raised.**  The two witnesses miss a slot each. -/
theorem full_counter_stays :
    countBlock (sampleStore 0x7fffffffffffffff) sampleRaw [sampleWitness 1, sampleWitness 2] (some 3000) 0 0
      (sampleWitness 2) = sampleStore 0x7fffffffffffffff (sampleWitness 2) := by
  decide

end TronGoblin.Missed
