import Mathlib.Algebra.Order.BigOperators.Group.List
import Mathlib.Algebra.Order.Ring.Int
import TronGoblin.Chainbase.BlockStm
import TronGoblin.Lib.Rounding
import TronGoblin.Types.Resource

/-!
# Public free bandwidth

Model of `try_use_free_net` (`tron-executor/src/bandwidth.rs`), and of how `execute_block_parallel`
(`tron-executor/src/parallel.rs`) keeps the public counter out of the multi-version memory: every transaction decides
against the committed counter, and the counter is replayed at the commit from the bytes that were accepted.

* `increase`: the windowed average of `tron-types/src/resource.rs`; in one slot it is addition
  (`increase_same_slot`, `same_slot_charges`).
* `tryUseFreeNet`, `serial`: the decision on the running counter.
* `CounterView`: the deferred rows of the counter, in the view of a speculative execution.
* `speculative`, `publicNetFold`: the decisions on what the views show, and the replay.
* `fold_matches_serial`: if the replay does not give up, both runs are the same.
-/

namespace TronGoblin.FreeNet

open Option List BlockStm
open BigEndian (wrapI64)
open Checked (satI64 FitsI64)
open Resource (WINDOW_SIZE_BLOCKS PRECISION)
open Rounding (ceil)

/-! ## The counter -/

/-- The decay of an average by the time that has passed, of which the code takes the nearest whole number in floating
point: only its sign is assumed. -/
structure Fade where
  faded : Int → Int → Int → Int
  nonneg : ∀ window delta average, 0 < window - delta → 0 ≤ average → 0 ≤ faded window delta average

/-- `increase`, before the cast back to `i64`. -/
def increaseWide (fade : Fade) (lastUsage usage lastTime now window : Int) : Int :=
  if window ≤ 0 then 0
  else
    let averageUsage := ceil (usage * PRECISION) window
    let averageLast := ceil (lastUsage * PRECISION) window
    let averageLast :=
      if lastTime ≠ now then
        if now < lastTime + window then fade.faded window (now - lastTime) averageLast else 0
      else averageLast
    ((averageLast + averageUsage) * window).tdiv PRECISION

def increase (fade : Fade) (lastUsage usage lastTime now window : Int) : Int :=
  wrapI64 (increaseWide fade lastUsage usage lastTime now window)

def increaseDefault (fade : Fade) (lastUsage usage lastTime now : Int) : Int :=
  wrapI64 (increaseWide fade lastUsage (max 0 usage) lastTime now WINDOW_SIZE_BLOCKS)

section Counter

variable {fade : Fade}

theorem ceil_nonneg {a b : Int} (hb : 0 < b) (ha : 0 ≤ a) : 0 ≤ ceil a b :=
  Rounding.le_ceil hb ha (by rwa [zero_mul])

theorem increaseWide_nonneg (fade : Fade) {lastUsage usage : Int} (hl : 0 ≤ lastUsage) (hu : 0 ≤ usage)
    (lastTime now : Int) : 0 ≤ increaseWide fade lastUsage usage lastTime now WINDOW_SIZE_BLOCKS := by
  have hw : 0 < WINDOW_SIZE_BLOCKS := by decide
  have hp : 0 ≤ PRECISION := by decide
  have hadd := ceil_nonneg hw (Int.mul_nonneg hu hp)
  have hlast := ceil_nonneg hw (Int.mul_nonneg hl hp)
  refine Int.tdiv_nonneg (Int.mul_nonneg (Int.add_nonneg ?_ hadd) (Int.le_of_lt hw)) hp
  split
  · split
    · exact fade.nonneg _ _ _ (by omega) hlast
    · exact Int.le_refl 0
  · exact hlast

/-- **Within one slot usage adds up**: an average has at least twice as many parts as the window has slots, so what is
rounded up is rounded away again. -/
theorem increase_same_slot {lastUsage usage window : Int} (hl : 0 ≤ lastUsage) (hu : 0 ≤ usage) (hw : 0 < window)
    (hsmall : window ≤ 500000) (hfits : lastUsage + usage ≤ 0x7fffffffffffffff) (now : Int) :
    increase fade lastUsage usage now now window = lastUsage + usage := by
  have hlast := @Rounding.le_ceil_mul (lastUsage * PRECISION) window hw (mul_nonneg hl (by decide))
  have hadd := @Rounding.le_ceil_mul (usage * PRECISION) window hw (mul_nonneg hu (by decide))
  have hwide : increaseWide fade lastUsage usage now now window = lastUsage + usage := by
    unfold increaseWide
    dsimp only
    rw [if_neg (not_not.2 rfl), add_mul]
    simp only [PRECISION] at hlast hadd ⊢
    rw [Int.tdiv_eq_ediv_of_nonneg (by omega)]
    omega
  rw [increase, hwide]
  exact Checked.wrapI64_of_fits ⟨by omega, hfits⟩

theorem increaseDefault_same_slot {lastUsage usage : Int} (hl : 0 ≤ lastUsage) (hu : 0 ≤ usage)
    (hfits : lastUsage + usage ≤ 0x7fffffffffffffff) (now : Int) :
    increaseDefault fade lastUsage usage now now = lastUsage + usage := by
  rw [increaseDefault, max_eq_right hu]
  exact increase_same_slot hl hu (by decide) (by decide) hfits now

/-- **Charges in one slot.**  One charge adds its amount, and the charges of a list, in any order, add up to one charge
of the sum. -/
theorem same_slot_charges (fade : Fade) {window : Int} (hw : 0 < window) (hsmall : window ≤ 500000) {last : Int}
    (hl : 0 ≤ last) (now : Int) :
    (∀ usage, 0 ≤ usage → last + usage ≤ 0x7fffffffffffffff → increase fade last usage now now window = last + usage) ∧
    ∀ amounts : List Int, (∀ u ∈ amounts, 0 ≤ u) → last + amounts.sum ≤ 0x7fffffffffffffff →
      ∀ order : List Int, order.Perm amounts → order.foldl (fun last u => increase fade last u now now window) last =
        increase fade last amounts.sum now now window := by
  have hone : ∀ {last usage : Int}, 0 ≤ last → 0 ≤ usage → last + usage ≤ 0x7fffffffffffffff →
      increase fade last usage now now window = last + usage :=
    fun hl hu hfits => increase_same_slot hl hu hw hsmall hfits now
  have hlist : ∀ (amounts : List Int) {last : Int}, 0 ≤ last → (∀ u ∈ amounts, 0 ≤ u) →
      last + amounts.sum ≤ 0x7fffffffffffffff →
        amounts.foldl (fun last u => increase fade last u now now window) last = last + amounts.sum := by
    intro amounts
    induction amounts with
    | nil => simp
    | cons u amounts ih =>
      intro last hl hu hfits
      have hrest : 0 ≤ amounts.sum := sum_nonneg fun v hv => hu v (mem_cons_of_mem _ hv)
      have hpos := hu u mem_cons_self
      rw [sum_cons] at hfits ⊢
      rw [foldl_cons, hone hl hpos (by omega), ih (by omega) (fun v hv => hu v (mem_cons_of_mem _ hv)) (by omega)]
      omega
  refine ⟨fun usage hu hfits => hone hl hu hfits, fun amounts hu hfits order hperm => ?_⟩
  rw [hlist order hl (fun u h => hu u (hperm.mem_iff.1 h)) (by rwa [hperm.sum_eq]), hperm.sum_eq,
    hone hl (sum_nonneg hu) hfits]

/-- Three charges, in two orders. -/
theorem same_slot_charges_three :
    let fade : Fade := ⟨fun _ _ average => average, fun _ _ _ _ h => h⟩
    [3, 4, 5].foldl (fun last u => increase fade last u 9 9 28800) 100 =
      [5, 3, 4].foldl (fun last u => increase fade last u 9 9 28800) 100 := by
  intro fade
  have hcharges := (same_slot_charges fade (by decide : (0 : Int) < 28800) (by decide) (by decide : (0 : Int) ≤ 100) 9).2
    [3, 4, 5] (by decide) (by decide)
  rw [hcharges _ (.refl _), hcharges [5, 3, 4] (by decide)]

end Counter

/-! ## The decision -/

structure PublicNet where
  usage : Int
  time : Int
  deriving DecidableEq

/-- The fields of an account that free bandwidth reads and writes. -/
structure Account where
  freeNetUsage : Int
  latestConsumeFreeTime : Int
  latestOprationTime : Int
  deriving DecidableEq

/-- What does not change in a block. -/
structure Props where
  fade : Fade
  freeNetLimit : Int
  publicNetLimit : Int
  headBlockTimestamp : Int
  nowSlot : Int

namespace Props

variable (p : Props)

/-- The counter, decayed to now. -/
def newPub (pub : PublicNet) : Int := increaseDefault p.fade pub.usage 0 pub.time p.nowSlot

/-- `try_use_free_net`: the account and the counter with the bytes added, or nothing if a limit is exceeded. -/
def tryUseFreeNet (pub : PublicNet) (account : Account) (bytes : Int) : Option (Account × PublicNet) :=
  let decayedFree := increaseDefault p.fade account.freeNetUsage 0 account.latestConsumeFreeTime p.nowSlot
  if satI64 (p.freeNetLimit - decayedFree) < bytes then none
  else if satI64 (p.publicNetLimit - p.newPub pub) < bytes then none
  else some (
    { freeNetUsage := increaseDefault p.fade decayedFree bytes p.nowSlot p.nowSlot
      latestConsumeFreeTime := p.nowSlot
      latestOprationTime := p.headBlockTimestamp },
    ⟨increaseDefault p.fade (p.newPub pub) bytes p.nowSlot p.nowSlot, p.nowSlot⟩)

end Props

/-! ## The deferred rows -/

/-- The view through which the transactions of a block read the counter: both rows are deferred. -/
structure CounterView where
  backend : VersionedBackend
  usageKey : ConflictKey
  timeKey : ConflictKey
  decodeI64 : Option Bytes → Int
  deferred : backend.deferred usageKey = true ∧ backend.deferred timeKey = true

namespace CounterView

variable (v : CounterView)

def counter (get : ConflictKey → Option Bytes) : PublicNet := ⟨v.decodeI64 (get v.usageKey), v.decodeI64 (get v.timeKey)⟩

def base : PublicNet := v.counter v.backend.base

/-- What a transaction reads, with these versions of others and what it has captured. -/
def read (mv : MvMemory) (txIdx : Nat) (cap : TxCapture) : PublicNet :=
  v.counter fun key => (v.backend.get mv txIdx key cap).1

theorem read_eq_base (mv : MvMemory) (txIdx : Nat) (cap : TxCapture) : v.read mv txIdx cap = v.base := by
  simp [read, base, counter, VersionedBackend.get, v.deferred]

end CounterView

/-! ## The two runs -/

/-- A transaction over the rest of the state: what it offers if it gets that far, and what it does after the
decision. -/
structure FreeTx (S : Type) where
  offers : S → Option (Account × Int)
  settle : S → Option Account → S

section Runs

variable {S : Type} (p : Props)

/-- The decision of a transaction that reads the counter `pub`: the account and the counter it stores. -/
def FreeTx.decision (tx : FreeTx S) (s : S) (pub : PublicNet) : Option (Account × PublicNet) :=
  (tx.offers s).bind fun offer => p.tryUseFreeNet pub offer.1 offer.2

/-- The bytes that are captured: those of an accepted offer. -/
def FreeTx.captured (tx : FreeTx S) (s : S) (pub : PublicNet) : Option Int :=
  (tx.decision p s pub).bind fun _ => (tx.offers s).map (·.2)

/-- One after another on the running counter, of which `stored` is what was stored in this block. -/
def serial (base : PublicNet) : List (FreeTx S) → S → Option PublicNet → List (Option Account) × S × Option PublicNet
  | [], s, stored => ([], s, stored)
  | tx :: txs, s, stored =>
    let decision := tx.decision p s (stored.getD base)
    let rest := serial base txs (tx.settle s (decision.map (·.1))) ((decision.map (·.2)).or stored)
    (decision.map (·.1) :: rest.1, rest.2)

/-- Each on the counter that its view shows, `runs` being the versions and the capture that it finds; what they store
in the counter is dropped, and the bytes are captured. -/
def speculative (v : CounterView) (runs : Nat → MvMemory × TxCapture) :
    Nat → List (FreeTx S) → S → List (Option Account) × S × List (Option Int)
  | _, [], s => ([], s, [])
  | i, tx :: txs, s =>
    let pub := v.read (runs i).1 i (runs i).2
    let decision := (tx.decision p s pub).map (·.1)
    let rest := speculative v runs (i + 1) txs (tx.settle s decision)
    (decision :: rest.1, rest.2.1, tx.captured p s pub :: rest.2.2)

/-- The replay at the commit: what to store in the counter, if anything; no result is the fallback to the serial
run. -/
def publicNetFold (base : PublicNet) : List (Option Int) → Option PublicNet → Option (Option PublicNet)
  | [], stored => some stored
  | none :: captures, stored => publicNetFold base captures stored
  | some bytes :: captures, stored =>
    let newPub := p.newPub (stored.getD base)
    if satI64 (p.publicNetLimit - newPub) < bytes then none
    else publicNetFold base captures (some ⟨increaseDefault p.fade newPub bytes p.nowSlot p.nowSlot, p.nowSlot⟩)

/-- Numbers are not negative, and the committed counter does not overflow when it is decayed. -/
structure InRange (p : Props) (base : PublicNet) (txs : List (FreeTx S)) : Prop where
  usage : 0 ≤ base.usage
  limit : 0 ≤ p.publicNetLimit ∧ p.publicNetLimit ≤ 0x7fffffffffffffff
  bytes : ∀ tx ∈ txs, ∀ s account bytes, tx.offers s = some (account, bytes) → 0 ≤ bytes
  noOverflow : FitsI64 (increaseWide p.fade base.usage 0 base.time p.nowSlot WINDOW_SIZE_BLOCKS)

/-- Nothing was stored, or a counter of this slot between the committed one and the limit. -/
def Risen (p : Props) (base : PublicNet) (stored : Option PublicNet) : Prop :=
  ∀ pub ∈ stored, pub.time = p.nowSlot ∧ p.newPub base ≤ pub.usage ∧ pub.usage ≤ p.publicNetLimit

variable {p} {base : PublicNet} {txs : List (FreeTx S)}

theorem InRange.newPub_base (h : InRange p base txs) : 0 ≤ p.newPub base ∧ p.newPub base ≤ 0x7fffffffffffffff := by
  have heq : p.newPub base = increaseWide p.fade base.usage 0 base.time p.nowSlot WINDOW_SIZE_BLOCKS :=
    Checked.wrapI64_of_fits h.noOverflow
  rw [heq]
  exact ⟨increaseWide_nonneg p.fade h.usage (le_refl 0) _ _, h.noOverflow.2⟩

theorem InRange.newPub_stored (h : InRange p base txs) {stored : Option PublicNet} (hr : Risen p base stored) :
    p.newPub base ≤ p.newPub (stored.getD base) ∧ p.newPub (stored.getD base) ≤ 0x7fffffffffffffff := by
  obtain ⟨hbase, hmax⟩ := h.newPub_base
  cases stored with
  | none => exact ⟨le_refl _, hmax⟩
  | some pub =>
    obtain ⟨htime, hle, htop⟩ := hr pub rfl
    have hlimit := h.limit
    have heq : p.newPub pub = pub.usage + 0 := by
      rw [Props.newPub, htime]
      exact increaseDefault_same_slot (by omega) (le_refl 0) (by omega) _
    rw [getD_some, heq]
    omega

/-- A difference of two numbers that are not negative is not cut. -/
theorem satI64_sub {a b : Int} (ha : 0 ≤ a ∧ a ≤ 0x7fffffffffffffff) (hb : 0 ≤ b) (hb' : b ≤ 0x7fffffffffffffff) :
    satI64 (a - b) = a - b :=
  Checked.satI64_of_fits ⟨by omega, by omega⟩

/-- Who is turned away by the committed counter is turned away by every larger one. -/
theorem tryUseFreeNet_declined {pub : PublicNet} {account : Account} {bytes : Int}
    (hlimit : 0 ≤ p.publicNetLimit ∧ p.publicNetLimit ≤ 0x7fffffffffffffff) (hbase : 0 ≤ p.newPub base)
    (hle : p.newPub base ≤ p.newPub pub) (hmax : p.newPub pub ≤ 0x7fffffffffffffff)
    (h : p.tryUseFreeNet base account bytes = none) : p.tryUseFreeNet pub account bytes = none := by
  unfold Props.tryUseFreeNet at h ⊢
  rw [satI64_sub hlimit hbase (by omega)] at h
  rw [satI64_sub hlimit (by omega) hmax]
  dsimp only at h ⊢
  split at h
  · next hfree => exact if_pos hfree
  · next hfree =>
    rw [if_neg hfree]
    split at h
    · exact if_pos (by omega)
    · cases h

variable {v : CounterView} {runs : Nat → MvMemory × TxCapture}

theorem serial_of_fold (h : InRange p v.base txs) {stored result : Option PublicNet} (hr : Risen p v.base stored)
    (i : Nat) (s : S) (hfold : publicNetFold p v.base (speculative p v runs i txs s).2.2 stored = some result) :
    serial p v.base txs s stored = ((speculative p v runs i txs s).1, (speculative p v runs i txs s).2.1, result) := by
  induction txs generalizing i s stored with
  | nil => cases hfold; rfl
  | cons tx txs ih =>
    have hrest : InRange p v.base txs := { h with bytes := fun t ht => h.bytes t (mem_cons_of_mem tx ht) }
    obtain ⟨hbase, -⟩ := h.newPub_base
    obtain ⟨hle, hmax⟩ := h.newPub_stored hr
    rw [speculative, v.read_eq_base] at hfold ⊢
    rw [serial]
    cases hoffers : tx.offers s with
    | none =>
      simp only [FreeTx.captured, FreeTx.decision, hoffers, bind_none, map_none, publicNetFold, none_or] at hfold ⊢
      rw [ih hrest hr _ _ hfold]
    | some offer =>
      obtain ⟨account, bytes⟩ := offer
      have hbytes := h.bytes tx mem_cons_self s account bytes hoffers
      simp only [FreeTx.captured, FreeTx.decision, hoffers, bind_some, map_some] at hfold ⊢
      cases hspec : p.tryUseFreeNet v.base account bytes with
      | none =>
        rw [tryUseFreeNet_declined h.limit hbase hle hmax hspec]
        simp only [hspec, bind_none, map_none, publicNetFold, none_or] at hfold ⊢
        rw [ih hrest hr _ _ hfold]
      | some charge =>
        simp only [hspec, bind_some, publicNetFold] at hfold
        split at hfold
        · cases hfold
        · next hguard =>
          -- the account's own limit was met, and the replay has checked the public one
          unfold Props.tryUseFreeNet at hspec
          dsimp only at hspec
          split at hspec
          · cases hspec
          · next hfree =>
            split at hspec
            · cases hspec
            · cases hspec
              rw [Props.tryUseFreeNet, if_neg hfree, if_neg hguard]
              rw [satI64_sub h.limit (by omega) hmax] at hguard
              have hlimit := h.limit
              have hr' : Risen p v.base (some ⟨increaseDefault p.fade (p.newPub (stored.getD v.base)) bytes p.nowSlot
                  p.nowSlot, p.nowSlot⟩) := by
                rintro pub ⟨⟩
                rw [increaseDefault_same_slot (by omega) hbytes (by omega)]
                dsimp only
                exact ⟨rfl, by omega, by omega⟩
              simp only [map_some, some_or] at hfold ⊢
              rw [ih hrest hr' _ _ hfold]

/-- **The replay reproduces the serial run.**  If it does not give up, all decisions are those of the serial run, and so
are the rest of the state and what is stored in the counter. -/
theorem fold_matches_serial (h : InRange p v.base txs) (s : S) {stored : Option PublicNet}
    (hfold : publicNetFold p v.base (speculative p v runs 0 txs s).2.2 none = some stored) :
    serial p v.base txs s none = ((speculative p v runs 0 txs s).1, (speculative p v runs 0 txs s).2.1, stored) :=
  serial_of_fold h (by simp [Risen]) 0 s hfold

end Runs

namespace Sample

def props : Props where
  fade := ⟨fun window delta average => max 0 (average * (window - delta) / window), fun _ _ _ _ _ => le_max_left ..⟩
  freeNetLimit := 1000
  publicNetLimit := 250
  headBlockTimestamp := 0
  nowSlot := 10

/-- Charges its bytes to an account of its own; the state counts what was accepted. -/
def tx (bytes : Int) : FreeTx Nat := ⟨fun _ => some (⟨0, 0, 0⟩, bytes), fun n d => n + d.toList.length⟩

def txs : List (FreeTx Nat) := [60, 200, 70].map tx

/-- The committed counter is 100 in slot 10. -/
def view : CounterView where
  backend := ⟨fun key => some (if key.2 = [0] then [100] else [10]), fun _ => false, fun _ => true, fun _ => false, 0,
    fun _ => none⟩
  usageKey := (0, [0])
  timeKey := (0, [1])
  decodeI64 row := ((row.getD []).headD 0).toNat
  deferred := ⟨rfl, rfl⟩

/-- The first transaction has published a version of every row. -/
def published (_ : Nat) : MvMemory × TxCapture :=
  (fun _ j => if j = 0 then some (.written (some [200]) 0) else none, {})

/-- The second is turned away, and the counter has the bytes of the others. -/
theorem fold_matches_serial_three :
    ((serial props view.base txs 0 none).1.map Option.isSome, (serial props view.base txs 0 none).2) =
      ([true, false, true], 2, some ⟨230, 10⟩) := by
  have hrange : InRange props view.base txs := by
    refine ⟨by decide, by decide, fun t ht _ _ _ h => ?_, by decide⟩
    obtain ⟨n, hn, rfl⟩ := mem_map.1 ht
    have hnonneg : 0 ≤ n := (by decide : ∀ n ∈ [(60 : Int), 200, 70], 0 ≤ n) n hn
    cases h
    exact hnonneg
  have hfold : publicNetFold props view.base (speculative props view published 0 txs 0).2.2 none =
      some (some ⟨230, 10⟩) := by decide +kernel
  rw [fold_matches_serial hrange 0 hfold]
  decide +kernel

end Sample

end TronGoblin.FreeNet
