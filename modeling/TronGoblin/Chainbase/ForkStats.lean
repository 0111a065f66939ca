import TronGoblin.Consensus.Pbft

/-!
# Fork statistics

Model of `tron-chainbase/src/fork.rs`: which fork versions have passed, and how blocks and maintenance change the
statistics.

* `rewriteOpen_eq`: the loops over the versions change only those that have not passed.
* `forks_stay_active`: what has passed stays so, in every run of updates and resets.
-/

namespace TronGoblin.Fork

open List

structure ForkVersion where
  version : Int
  hardForkTimeMs : Int
  rate : Nat

def HARD_FORK_TIME_2020_08_07 : Int := 1596780000000

def ENERGY_LIMIT : Int := 5

def VERSION_4_0 : Int := 16

def FORK_VERSIONS : List ForkVersion :=
  [5, 6, 7, 8, 9, 10, 16].map (⟨·, 0, 0⟩) ++
    [17, 19, 20, 21, 22, 23, 24, 25, 26, 27, 28, 29, 30, 31, 32, 33, 34, 35, 36, 37, 38].map fun v =>
      ⟨v, HARD_FORK_TIME_2020_08_07, if v ∈ [33, 35, 37, 38] then 70 else 80⟩

def listed : List Int := FORK_VERSIONS.map (·.version)

def ENERGY_LIMIT_HARD_FORK_BLOCK : Int := 4727890

/-- `ceil(rate * witnesses / 100)`. -/
def passThreshold (rate witnesses : Nat) : Nat := (rate * witnesses + 99) / 100

/-- What is read: the head, the maintenance interval, the latest version, and a byte for each witness of a version. -/
structure DynamicProperties where
  headNumber : Int
  headTime : Int
  interval : Option Int
  latest : Int
  stats : Int → Option Bytes

variable (dp : DynamicProperties)

def hardForkTime (fv : ForkVersion) : Int :=
  let interval := (dp.interval.filter (0 < ·)).getD 21600000
  ((fv.hardForkTimeMs - 1).tdiv interval + 1) * interval

def allUpgraded (stats : Option Bytes) : Bool := stats.any fun s => s ≠ [] && s.all (· = 1)

def forkPassed (version : Int) : Bool :=
  if VERSION_4_0 < version then
    (FORK_VERSIONS.find? (·.version = version)).any fun fv =>
      hardForkTime dp fv ≤ dp.headTime &&
        (dp.stats version).any fun s => s ≠ [] && passThreshold fv.rate s.length ≤ s.count 1
  else if version = ENERGY_LIMIT then ENERGY_LIMIT_HARD_FORK_BLOCK ≤ dp.headNumber
  else allUpgraded (dp.stats version)

def saveForkStats (version : Int) (s : Option Bytes) : DynamicProperties :=
  { dp with stats := Function.update dp.stats version s }

/-- The loops over the versions: rewrite what is stored for each one that has not passed. -/
@[irreducible] def rewriteOpen (f : Int → Option Bytes → Option Bytes) : DynamicProperties :=
  listed.foldl (fun dp v => if forkPassed dp v then dp else saveForkStats dp v (f v (dp.stats v))) dp

def downgrade (version : Int) (slot : Nat) : DynamicProperties :=
  rewriteOpen dp fun v s => if version < v then s.map (·.set slot 0) else s

def upgrade (version : Int) (slotCount : Nat) : DynamicProperties :=
  rewriteOpen dp fun v s =>
    if v < version then
      let s := s.getD []
      some ((if s = [] then replicate slotCount 0 else s).map fun _ => 1)
    else s

def resetForkStats (activeWitnessCount : Nat) : DynamicProperties :=
  rewriteOpen dp fun _ s => s.map fun _ => replicate activeWitnessCount 0

def updateForkStats (active : List Address) (witness : Address) (version : Int) : DynamicProperties :=
  match active.idxOf? witness with
  | none => dp
  | some slot =>
    if version < ENERGY_LIMIT then dp
    else if version ≤ dp.latest then dp
    else
      let dp := downgrade dp version slot
      let s := ((dp.stats version).filter (·.length = active.length)).getD (replicate active.length 0)
      if forkPassed dp version then { upgrade dp version s.length with latest := version }
      else saveForkStats dp version (some (s.set slot 1))

/-- A call, or a head that has grown by some blocks and some time. -/
inductive Op
  | update (active : List Address) (witness : Address) (version : Int)
  | reset (activeWitnessCount : Nat)
  | advance (blocks elapsed : Nat)

def step : Op → DynamicProperties
  | .update active witness version => updateForkStats dp active witness version
  | .reset count => resetForkStats dp count
  | .advance blocks elapsed => { dp with headNumber := dp.headNumber + blocks, headTime := dp.headTime + elapsed }

variable {dp} {dp' dp'' : DynamicProperties} {v version : Int} {f : Int → Option Bytes → Option Bytes}

theorem forkPassed_congr {stats : Int → Option Bytes} (h : stats v = dp.stats v) :
    forkPassed { dp with stats } v = forkPassed dp v := by
  simp only [forkPassed, h]
  rfl

theorem forkPassed_latest (n : Int) : forkPassed { dp with latest := n } v = forkPassed dp v := rfl

theorem forkPassed_advance (blocks elapsed : Nat) (h : forkPassed dp v) : forkPassed (step dp (.advance blocks elapsed)) v := by
  have hle (n : Int) (k : Nat) : n ≤ n + k := Int.le_add_of_nonneg_right (Int.natCast_nonneg k)
  unfold forkPassed at h ⊢
  split_ifs at h ⊢
  · simp only [Option.any_eq_true, Bool.and_eq_true, decide_eq_true_eq] at h ⊢
    obtain ⟨fv, hfv, htime, hs⟩ := h
    exact ⟨fv, hfv, htime.trans (hle ..), hs⟩
  · exact decide_eq_true ((of_decide_eq_true h).trans (hle ..))
  · exact h

theorem rewriteOpen_eq : rewriteOpen dp f =
    { dp with stats := fun v => if v ∈ listed ∧ ¬forkPassed dp v then f v (dp.stats v) else dp.stats v } := by
  have hnodup : listed.Nodup := by decide
  unfold rewriteOpen
  generalize listed = l at hnodup ⊢
  induction l generalizing dp with
  | nil => simp
  | cons u l ih =>
    rw [nodup_cons] at hnodup
    rw [foldl_cons, ih hnodup.2]
    by_cases hu : forkPassed dp u
    · rw [if_pos hu]
      refine congrArg (fun stats => { dp with stats }) (funext fun v => ?_)
      by_cases hv : v = u <;> simp [hv, hu]
    · rw [if_neg hu]
      refine congrArg (fun stats => { dp with stats }) (funext fun v => ?_)
      by_cases hv : v = u
      · simp [hv, hu, hnodup.1, saveForkStats]
      · have hsame : forkPassed (saveForkStats dp u (f u (dp.stats u))) v = forkPassed dp v :=
          forkPassed_congr (Function.update_of_ne hv ..)
        simp only [hsame]
        simp [hv, saveForkStats]

theorem passed_rewriteOpen (h : forkPassed dp v) : forkPassed (rewriteOpen dp f) v := by
  rwa [rewriteOpen_eq, forkPassed_congr (by simp [h])]

/-- A version below one that has passed passes when all of its witnesses are set. -/
theorem forkPassed_ones (hv : v ∈ listed) (hlow : 6 ≤ v) (hlt : v < version) (hpassed : forkPassed dp version)
    {stats : Int → Option Bytes} {s : Bytes} (hne : s ≠ []) (hs : stats v = some (s.map fun _ => 1)) :
    forkPassed { dp with stats } v := by
  have hsame : ∀ fv ∈ FORK_VERSIONS, VERSION_4_0 < fv.version →
      fv.hardForkTimeMs = HARD_FORK_TIME_2020_08_07 ∧ fv.rate ≤ 100 := by decide
  have hfound {v : Int} {fv : ForkVersion} (h : FORK_VERSIONS.find? (·.version = v) = some fv) (hnew : VERSION_4_0 < v) :
      fv.hardForkTimeMs = HARD_FORK_TIME_2020_08_07 ∧ fv.rate ≤ 100 := by
    have hver := find?_some h
    simp only [decide_eq_true_eq] at hver
    exact hsame fv (mem_of_find?_eq_some h) (hver ▸ hnew)
  unfold forkPassed
  split
  · next hnew =>
    have hsome : (FORK_VERSIONS.find? (·.version = v)).isSome := find?_isSome.2 (by simpa [listed] using hv)
    obtain ⟨fv, hfv⟩ := Option.isSome_iff_exists.1 hsome
    simp only [forkPassed, hnew.trans hlt, if_true, Option.any_eq_true, Bool.and_eq_true, decide_eq_true_eq] at hpassed
    obtain ⟨fv', hfv', htime, -⟩ := hpassed
    obtain ⟨hforkTime, hrate⟩ := hfound hfv hnew
    have hrate := Nat.mul_le_mul_right s.length hrate
    simp only [hfv, hs, Option.any_some, Bool.and_eq_true, decide_eq_true_eq]
    refine ⟨?_, by simpa using hne, ?_⟩
    · rwa [hardForkTime, hforkTime, ← (hfound hfv' (hnew.trans hlt)).1]
    · simp [passThreshold]
      omega
  · rw [if_neg (by rw [ENERGY_LIMIT]; omega)]
    simp [allUpgraded, hs, hne]

/-- What has passed stays so, the latest version does not fall, and the versions that it passes over pass. -/
structure Follows (dp dp' : DynamicProperties) : Prop where
  passed : ∀ v, forkPassed dp v → forkPassed dp' v
  latest : dp.latest ≤ dp'.latest
  covered : ∀ v ∈ listed, 6 ≤ v → dp.latest < v → v ≤ dp'.latest → forkPassed dp' v

theorem Follows.trans (h : Follows dp dp') (h' : Follows dp' dp'') : Follows dp dp'' where
  passed v hv := h'.passed v (h.passed v hv)
  latest := h.latest.trans h'.latest
  covered v hv hlow hlt hle := by
    by_cases hmid : v ≤ dp'.latest
    · exact h'.passed v (h.covered v hv hlow hlt hmid)
    · exact h'.covered v hv hlow (Int.not_le.1 hmid) hle

theorem follows_of_passed (hlatest : dp'.latest = dp.latest) (h : ∀ v, forkPassed dp v → forkPassed dp' v) :
    Follows dp dp' :=
  ⟨h, Int.le_of_eq hlatest.symm, fun _ _ _ hlt hle => absurd hle (Int.not_le.2 (hlatest ▸ hlt))⟩

theorem follows_rewriteOpen : Follows dp (rewriteOpen dp f) :=
  follows_of_passed (by rw [rewriteOpen_eq]) fun _ => passed_rewriteOpen

/-- The versions below one that has passed pass with it. -/
theorem follows_upgrade {n : Nat} (hn : n ≠ 0) (hlatest : dp.latest ≤ version) (hpassed : forkPassed dp version) :
    Follows dp { upgrade dp version n with latest := version } := by
  refine ⟨fun v hv => ?_, hlatest, fun v hv hlow _ hle => ?_⟩
  all_goals rw [forkPassed_latest]
  · exact passed_rewriteOpen hv
  · by_cases hp : forkPassed dp v
    · exact passed_rewriteOpen hp
    · have hlt : v < version := lt_of_le_of_ne hle fun h => hp (h ▸ hpassed)
      rw [upgrade, rewriteOpen_eq]
      refine forkPassed_ones hv hlow hlt hpassed ?_ (by rw [if_pos ⟨hv, hp⟩, if_pos hlt])
      split <;> simp_all

theorem follows_update (active : List Address) (witness : Address) (version : Int) :
    Follows dp (updateForkStats dp active witness version) := by
  have hsame : Follows dp dp := follows_of_passed rfl fun _ h => h
  unfold updateForkStats
  cases hslot : active.idxOf? witness with
  | none => exact hsame
  | some slot =>
    have hdown : Follows dp (downgrade dp version slot) := follows_rewriteOpen
    have hlatest : (downgrade dp version slot).latest = dp.latest := by rw [downgrade, rewriteOpen_eq]
    dsimp only
    generalize downgrade dp version slot = dp' at hdown hlatest ⊢
    split_ifs with hold hnew hpassed
    · exact hsame
    · exact hsame
    · refine hdown.trans (follows_upgrade ?_ (by omega) hpassed)
      have hactive : active ≠ [] := by
        rintro rfl
        simp at hslot
      cases dp'.stats version with
      | none => simpa using hactive
      | some s => by_cases hs : s.length = active.length <;> simp [Option.filter, hs, hactive]
    · refine hdown.trans (follows_of_passed rfl fun v hv => ?_)
      have hne : v ≠ version := fun h => hpassed (h ▸ hv)
      rwa [saveForkStats, forkPassed_congr (Function.update_of_ne hne ..)]

theorem follows_run (dp : DynamicProperties) (ops : List Op) : Follows dp (ops.foldl step dp) := by
  induction ops generalizing dp with
  | nil => exact follows_of_passed rfl fun _ h => h
  | cons op ops ih =>
    refine Follows.trans ?_ (ih _)
    cases op with
    | update active witness version => exact follows_update active witness version
    | reset count => exact follows_rewriteOpen
    | advance blocks elapsed => exact follows_of_passed rfl fun _ => forkPassed_advance blocks elapsed

/-- **An activated fork stays active.** -/
theorem forks_stay_active (number time : Int) (interval : Option Int) (ops more : List Op) :
    let before := ops.foldl step ⟨number, time, interval, 0, fun _ => none⟩
    let after := more.foldl step before
    (∀ v ∈ listed, forkPassed before v → forkPassed after v) ∧ before.latest ≤ after.latest ∧
      (5 ≤ after.latest → ∀ v ∈ listed, 6 ≤ v → v ≤ after.latest → forkPassed after v) := by
  have hmore := follows_run (ops.foldl step ⟨number, time, interval, 0, fun _ => none⟩) more
  refine ⟨fun v _ => hmore.passed v, hmore.latest, fun _ v hv hlow hle => ?_⟩
  exact ((follows_run _ ops).trans hmore).covered v hv hlow (show 0 < v by omega) hle

/-- One witness that produces two blocks of a version makes it the latest. -/
example : let w : Address := ⟨replicate 21 1, rfl⟩
    (foldl step ⟨0, 0, none, 0, fun _ => none⟩ [.update [w] w 16, .update [w] w 16]).latest = 16 := by
  decide +kernel

end TronGoblin.Fork
