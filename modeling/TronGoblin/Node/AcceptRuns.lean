import TronGoblin.Node.Accept

/-!
# The states behind a driver

A driver has a current state and keeps earlier ones, as undo records or below the layers of a snapshot
stack.  Whatever it does, it executes a block on its current state or goes back to one that it kept.

* `AllStates`: a property of the current state and of every state that is kept.
* `run_keeps`: the rule for such properties: what the execution of one block preserves holds after any
  sequence of calls.
-/

namespace TronGoblin.Accept

open Assoc (Table)
open Proto (Block)

variable {T σ : Type} {P : ChainState T σ → Prop} {env : Env T σ} {d : Driver T σ}

/-- `P` of every state that is kept. -/
def Versions.All (P : ChainState T σ → Prop) : Versions T σ → Prop
  | .undo records => ∀ num s, records.lookup num = some s → P s
  | .snapshots stack => ∀ v ∈ stack.below, P v.state

structure Driver.AllStates (P : ChainState T σ → Prop) (d : Driver T σ) : Prop where
  current : P d.view.state
  kept : d.versions.All P

theorem Driver.AllStates.imp {Q : ChainState T σ → Prop} (hd : d.AllStates P) (h : ∀ s, P s → Q s) : d.AllStates Q := by
  refine ⟨h _ hd.current, ?_⟩
  have hkept := hd.kept
  cases hversions : d.versions with
  | undo records =>
    rw [hversions] at hkept
    exact fun num s hs => h s (hkept num s hs)
  | snapshots stack =>
    rw [hversions] at hkept
    exact fun v hv => h _ (hkept v hv)

def KeptByExecution (env : Env T σ) (P : ChainState T σ → Prop) : Prop :=
  ∀ (b : WireBlock (Block T)) (parent : Option BlockId) (s s' : ChainState T σ),
    P s → executeBlock env b parent s = .ok s' → P s'

/-! ## One block -/

theorem applyBlock_keeps (hexec : KeptByExecution env P) {b : WireBlock (Block T)} {num : Int} {parent : Option BlockId}
    {d' : Driver T σ} (hd : d.AllStates P) (h : applyBlock env b num parent d = .ok d') : d'.AllStates P := by
  simp only [applyBlock, Checked.bind_eq_ok, Checked.pure_eq_ok] at h
  obtain ⟨state, hstate, rfl⟩ := h
  refine ⟨hexec b parent _ _ hd.current hstate, ?_⟩
  have hkept := hd.kept
  cases hversions : d.versions with
  | undo records =>
    rw [hversions] at hkept
    intro n s hs
    rw [Assoc.lookup_insert_eq] at hs
    split at hs
    · cases hs
      exact hd.current
    · exact hkept n s hs
  | snapshots stack =>
    rw [hversions] at hkept
    intro v hv
    rcases List.mem_cons.1 hv with rfl | hv
    · exact hd.current
    · exact hkept v hv

theorem drained_keeps (hd : d.AllStates P) : (drained d).AllStates P := by
  have hkept := hd.kept
  unfold drained
  split
  · exact hd
  · rename_i stack hversions
    rw [hversions] at hkept
    exact ⟨hd.current, fun v hv => hkept v (List.mem_of_mem_drop hv)⟩

theorem updateSolidified_keeps (hd : d.AllStates P) : (updateSolidified d).AllStates P := by
  unfold updateSolidified
  split
  · exact hd
  · split
    · exact hd
    · split
      · exact ⟨hd.current, hd.kept⟩
      · exact hd

variable {id : BlockId}

theorem executeExtension_keeps (hexec : KeptByExecution env P) {b : WireBlock (Block T)} (hd : d.AllStates P) :
    (executeExtension env id b d).2.AllStates P := by
  unfold executeExtension
  dsimp only
  split
  · rename_i d' hok
    apply updateSolidified_keeps
    apply drained_keeps
    refine applyBlock_keeps hexec ?_ hok
    exact ⟨hd.current, hd.kept⟩
  · exact ⟨hd.current, hd.kept⟩

theorem applyBranch_keeps (hexec : KeptByExecution env P) :
    ∀ (blocks : List (Int × WireBlock (Block T))) (applied : List Int) (d : Driver T σ),
      d.AllStates P → (applyBranch env blocks applied d).2.2.AllStates P
  | [], _, _, hd => hd
  | (num, b) :: rest, applied, d, hd => by
    rw [applyBranch]
    split
    · rename_i d' hok
      exact applyBranch_keeps hexec rest _ d' (applyBlock_keeps hexec hd hok)
    · exact hd

/-! ## Going back -/

theorem rollbackBlock_keeps {num : Int} {d' : Driver T σ} (hd : d.AllStates P)
    (h : rollbackBlock num d = some d') : d'.AllStates P := by
  have hkept := hd.kept
  unfold rollbackBlock at h
  split at h
  · cases h
  · rename_i records hversions
    rw [hversions] at hkept
    obtain ⟨state, hstate, rfl⟩ := Option.map_eq_some_iff.1 h
    refine ⟨hkept num state hstate, fun n s hs => ?_⟩
    rw [Assoc.lookup_erase_eq] at hs
    split at hs
    · cases hs
    · exact hkept n s hs

theorem rollbackUntil_keeps :
    ∀ (nums : List Int) (d : Driver T σ), d.AllStates P → (rollbackUntil nums d).2.AllStates P
  | [], _, hd => hd
  | num :: nums, d, hd => by
    rw [rollbackUntil]
    split
    · exact hd
    · rename_i d' hback
      exact rollbackUntil_keeps nums d' (rollbackBlock_keeps hd hback)

theorem unwind_keeps :
    ∀ (nums : List Int) (d : Driver T σ), d.AllStates P → (unwind nums d).2.AllStates P
  | [], _, hd => hd
  | num :: nums, d, hd => by
    rw [unwind]
    split
    · exact unwind_keeps nums d hd
    · rename_i d' hback
      exact unwind_keeps nums d' (rollbackBlock_keeps hd hback)

theorem revokeLayers_keeps :
    ∀ (nums : List Int) (stack : SnapshotStack T σ) (v : View T σ), P v.state → (∀ u ∈ stack.below, P u.state) →
      P (revokeLayers nums stack v).2.2.state ∧ ∀ u ∈ (revokeLayers nums stack v).2.1.below, P u.state
  | [], _, _, hv, hbelow => ⟨hv, hbelow⟩
  | num :: nums, stack, v, hv, hbelow => by
    rw [revokeLayers]
    split
    · exact ⟨hv, hbelow⟩
    · split
      · apply revokeLayers_keeps nums
        · unfold SnapshotStack.revoke
          split
          · exact hv
          · rename_i under below heq
            exact hbelow under (by simp [heq])
        · unfold SnapshotStack.revoke
          split
          · exact hbelow
          · rename_i under below heq
            exact fun u hu => hbelow u (by simp [heq, hu])
      · exact ⟨hv, hbelow⟩

/-! ## Switching branches -/

theorem restoreOldBranch_keeps (hexec : KeptByExecution env P) {head : BlockId}
    {pathOld pathNew : List (WireNode (Block T))} {failed : Int × BlockExecError} {applied : List Int}
    (hd : d.AllStates P) :
    (restoreOldBranch env head pathOld pathNew failed applied d).2.AllStates P := by
  have hredone := applyBranch_keeps hexec (pathOld.reverse.map fun kb => (kb.num, kb.block)) []
    _ (unwind_keeps applied.reverse d hd)
  unfold restoreOldBranch
  dsimp only
  split
  · exact ⟨hredone.current, hredone.kept⟩
  · exact hredone

variable {newBlock : Block T}

theorem switchBranch_keeps (hexec : KeptByExecution env P) {newId head : BlockId}
    {pathOld pathNew : List (WireNode (Block T))} (hd : d.AllStates P) :
    (switchBranch env newBlock newId head pathOld pathNew d).2.AllStates P := by
  have hback := rollbackUntil_keeps (pathOld.map (·.num)) d hd
  unfold switchBranch
  split
  · rename_i num d' heq
    rw [heq] at hback
    exact hback
  · rename_i d' heq
    rw [heq] at hback
    have hnew := applyBranch_keeps hexec (newBranch newBlock newId pathNew) [] d' hback
    split
    · rename_i applied d'' hdone
      rw [hdone] at hnew
      exact ⟨hnew.current, hnew.kept⟩
    · rename_i failed applied d'' hdone
      rw [hdone] at hnew
      exact restoreOldBranch_keeps hexec hnew

variable {prevHead : Option (KhaosBlock (WireBlock (Block T)))}

theorem performReorg_keeps (hexec : KeptByExecution env P) {newId : BlockId} {records : Table Int (ChainState T σ)}
    (hd : d.AllStates P) : (performReorg env newBlock newId prevHead records d).2.AllStates P := by
  unfold performReorg
  split
  · exact hd
  · split
    · exact ⟨hd.current, hd.kept⟩
    · split
      · exact hd
      · exact switchBranch_keeps hexec hd

theorem performReorgViaSnapshot_keeps (hexec : KeptByExecution env P) {newId : BlockId} {stack : SnapshotStack T σ}
    (hd : d.AllStates P) (hstack : ∀ v ∈ stack.below, P v.state) :
    (performReorgViaSnapshot env newBlock newId prevHead stack d).2.AllStates P := by
  unfold performReorgViaSnapshot
  split
  · exact hd
  · split
    · exact ⟨hd.current, hd.kept⟩
    · rename_i pathOld pathNew _
      have hrevoked := revokeLayers_keeps (pathOld.map (·.num)) stack d.view hd.current hstack
      split
      · rename_i outcome stack' v heq
        rw [heq] at hrevoked
        exact ⟨hrevoked.1, hrevoked.2⟩
      · rename_i stack' v heq
        rw [heq] at hrevoked
        have hnew := applyBranch_keeps hexec (newBranch newBlock newId pathNew) []
          { d with view := v, versions := .snapshots stack' } ⟨hrevoked.1, hrevoked.2⟩
        split
        · rename_i hdone
          rw [hdone] at hnew
          exact hnew
        · rename_i hdone
          rw [hdone] at hnew
          have hdrained := drained_keeps hnew
          exact ⟨hdrained.current, hdrained.kept⟩

/-! ## Calls -/

theorem seedKhaos_keeps (hd : d.AllStates P) : (seedKhaos env d).AllStates P := by
  unfold seedKhaos
  split
  · exact hd
  · split
    · exact ⟨hd.current, hd.kept⟩
    · split
      · exact hd
      · exact ⟨hd.current, hd.kept⟩

variable {bytes : Option Bytes} {block : Block T}

theorem pushBlock_keeps (hd : d.AllStates P) : (pushBlock env d id block bytes).2.AllStates P := by
  unfold pushBlock
  split
  · exact ⟨hd.current, hd.kept⟩
  · split <;> exact ⟨hd.current, hd.kept⟩
  · exact ⟨hd.current, hd.kept⟩
  · exact ⟨hd.current, hd.kept⟩

theorem settle_keeps (hexec : KeptByExecution env P) {newHead : KhaosBlock (WireBlock (Block T))}
    (hd : d.AllStates P) : (settle env id block bytes prevHead newHead d).2.AllStates P := by
  unfold settle gateNewHeadAgainstSolidified
  dsimp only
  split
  · rename_i heq
    split at heq
    · cases heq
      exact ⟨hd.current, hd.kept⟩
    · cases heq
  · rename_i d' heq
    split at heq
    · cases heq
    · cases heq
      have hd' : Driver.AllStates P { d with blockStore := d.blockStore.insert id block } :=
        ⟨hd.current, hd.kept⟩
      split
      · exact hd'
      · split
        · have hkept := hd.kept
          split
          · rename_i stack hversions
            rw [show d.versions = _ from hversions] at hkept
            exact performReorgViaSnapshot_keeps hexec hd' hkept
          · exact performReorg_keeps hexec hd'
        · exact executeExtension_keeps hexec hd'

theorem acceptBlockInner_keeps (hexec : KeptByExecution env P) (hd : d.AllStates P) :
    (acceptBlockInner env block bytes d).2.AllStates P := by
  unfold acceptBlockInner
  split
  · exact hd
  · rename_i id _
    have hseeded : (seedKhaos env d).AllStates P := seedKhaos_keeps hd
    dsimp only
    split
    · exact hseeded
    · have hpushed : (pushBlock env (seedKhaos env d) id block bytes).2.AllStates P :=
        pushBlock_keeps hseeded
      split
      · rename_i heq
        rw [heq] at hpushed
        exact hpushed
      · rename_i heq
        rw [heq] at hpushed
        exact settle_keeps hexec hpushed

theorem refeedReadyOrphans_keeps (hexec : KeptByExecution env P) :
    ∀ (fed : Nat) (d : Driver T σ), d.AllStates P → (refeedReadyOrphans env fed d).AllStates P
  | 0, _, hd => ⟨hd.current, hd.kept⟩
  | fed + 1, d, hd => by
    rw [refeedReadyOrphans]
    split
    · exact hd
    · apply refeedReadyOrphans_keeps hexec fed
      exact acceptBlockInner_keeps hexec ⟨hd.current, hd.kept⟩

/-- **The rule for runs.**  What the execution of a block preserves holds, after any calls, of every
state that the driver has. -/
theorem run_keeps (hexec : KeptByExecution env P) (calls : List (Block T × Option Bytes)) :
    ∀ d : Driver T σ, d.AllStates P → (run env d calls).AllStates P := by
  induction calls with
  | nil => exact fun _ hd => hd
  | cons call calls ih =>
    intro d hd
    apply ih
    exact refeedReadyOrphans_keeps hexec MAX_REFEED _ (acceptBlockInner_keeps hexec hd)

end TronGoblin.Accept
