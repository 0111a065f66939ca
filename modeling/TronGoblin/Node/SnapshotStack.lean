import TronGoblin.Chainbase.Snapshot

/-!
# The snapshot stack and its tracked blocks

Model of `SnapshotStack` in `tron-node/src/storage.rs`: one tentative-write layer per applied block
in every backend, the list of block numbers they belong to, and a horizon past which the oldest
block is drained into the root.

* `applyBlock`, `reorg`, `flushBottomLocked`: the calls, with their error paths.
* `Traced`: a stack together with the blocks it is supposed to track: what each one wrote, and the
  state just before it was applied.
* `LayersMatch`: layer `i` of every backend holds exactly the writes of tracked block `i`, and
  revoking the top layers goes back to the state before the blocks they belong to.
* `layersMatch_of_no_drain`: **runs that never drain keep layers and blocks in step.**
* `drain_breaks_layers`: a drain does not: it squashes the *top* layer into the one below and
  then forgets the *oldest* block number.
* `reorg_atomic_iff`: when a reorg that is refused has changed nothing.
-/

namespace TronGoblin

open List Option SnapshotKvBackend

/-- What the closure of one block does: the writes it makes to each backend, in order. -/
structure BlockWrites where
  num : Int
  writes : Nat → List WriteOp

structure SnapshotStack where
  /-- Store name and backend. -/
  backends : List (String × SnapshotKvBackend)
  /-- Block numbers, oldest first. -/
  blockNums : List Int
  horizon : Nat
  /-- Whether a checkpoint directory is configured. -/
  checkpoint : Bool
  horizon_pos : 1 ≤ horizon

open SnapshotStack

inductive ReorgFailure
  | drift (expected actual : Int)
  | pastHorizon (num : Int)
  | applyFailed (failedBlock : Int)
  deriving DecidableEq

namespace SnapshotStack

def eachBackend (f : SnapshotKvBackend → SnapshotKvBackend)
    (bs : List (String × SnapshotKvBackend)) : List (String × SnapshotKvBackend) :=
  bs.map fun nb => (nb.1, f nb.2)

/-- Run a block's closure: its writes land on the backends. -/
def runBlock (blk : BlockWrites) (bs : List (String × SnapshotKvBackend)) : List (String × SnapshotKvBackend) :=
  bs.mapIdx fun j nb => (nb.1, (blk.writes j).foldl write nb.2)

/-- `flush_bottom_locked`: write a manifest of the bottom layers, then merge every backend.  `none`
is the error of a failed manifest write (`writeOk` is its outcome). -/
def flushBottomLocked (bs : List (String × SnapshotKvBackend)) (writeOk : Bool) :
    Option (List (String × SnapshotKvBackend)) :=
  let depth := match bs.head? with
    | some nb => nb.2.depth
    | none => 0
  if depth = 0 then some bs
  else
    let entries := bs.flatMap fun nb => nb.2.peekBottomLayer.map fun w => (nb.1, w)
    if entries.isEmpty || writeOk then some (eachBackend .merge bs) else none

/-- One iteration of the drain loop.  `apply_block` falls back to a direct merge when the checkpoint
fails, `reorg` ignores the failure. -/
def drainStep (fallback writeOk : Bool) (s : SnapshotStack) : SnapshotStack :=
  let merged :=
    if s.checkpoint then
      match flushBottomLocked s.backends writeOk with
      | some bs => bs
      | none => if fallback then eachBackend .merge s.backends else s.backends
    else eachBackend .merge s.backends
  { s with backends := merged, blockNums := s.blockNums.tail }

/-- `while block_nums.len() > horizon`; each iteration removes one block number, so as many
iterations as there are numbers suffice. -/
def drainLoop (fallback : Bool) (writeOk : Nat → Bool) : Nat → SnapshotStack → SnapshotStack
  | 0, s => s
  | n + 1, s =>
    if s.horizon < s.blockNums.length then
      drainLoop fallback writeOk n (drainStep fallback (writeOk n) s)
    else s

def drain (fallback : Bool) (writeOk : Nat → Bool) (s : SnapshotStack) : SnapshotStack :=
  drainLoop fallback writeOk s.blockNums.length s

/-- A block's closure succeeded under a fresh layer: its number is recorded. -/
def pushBlock (s : SnapshotStack) (blk : BlockWrites) : SnapshotStack :=
  { s with
    backends := runBlock blk (eachBackend .advance s.backends)
    blockNums := s.blockNums ++ [blk.num] }

/-- A block's closure failed under a fresh layer: the layer is revoked. -/
def failBlock (s : SnapshotStack) (blk : BlockWrites) : SnapshotStack :=
  { s with backends := eachBackend .revoke (runBlock blk (eachBackend .advance s.backends)) }

/-- `apply_block`; `ok` is the outcome of the closure. -/
def applyBlock (s : SnapshotStack) (blk : BlockWrites) (ok : Bool) (writeOk : Nat → Bool) : SnapshotStack :=
  if ok then drain true writeOk (s.pushBlock blk) else s.failBlock blk

/-- Drop the newest layer and its number. -/
def popBlock (s : SnapshotStack) : SnapshotStack :=
  { s with backends := eachBackend .revoke s.backends, blockNums := s.blockNums.dropLast }

/-- The first loop of `reorg`: validate and revoke the old fork, newest first. -/
def revokeOld (s : SnapshotStack) : List Int → SnapshotStack × Option ReorgFailure
  | [] => (s, none)
  | num :: rest => match s.blockNums.getLast? with
    | some top => if top = num then revokeOld s.popBlock rest else (s, some (.drift num top))
    | none => (s, some (.pastHorizon num))

/-- The second loop of `reorg`: apply the new fork, oldest first. -/
def applyNew (s : SnapshotStack) : List (BlockWrites × Bool) → SnapshotStack × Option ReorgFailure
  | [] => (s, none)
  | (blk, ok) :: rest =>
    if ok then applyNew (s.pushBlock blk) rest else (s.failBlock blk, some (.applyFailed blk.num))

def reorg (s : SnapshotStack) (old : List Int) (new : List (BlockWrites × Bool))
    (writeOk : Nat → Bool) : SnapshotStack × Option ReorgFailure :=
  match revokeOld s old with
  | (s, some e) => (s, some e)
  | (s, none) => match applyNew s new with
    | (s, some e) => (s, some e)
    | (s, none) => (drain false writeOk s, none)

/-- What a read of key `key` in backend `j` returns. -/
def state (s : SnapshotStack) (j : Nat) (key : Bytes) : Option Bytes :=
  match s.backends[j]? with
  | some nb => nb.2.get key
  | none => none

end SnapshotStack

/-! ## Tracked blocks -/

/-- A tracked block: what it wrote, and the state just before it was applied. -/
structure Tracked where
  block : BlockWrites
  before : Nat → Contents

/-- A stack and the blocks it tracks, oldest first. -/
structure Traced where
  stack : SnapshotStack
  tracked : List Tracked

open Traced

/-- Blocks that are applied, and reorgs. -/
inductive StackCall
  | apply (blk : BlockWrites) (writeOk : Nat → Bool)
  | reorg (old : List Int) (new : List BlockWrites) (writeOk : Nat → Bool)

namespace Traced

/-- The new fork's blocks, each with the state it was applied on. -/
def traceNew (s : SnapshotStack) : List BlockWrites → List Tracked
  | [] => []
  | blk :: rest => ⟨blk, s.state⟩ :: traceNew (s.pushBlock blk) rest

/-- The blocks that remain tracked when the horizon is `h`. -/
def keepNewest (h : Nat) (ts : List Tracked) : List Tracked := ts.drop (ts.length - h)

/-- One successful call; `none` when the call fails. -/
def call (t : Traced) : StackCall → Option Traced
  | .apply blk writeOk => some
      { stack := t.stack.applyBlock blk true writeOk
        tracked := keepNewest t.stack.horizon (t.tracked ++ [⟨blk, t.stack.state⟩]) }
  | .reorg old new writeOk =>
    match t.stack.reorg old (new.map fun blk => (blk, true)) writeOk with
    | (_, some _) => none
    | (s, none) => some
      { stack := s
        tracked := keepNewest t.stack.horizon
          (t.tracked.take (t.tracked.length - old.length) ++ traceNew (t.stack.revokeOld old).1 new) }

end Traced

structure LayersMatch (t : Traced) : Prop where
  nums : t.stack.blockNums = t.tracked.map (·.block.num)
  depth : ∀ (j : Nat) (nb : String × SnapshotKvBackend), t.stack.backends[j]? = some nb →
    nb.2.layers.length = t.tracked.length
  layers : ∀ (j : Nat) (nb : String × SnapshotKvBackend), t.stack.backends[j]? = some nb →
    ∀ (i : Nat) (l : Layer) (tr : Tracked), nb.2.layers[i]? = some l → t.tracked[i]? = some tr →
    ∀ key, l.lookup key = Kv.lastWrite (tr.block.writes j) key
  revoke : ∀ (j : Nat) (nb : String × SnapshotKvBackend), t.stack.backends[j]? = some nb →
    ∀ (k : Nat) (tr : Tracked), t.tracked.reverse[k]? = some tr →
    ∀ key, (revokeTop (k + 1) nb.2).get key = tr.before j key

/-! ## The invariant of runs that never drain -/

/-- Every backend's layers are the tracked blocks' writes over the state before the oldest. -/
structure InStep (t : Traced) : Prop where
  nums : t.stack.blockNums = t.tracked.map (·.block.num)
  layers : ∀ (j : Nat) (nb : String × SnapshotKvBackend), t.stack.backends[j]? = some nb →
    nb.2.layers = t.tracked.map fun tr => layerOf (tr.block.writes j)
  before : ∀ (j : Nat) (nb : String × SnapshotKvBackend), t.stack.backends[j]? = some nb →
    ∀ (i : Nat) (tr : Tracked), t.tracked[i]? = some tr →
    tr.before j = get ⟨nb.2.root, nb.2.layers.take i⟩

theorem InStep.depth {t : Traced} (h : InStep t) {j : Nat} {nb : String × SnapshotKvBackend}
    (hnb : t.stack.backends[j]? = some nb) : nb.2.layers.length = t.tracked.length := by
  rw [h.layers j nb hnb, length_map]

theorem InStep.layersMatch {t : Traced} (h : InStep t) : LayersMatch t where
  nums := h.nums
  depth := fun _ _ => h.depth
  layers := by
    intro j nb hnb i l tr hl htr key
    rw [h.layers j nb hnb, getElem?_map, htr] at hl
    cases hl
    exact lookup_layerOf _ key
  revoke := by
    intro j nb hnb k tr htr key
    have hk : k < t.tracked.length := by
      have := (List.getElem?_eq_some_iff.1 htr).1
      rwa [length_reverse] at this
    rw [getElem?_reverse hk] at htr
    have hb := h.before j nb hnb _ tr htr
    have hlen := h.depth hnb
    -- split the layers at the block: the part above it has `k + 1` of them
    have hsplit := take_append_drop (t.tracked.length - 1 - k) nb.2.layers
    have hdrop : (nb.2.layers.drop (t.tracked.length - 1 - k)).length = k + 1 := by
      rw [length_drop]; omega
    have hrev := revokeTop_append nb.2.root
      (nb.2.layers.take (t.tracked.length - 1 - k)) (nb.2.layers.drop (t.tracked.length - 1 - k))
    rw [hsplit, hdrop] at hrev
    rw [hb]
    exact congrArg (get · key) hrev

theorem getElem?_pushBlock (s : SnapshotStack) (blk : BlockWrites) (j : Nat) :
    (s.pushBlock blk).backends[j]? = s.backends[j]?.map fun nb =>
      (nb.1, { nb.2 with layers := nb.2.layers ++ [layerOf (blk.writes j)] }) := by
  simp only [pushBlock, runBlock, eachBackend, getElem?_mapIdx, getElem?_map, Option.map_map]
  congr 1
  funext nb
  simp [Function.comp, foldl_write_advance]

variable {s : SnapshotStack} {ts : List Tracked}

theorem pushBlock_inStep (h : InStep ⟨s, ts⟩) (blk : BlockWrites) : InStep ⟨s.pushBlock blk, ts ++ [⟨blk, s.state⟩]⟩ where
  nums := by
    show s.blockNums ++ [blk.num] = _
    rw [map_append, h.nums]; rfl
  layers := by
    intro j nb hnb
    obtain ⟨nb', hnb', rfl⟩ := map_eq_some_iff.1 ((getElem?_pushBlock s blk j).symm.trans hnb)
    have := h.layers j nb' hnb'
    simp only [map_append, this]; rfl
  before := by
    intro j nb hnb i tr htr
    obtain ⟨nb', hnb', rfl⟩ := map_eq_some_iff.1 ((getElem?_pushBlock s blk j).symm.trans hnb)
    have hlen : nb'.2.layers.length = ts.length := h.depth hnb'
    by_cases hi : i < ts.length
    · have htr : ts[i]? = some tr := by rw [← htr]; exact (getElem?_append_left hi).symm
      rw [h.before j nb' hnb' i tr htr]
      simp [take_append_of_le_length (Nat.le_of_lt (hlen ▸ hi))]
    · -- the new block: the state before it is what the backend returned
      have hi' : i = ts.length := by
        have := (List.getElem?_eq_some_iff.1 htr).1
        simp only [length_append, length_singleton] at this
        omega
      subst hi'
      simp only [getElem?_append_right (Nat.le_refl _), Nat.sub_self, getElem?_cons_zero, some.injEq] at htr
      subst htr
      funext key
      simp [state, hnb', ← hlen]

theorem popBlock_inStep (h : InStep ⟨s, ts⟩) : InStep ⟨s.popBlock, ts.dropLast⟩ where
  nums := by
    show s.blockNums.dropLast = _
    rw [h.nums]; exact (map_dropLast ..).symm
  layers := by
    intro j nb hnb
    obtain ⟨nb', hnb', rfl⟩ := map_eq_some_iff.1 (getElem?_map.symm.trans hnb)
    simp [revoke, h.layers j nb' hnb', map_dropLast]
  before := by
    intro j nb hnb i tr htr
    obtain ⟨nb', hnb', rfl⟩ := map_eq_some_iff.1 (getElem?_map.symm.trans hnb)
    have hlen : nb'.2.layers.length = ts.length := h.depth hnb'
    have hi := (List.getElem?_eq_some_iff.1 htr).1
    simp only [length_dropLast] at hi
    have htr' : ts[i]? = some tr := by
      rw [← htr]
      simp [List.getElem?_dropLast, if_pos hi]
    rw [h.before j nb' hnb' i tr htr']
    have hmin : min i (nb'.2.layers.length - 1) = i := by omega
    simp [revoke, dropLast_eq_take, take_take, hmin]

theorem revokeOld_inStep {old : List Int} : ∀ {s s' : SnapshotStack} {ts : List Tracked},
    InStep ⟨s, ts⟩ → s.revokeOld old = (s', none) →
    InStep ⟨s', ts.take (ts.length - old.length)⟩ ∧ s'.horizon = s.horizon ∧
      s'.blockNums.length + old.length = s.blockNums.length := by
  induction old with
  | nil =>
    intro s s' ts h hr
    cases hr
    refine ⟨?_, rfl, rfl⟩
    simpa using h
  | cons num rest ih =>
    intro s s' ts h hr
    rw [revokeOld] at hr
    split at hr
    · rename_i top htop
      split at hr
      · obtain ⟨h1, h2, h3⟩ := ih (popBlock_inStep h) hr
        have hpos := length_pos_of_mem (mem_of_getLast? htop)
        have hlen : s.popBlock.blockNums.length = s.blockNums.length - 1 := length_dropLast
        refine ⟨?_, h2, by simp only [length_cons]; omega⟩
        have htake : ts.dropLast.take (ts.dropLast.length - rest.length) =
            ts.take (ts.length - (num :: rest).length) := by
          rw [dropLast_eq_take, take_take, length_take]
          congr 1
          simp only [length_cons]
          omega
        rwa [htake] at h1
      · cases hr
    · cases hr

theorem applyNew_inStep {new : List BlockWrites} : ∀ {s s' : SnapshotStack} {ts : List Tracked},
    InStep ⟨s, ts⟩ → s.applyNew (new.map fun blk => (blk, true)) = (s', none) →
    InStep ⟨s', ts ++ traceNew s new⟩ ∧ s'.horizon = s.horizon ∧
      s'.blockNums.length = s.blockNums.length + new.length := by
  induction new with
  | nil =>
    intro s s' ts h ha
    cases ha
    refine ⟨?_, rfl, rfl⟩
    simpa [traceNew] using h
  | cons blk rest ih =>
    intro s s' ts h ha
    obtain ⟨h1, h2, h3⟩ := ih (pushBlock_inStep h blk) ha
    have hlen : (s.pushBlock blk).blockNums.length = s.blockNums.length + 1 := by
      simp [pushBlock]
    refine ⟨?_, h2, by rw [h3, hlen, length_cons]; omega⟩
    rwa [append_assoc] at h1

theorem drain_of_le (h : s.blockNums.length ≤ s.horizon) (fallback : Bool) (writeOk : Nat → Bool) :
    s.drain fallback writeOk = s := by
  unfold drain
  cases s.blockNums.length with
  | zero => rfl
  | succ n => rw [drainLoop, if_neg (by omega)]

theorem keepNewest_of_le {h : Nat} (hle : ts.length ≤ h) : keepNewest h ts = ts := by
  rw [keepNewest, Nat.sub_eq_zero_of_le hle, drop_zero]

theorem InStep.length {t : Traced} (h : InStep t) : t.stack.blockNums.length = t.tracked.length := by
  rw [h.nums, length_map]

/-! ## Runs -/

/-- The call leaves no more blocks tracked than the horizon allows, so nothing is drained. -/
def NoDrain (t : Traced) : StackCall → Prop
  | .apply _ _ => t.stack.blockNums.length + 1 ≤ t.stack.horizon
  | .reorg old new _ => t.stack.blockNums.length + new.length ≤ t.stack.horizon + old.length

instance (t : Traced) (c : StackCall) : Decidable (NoDrain t c) := by
  cases c <;> unfold NoDrain <;> exact inferInstance

/-- **Step lemma.** A successful call that does not drain keeps layers and blocks in step. -/
theorem call_inStep {t t' : Traced} {c : StackCall} (h : InStep t) (hd : NoDrain t c)
    (hc : t.call c = some t') : InStep t' := by
  have hlen := h.length
  cases c with
  | apply blk writeOk =>
    have hd : t.stack.blockNums.length + 1 ≤ t.stack.horizon := hd
    simp only [call, some.injEq] at hc
    subst hc
    have hpush := pushBlock_inStep h blk
    have hle : (t.stack.pushBlock blk).blockNums.length ≤ (t.stack.pushBlock blk).horizon := by
      simpa [pushBlock] using hd
    rw [SnapshotStack.applyBlock, if_pos rfl, drain_of_le hle,
      keepNewest_of_le (by simp only [length_append, length_singleton]; omega)]
    exact hpush
  | reorg old new writeOk =>
    have hd : t.stack.blockNums.length + new.length ≤ t.stack.horizon + old.length := hd
    simp only [call, reorg] at hc
    cases hr : t.stack.revokeOld old with
    | mk s1 e1 =>
      rw [hr] at hc
      cases e1 with
      | some e => cases hc
      | none =>
        obtain ⟨h1, hh1, hl1⟩ := revokeOld_inStep h hr
        cases ha : s1.applyNew (new.map fun blk => (blk, true)) with
        | mk s2 e2 =>
          simp only [ha] at hc
          cases e2 with
          | some e => cases hc
          | none =>
            obtain ⟨h2, hh2, hl2⟩ := applyNew_inStep h1 ha
            simp only [some.injEq] at hc
            subst hc
            have hl := h2.length
            simp only at hl
            rw [drain_of_le (by omega), keepNewest_of_le (by omega)]
            exact h2

/-- The states reached by calls that all satisfy `P`. -/
inductive RunsUnder (P : Traced → StackCall → Prop) (t₀ : Traced) : Traced → Prop
  | start : RunsUnder P t₀ t₀
  | call {t t' : Traced} {c : StackCall} (h : RunsUnder P t₀ t) (hp : P t c)
      (hc : t.call c = some t') : RunsUnder P t₀ t'

/-- A stack over the given roots, before any block. -/
def freshStack (roots : List (String × Contents)) (horizon : Nat) (h : 1 ≤ horizon) (checkpoint : Bool) : Traced where
  stack :=
    { backends := roots.map fun nr => (nr.1, ⟨nr.2, []⟩)
      blockNums := []
      horizon := horizon
      checkpoint := checkpoint
      horizon_pos := h }
  tracked := []

theorem freshStack_inStep (roots : List (String × Contents)) (horizon : Nat) (h : 1 ≤ horizon)
    (checkpoint : Bool) : InStep (freshStack roots horizon h checkpoint) where
  nums := rfl
  layers := by
    intro j nb hnb
    obtain ⟨nr, _, rfl⟩ := map_eq_some_iff.1 (getElem?_map.symm.trans hnb)
    rfl
  before := by
    intro j nb hnb i tr htr
    cases htr

/-- **Runs that never drain keep layers and tracked blocks in step.** -/
theorem layersMatch_of_no_drain (roots : List (String × Contents)) (horizon : Nat) (h : 1 ≤ horizon) (checkpoint : Bool)
    {t : Traced} (hrun : RunsUnder NoDrain (freshStack roots horizon h checkpoint) t) : LayersMatch t := by
  suffices InStep t from this.layersMatch
  induction hrun with
  | start => exact freshStack_inStep roots horizon h checkpoint
  | call _ hp hc ih => exact call_inStep ih hp hc

/-- A block that writes one key of the first backend. -/
def oneWriteBlock (num : Int) (key value : Bytes) : BlockWrites :=
  ⟨num, fun j => if j = 0 then [⟨key, some value⟩] else []⟩

/-- Two blocks and a reorg of the second inside a horizon of two. -/
theorem layersMatch_of_no_drain_reorg :
    ∃ t, RunsUnder NoDrain (freshStack [("account", fun _ => none)] 2 (by decide) true) t ∧
      t.stack.blockNums = [1, 3] ∧ LayersMatch t := by
  have hrun : ∃ t, RunsUnder NoDrain (freshStack [("account", fun _ => none)] 2 (by decide) true) t ∧
      t.stack.blockNums = [1, 3] := by
    refine ⟨_, .call (c := .reorg [2] [oneWriteBlock 3 [1] [30]] fun _ => true)
      (.call (c := .apply (oneWriteBlock 2 [2] [20]) fun _ => true)
        (.call (c := .apply (oneWriteBlock 1 [1] [10]) fun _ => true) .start ?_ rfl) ?_ rfl) ?_ rfl,
      rfl⟩ <;> decide
  obtain ⟨t, ht, hnums⟩ := hrun
  exact ⟨t, ht, hnums, layersMatch_of_no_drain _ 2 (by decide) true ht⟩

/-- With a horizon of one, the second block's drain squashes its layer into the first block's and
forgets the first block: the remaining layer still holds the first block's write. -/
theorem drain_breaks_layers :
    ∃ t, RunsUnder (fun _ _ => True) (freshStack [("account", fun _ => none)] 1 (by decide) false) t ∧
      t.stack.blockNums = [2] ∧ ¬LayersMatch t := by
  refine ⟨_, .call (c := .apply (oneWriteBlock 2 [2] [20]) fun _ => true)
    (.call (c := .apply (oneWriteBlock 1 [1] [10]) fun _ => true) .start trivial rfl) trivial rfl,
    rfl, fun h => ?_⟩
  have hlayer := h.layers 0 _ rfl 0 _ _ rfl rfl [1]
  revert hlayer
  decide

/-! ## Refused reorgs -/

/-- The stack was found not to match the old fork. -/
def ReorgFailure.refusal : ReorgFailure → Bool
  | .drift _ _ | .pastHorizon _ => true
  | .applyFailed _ => false

/-- The same block numbers, layers and readable values. -/
structure SameView (s s' : SnapshotStack) : Prop where
  nums : s'.blockNums = s.blockNums
  layers : s'.backends.map (·.2.layers) = s.backends.map (·.2.layers)
  reads : s'.state = s.state

namespace SnapshotStack

variable (s : SnapshotStack) {old : List Int}

theorem reverse_popBlock : s.popBlock.blockNums.reverse = s.blockNums.reverse.tail := tail_reverse.symm

theorem revokeOld_cons (num : Int) (rest : List Int) :
    s.revokeOld (num :: rest) =
      match s.blockNums.reverse with
      | [] => (s, some (.pastHorizon num))
      | top :: _ => if top = num then s.popBlock.revokeOld rest else (s, some (.drift num top)) := by
  rw [revokeOld, ← head?_reverse]
  cases s.blockNums.reverse <;> rfl

theorem revokeOld_eq_none_iff : (s.revokeOld old).2 = none ↔ old <+: s.blockNums.reverse := by
  induction old generalizing s with
  | nil => exact ⟨fun _ => nil_prefix, fun _ => rfl⟩
  | cons num rest ih =>
    rw [revokeOld_cons]
    cases hs : s.blockNums.reverse with
    | nil => simp
    | cons top below =>
      dsimp only
      by_cases htop : top = num
      · rw [if_pos htop, ih, reverse_popBlock, hs, tail_cons, htop, prefix_cons_inj]
      · rw [if_neg htop]
        refine ⟨fun h => (by cases h), fun h => ?_⟩
        exact absurd (cons_prefix_cons.1 h).1.symm htop

variable {e : ReorgFailure}

/-- The failure of the first loop is a refusal. -/
theorem refusal_of_revokeOld (h : (s.revokeOld old).2 = some e) : e.refusal = true := by
  induction old generalizing s with
  | nil => cases h
  | cons num rest ih =>
    rw [revokeOld_cons] at h
    split at h
    · cases h
      rfl
    · split at h
      · exact ih _ h
      · cases h
        rfl

theorem length_revokeOld_le : (s.revokeOld old).1.blockNums.length ≤ s.blockNums.length := by
  induction old generalizing s with
  | nil => exact Nat.le_refl _
  | cons num rest ih =>
    rw [revokeOld_cons]
    split
    · exact Nat.le_refl _
    · split
      · exact Nat.le_trans (ih _) (dropLast_sublist _).length_le
      · exact Nat.le_refl _

theorem revokeOld_of_head (h : old.head? ≠ s.blockNums.getLast?) : (s.revokeOld old).1 = s := by
  cases old with
  | nil => rfl
  | cons num rest =>
    rw [revokeOld_cons]
    rw [← head?_reverse] at h
    split
    · rfl
    · next top below hs =>
      rw [hs] at h
      rw [if_neg fun heq => h (congrArg some heq.symm)]

theorem length_revokeOld_lt (h : old.head? = s.blockNums.getLast?) (hne : old ≠ []) :
    (s.revokeOld old).1.blockNums.length < s.blockNums.length := by
  cases old with
  | nil => exact absurd rfl hne
  | cons num rest =>
    have hlen : s.blockNums.reverse.length = s.blockNums.length := length_reverse
    rw [revokeOld_cons]
    rw [← head?_reverse] at h
    split
    · next hs =>
      rw [hs] at h
      cases h
    · next top below hs =>
      rw [hs] at h hlen
      rw [if_pos (some.inj h).symm]
      refine Nat.lt_of_le_of_lt (length_revokeOld_le _) ?_
      show s.blockNums.dropLast.length < _
      rw [length_dropLast]
      rw [length_cons] at hlen
      omega

/-- A failure of the second loop is not a refusal. -/
theorem refusal_of_applyNew {new : List (BlockWrites × Bool)} (h : (s.applyNew new).2 = some e) :
    e.refusal = false := by
  induction new generalizing s with
  | nil => cases h
  | cons b rest ih =>
    rw [applyNew] at h
    split at h
    · exact ih _ h
    · cases h
      rfl

theorem reorg_of_revokeOld (new : List (BlockWrites × Bool)) (writeOk : Nat → Bool)
    (h : (s.revokeOld old).2 = some e) : s.reorg old new writeOk = ((s.revokeOld old).1, some e) := by
  rw [reorg, show s.revokeOld old = (_, some e) from Prod.ext rfl h]

theorem refused_iff (new : List (BlockWrites × Bool)) (writeOk : Nat → Bool) (e : ReorgFailure) :
    (s.reorg old new writeOk).2 = some e ∧ e.refusal = true ↔ (s.revokeOld old).2 = some e := by
  constructor
  · rintro ⟨h, he⟩
    unfold reorg at h
    split at h
    · next s' e' heq =>
      rw [heq]
      exact h
    · next s' heq =>
      split at h
      · next s'' e' hnew =>
        cases h
        cases he.symm.trans (refusal_of_applyNew s' (congrArg Prod.snd hnew))
      · cases h
  · intro h
    rw [reorg_of_revokeOld s new writeOk h]
    exact ⟨rfl, refusal_of_revokeOld s h⟩

/-- **When a refused reorg leaves the stack alone.**  Exactly if the numbers to revoke are all on top, so that it is
not refused, or the first of them is not. -/
theorem reorg_atomic_iff (old : List Int) (new : List (BlockWrites × Bool)) (writeOk : Nat → Bool) :
    (∀ e, (s.reorg old new writeOk).2 = some e ∧ e.refusal = true → SameView s (s.reorg old new writeOk).1) ↔
      (old <+: s.blockNums.reverse ∨ old.head? ≠ s.blockNums.getLast?) := by
  constructor
  · intro h
    by_contra hnot
    obtain ⟨hpre, hhead⟩ := not_or.1 hnot
    have hhead := not_not.1 hhead
    have hne : old ≠ [] := fun heq => hpre (heq ▸ nil_prefix)
    -- the first loop has revoked a layer and then fails
    cases he : (s.revokeOld old).2 with
    | none => exact hpre ((revokeOld_eq_none_iff s).1 he)
    | some e =>
      have hsame := (h e ((refused_iff s new writeOk e).2 he)).nums
      rw [reorg_of_revokeOld s new writeOk he] at hsame
      exact absurd (congrArg length hsame) (Nat.ne_of_lt (length_revokeOld_lt s hhead hne))
  · intro h e he
    have he := (refused_iff s new writeOk e).1 he
    rw [reorg_of_revokeOld s new writeOk he]
    rcases h with hpre | hhead
    · rw [(revokeOld_eq_none_iff s).2 hpre] at he
      cases he
    · rw [revokeOld_of_head s hhead]
      exact ⟨rfl, rfl, rfl⟩

def twoBlocks : SnapshotStack where
  backends := [("account", ⟨fun _ => none, [layerOf [⟨[1], some [5]⟩], layerOf [⟨[1], some [6]⟩]]⟩)]
  blockNums := [5, 6]
  horizon := 10
  checkpoint := false
  horizon_pos := by decide

/-- Block 6 is revoked before the number after it is found not to match. -/
theorem refused_reorg_revokes :
    (twoBlocks.reorg [6, 99] [] fun _ => true).2 = some (.drift 99 5) ∧
      (twoBlocks.reorg [6, 99] [] fun _ => true).1.blockNums = [5] ∧
      twoBlocks.state 0 [1] = some [6] ∧ (twoBlocks.reorg [6, 99] [] fun _ => true).1.state 0 [1] = some [5] := by
  decide +kernel

end SnapshotStack

end TronGoblin
