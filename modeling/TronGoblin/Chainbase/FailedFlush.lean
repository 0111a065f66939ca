import TronGoblin.Chainbase.Checkpoint
import TronGoblin.Chainbase.Session
import TronGoblin.Chainbase.SnapshotScan

/-!
# Flushes that fail

`merge` and `merge_all` (`tron-chainbase/src/snapshot.rs`), `commit` and `drain_pending_with_undo` (`session.rs`) when
the layer below may refuse a call: a batch of writes, or the read of a pre-image.  A call that is refused changes
nothing there.  All of them take the writes out of the overlay first.

* `tryMerge_error`, `tryMergeAll_error`, `tryCommit_error`: after an error the overlay is gone, and the layer below is
  as before.
* `flush_keeps_reads_iff`: when reads are the same after a failed flush.
-/

namespace TronGoblin

open List
open Kv (applyAll)

/-- What the layer below answers during one flush: the error of the batch, and of the read of each key. -/
structure Fault where
  write : Option KvError
  read : Bytes → Option KvError

/-- **A flush that fails has lost the overlay.**  It keeps what is read exactly if it is sure not to fail, or the overlay
shows what is below it anyway. -/
theorem keeps_iff {α : Type} {r : Except KvError α} {before after below : Contents} {sure : Prop}
    (hfails : ¬ sure → before ≠ below → ∃ e, r = .error e) (hlost : ∀ e, r = .error e → ¬ sure ∧ after = below) :
    (∀ e, r = .error e → after = before) ↔ sure ∨ before = below := by
  constructor
  · intro h
    by_contra hnot
    obtain ⟨hsure, hne⟩ := not_or.1 hnot
    obtain ⟨e, he⟩ := hfails hsure hne
    exact hne ((h e he).symm.trans (hlost e he).2)
  · intro h e he
    obtain ⟨hsure, hafter⟩ := hlost e he
    exact hafter.trans (h.resolve_left hsure).symm

/-! ## Snapshots -/

namespace SnapshotKvBackend

variable (fault : Fault) (b : SnapshotKvBackend)

/-- `merge`; the top layer is off the stack before the root is written. -/
def tryMerge : Except KvError Unit × SnapshotKvBackend :=
  match b.layers.getLast? with
  | none => (.ok (), b)
  | some top =>
    let rest := b.layers.dropLast
    match rest.getLast? with
    | some below =>
      (.ok (), { b with layers := rest.dropLast ++ [(layerOps top).foldl (fun l w => l.insert w.key w.value) below] })
    | none =>
      if (layerOps top).isEmpty then (.ok (), { b with layers := [] })
      else
        match fault.write with
        | some e => (.error e, { b with layers := [] })
        | none => (.ok (), { root := applyAll (layerOps top) b.root, layers := [] })

/-- The loop of `merge_all`; one layer goes each time. -/
def tryMerges : Nat → SnapshotKvBackend → Except KvError Unit × SnapshotKvBackend
  | 0, b => (.ok (), b)
  | n + 1, b =>
    match tryMerge fault b with
    | (.error e, b) => (.error e, b)
    | (.ok _, b) => tryMerges n b

def tryMergeAll : Except KvError Unit × SnapshotKvBackend := tryMerges fault b.depth b

variable (root : Contents) (ls : List Layer) (top : Layer)

theorem get_concat : get ⟨root, ls ++ [top]⟩ = applyAll (layerOps top) (get ⟨root, ls⟩) := by
  funext key
  unfold get
  rw [reverse_append, reverse_singleton, singleton_append, getFrom, Kv.applyAll_apply,
    OrderedSnapshot.lastWrite_layerOps]

theorem get_nil : get ⟨root, []⟩ = root := rfl

theorem get_squash (below top : Layer) :
    get ⟨root, ls ++ [(layerOps top).foldl (fun l w => l.insert w.key w.value) below]⟩ =
      get ⟨root, ls ++ [below] ++ [top]⟩ := by
  funext key
  simp only [get_concat, Kv.applyAll_apply, OrderedSnapshot.lastWrite_layerOps, lookup_foldl_insert]
  cases top.lookup key <;> rfl

theorem tryMerge_concat (below top : Layer) :
    tryMerge fault ⟨root, ls ++ [below] ++ [top]⟩ =
      (.ok (), ⟨root, ls ++ [(layerOps top).foldl (fun l w => l.insert w.key w.value) below]⟩) := by
  simp [tryMerge]

theorem tryMerge_single :
    tryMerge fault ⟨root, [top]⟩ = if (layerOps top).isEmpty then (.ok (), ⟨root, []⟩)
      else
        match fault.write with
        | some e => (.error e, ⟨root, []⟩)
        | none => (.ok (), ⟨applyAll (layerOps top) root, []⟩) := rfl

theorem stack_cases : ls = [] ∨ (∃ top, ls = [top]) ∨ ∃ ms below top, ls = ms ++ [below] ++ [top] := by
  rcases eq_nil_or_concat ls with rfl | ⟨ms, top, rfl⟩
  · exact .inl rfl
  · rcases eq_nil_or_concat ms with rfl | ⟨ms, below, rfl⟩
    · exact .inr (.inl ⟨top, rfl⟩)
    · exact .inr (.inr ⟨ms, below, top, by simp⟩)

theorem tryMerge_of_no_fault (h : fault.write = none) : tryMerge fault b = (.ok (), b.merge) := by
  obtain ⟨root, ls⟩ := b
  rcases stack_cases ls with rfl | ⟨top, rfl⟩ | ⟨ms, below, top, rfl⟩
  · rfl
  · rw [tryMerge_single, h]
    split
    · next hempty =>
      simp only [merge, List.getLast?_singleton, dropLast_singleton, List.getLast?_nil]
      rw [isEmpty_iff.1 hempty]
      rfl
    · rfl
  · rw [tryMerge_concat]
    simp [merge]

theorem tryMerge_error_iff (e : KvError) :
    (tryMerge fault b).1 = .error e ↔ fault.write = some e ∧ ∃ top, b.layers = [top] ∧ layerOps top ≠ [] := by
  obtain ⟨root, ls⟩ := b
  rcases stack_cases ls with rfl | ⟨top, rfl⟩ | ⟨ms, below, top, rfl⟩
  · simp [tryMerge]
  · rw [tryMerge_single]
    by_cases hempty : layerOps top = []
    · simp [hempty]
    · cases hf : fault.write <;> simp [hempty]
  · have hlen : ∀ l, ms ++ [below] ++ [top] ≠ [l] := by simp [append_eq_cons_iff]
    rw [tryMerge_concat]
    simp only [hlen, false_and, exists_false, and_false, reduceCtorEq]

variable {e : KvError}

theorem tryMerge_error (h : (tryMerge fault b).1 = .error e) : (tryMerge fault b).2 = ⟨b.root, []⟩ := by
  obtain ⟨hf, top, hb, hne⟩ := (tryMerge_error_iff fault b e).1 h
  obtain ⟨root, ls⟩ := b
  cases hb
  rw [tryMerge_single, if_neg (by simpa using hne), hf]

/-- While more than one layer is left, `merge_all` squashes; what is read stays. -/
theorem tryMerges_concat (n : Nat) (root : Contents) (ls : List Layer) (below top : Layer) :
    ∃ l, get ⟨root, ls ++ [l]⟩ = get ⟨root, ls ++ [below] ++ [top]⟩ ∧
      tryMerges fault (n + 1) ⟨root, ls ++ [below] ++ [top]⟩ = tryMerges fault n ⟨root, ls ++ [l]⟩ := by
  refine ⟨_, get_squash root ls below top, ?_⟩
  rw [tryMerges, tryMerge_concat]

/-- **`merge_all` comes down to one layer, and fails or not as that one does.** -/
theorem tryMergeAll_single (ls : List Layer) (root : Contents) :
    ∃ l, get ⟨root, [l]⟩ = get ⟨root, ls ++ [top]⟩ ∧
      tryMergeAll fault ⟨root, ls ++ [top]⟩ = tryMerge fault ⟨root, [l]⟩ := by
  unfold tryMergeAll depth
  induction ls using List.reverseRecOn generalizing top with
  | nil =>
    refine ⟨top, rfl, ?_⟩
    show tryMerges fault 1 ⟨root, [top]⟩ = _
    rw [tryMerges]
    split
    · next h => rw [h]
    · next h => rw [h]; rfl
  | append_singleton ls below ih =>
    have hlen : (ls ++ [below] ++ [top]).length = (ls ++ [below]).length + 1 := by simp
    obtain ⟨l, hget, hstep⟩ := tryMerges_concat fault (ls ++ [below]).length root ls below top
    obtain ⟨l', hget', hrest⟩ := ih l
    refine ⟨l', hget'.trans hget, ?_⟩
    rw [hlen, hstep]
    have hsame : (ls ++ [below]).length = (ls ++ [l]).length := by simp
    rw [hsame]
    exact hrest

theorem tryMergeAll_error (h : (tryMergeAll fault b).1 = .error e) :
    (tryMergeAll fault b).2 = ⟨b.root, []⟩ ∧ fault.write = some e := by
  obtain ⟨root, ls⟩ := b
  rcases eq_nil_or_concat ls with rfl | ⟨ms, top, rfl⟩
  · cases h
  · obtain ⟨l, -, heq⟩ := tryMergeAll_single fault top ms root
    rw [concat_eq_append] at h ⊢
    rw [heq] at h ⊢
    exact ⟨tryMerge_error fault _ h, ((tryMerge_error_iff fault _ e).1 h).1⟩

/-- It fails if the root refuses the batch and the layers show something else than the root. -/
theorem tryMergeAll_fails (hf : fault.write = some e) (hne : b.get ≠ b.root) : (tryMergeAll fault b).1 = .error e := by
  obtain ⟨root, ls⟩ := b
  rcases eq_nil_or_concat ls with rfl | ⟨ms, top, rfl⟩
  · exact absurd (get_nil root) hne
  · rw [concat_eq_append] at hne ⊢
    obtain ⟨l, hget, heq⟩ := tryMergeAll_single fault top ms root
    rw [heq, tryMerge_error_iff]
    refine ⟨hf, l, rfl, fun hempty => hne ?_⟩
    rw [← hget]
    have hsplit := get_concat root [] l
    rw [hempty, get_nil] at hsplit
    exact hsplit

theorem tryMerge_keeps_iff :
    (∀ e, (b.tryMerge fault).1 = .error e → (b.tryMerge fault).2.get = b.get) ↔
      fault.write = none ∨ b.depth ≠ 1 ∨ b.get = b.root := by
  rw [← or_assoc]
  refine keeps_iff (fun hsure hne => ?_) fun e he => ?_
  · obtain ⟨hf, hdepth⟩ := not_or.1 hsure
    obtain ⟨e, hf⟩ := Option.ne_none_iff_exists'.1 hf
    obtain ⟨top, htop⟩ := length_eq_one_iff.1 (not_not.1 hdepth)
    refine ⟨e, (tryMerge_error_iff fault b e).2 ⟨hf, top, htop, fun hnil => hne ?_⟩⟩
    obtain ⟨root, ls⟩ := b
    cases htop
    show get ⟨root, [] ++ [top]⟩ = root
    rw [get_concat, hnil]
    rfl
  · obtain ⟨hf, top, htop, -⟩ := (tryMerge_error_iff fault b e).1 he
    refine ⟨?_, by rw [tryMerge_error fault b he]; rfl⟩
    rintro (h | h)
    · exact absurd (h.symm.trans hf) (by simp)
    · exact h (by rw [depth, htop]; rfl)

theorem tryMergeAll_keeps_iff :
    (∀ e, (b.tryMergeAll fault).1 = .error e → (b.tryMergeAll fault).2.get = b.get) ↔
      fault.write = none ∨ b.get = b.root := by
  refine keeps_iff (fun hsure hne => ?_) fun e he => ?_
  · obtain ⟨e, hf⟩ := Option.ne_none_iff_exists'.1 hsure
    exact ⟨e, tryMergeAll_fails fault b hf hne⟩
  · obtain ⟨hafter, hf⟩ := tryMergeAll_error fault b he
    exact ⟨by simp [hf], by rw [hafter]; rfl⟩

end SnapshotKvBackend

/-! ## Sessions -/

namespace SessionBackend

variable (o : HashOrder) (fault : Fault) (parent : Contents) (s : SessionBackend)

/-- `commit`: the result, and the parent and the session after it. -/
def tryCommit : Except KvError Unit × Contents × SessionBackend :=
  let ops := o.iter s.pending
  if ops.isEmpty then (.ok (), parent, new)
  else
    match fault.write with
    | some e => (.error e, parent, new)
    | none => (.ok (), applyAll ops parent, new)

/-- The loop over the drained writes: the pre-image of each. -/
def readPreimages : List WriteOp → Except KvError (List WriteOp × List (Bytes × Option Bytes))
  | [] => .ok ([], [])
  | w :: ws =>
    match fault.read w.key with
    | some e => .error e
    | none => (readPreimages ws).map fun r => (w :: r.1, (w.key, parent w.key) :: r.2)

def tryDrainPendingWithUndo : Except KvError (List WriteOp × List (Bytes × Option Bytes)) × Contents × SessionBackend :=
  (readPreimages fault parent (o.iter s.pending), parent, new)

theorem readPreimages_eq_ok {ws : List WriteOp} (h : ∀ w ∈ ws, fault.read w.key = none) :
    readPreimages fault parent ws = .ok (ws, ws.map fun w => (w.key, parent w.key)) := by
  induction ws with
  | nil => rfl
  | cons w ws ih =>
    rw [readPreimages, h w mem_cons_self, ih fun u hu => h u (mem_cons_of_mem w hu)]
    rfl

theorem readPreimages_fails_iff (ws : List WriteOp) :
    (∃ e, readPreimages fault parent ws = .error e) ↔ ¬ ∀ w ∈ ws, fault.read w.key = none := by
  constructor
  · rintro ⟨e, he⟩ hall
    rw [readPreimages_eq_ok fault parent hall] at he
    cases he
  · intro hnot
    induction ws with
    | nil => exact absurd (fun w hw => by cases hw) hnot
    | cons w ws ih =>
      rw [readPreimages]
      cases hw : fault.read w.key with
      | some e => exact ⟨e, rfl⟩
      | none =>
        obtain ⟨e, he⟩ := ih fun hall => hnot (forall_mem_cons.2 ⟨hw, hall⟩)
        exact ⟨e, by rw [he]; rfl⟩

theorem tryDrain_of_no_fault (h : ∀ w ∈ s.pending, fault.read w.key = none) :
    (s.tryDrainPendingWithUndo o fault parent).1 = .ok (s.drainPendingWithUndo o parent) :=
  readPreimages_eq_ok fault parent fun w hw => h w ((o.perm _).mem_iff.1 hw)

theorem get_of_pending_nil (h : s.pending = []) : s.get parent = parent := by
  rw [get_eq_applyAll, h, Kv.applyAll_nil]

theorem iter_ne_nil (h : s.get parent ≠ parent) : (o.iter s.pending).isEmpty = false := by
  rw [(o.perm _).isEmpty_eq, isEmpty_eq_false_iff]
  exact fun hnil => h (get_of_pending_nil parent s hnil)

variable {e : KvError}

theorem tryCommit_error (h : (s.tryCommit o fault parent).1 = .error e) :
    fault.write = some e ∧ (s.tryCommit o fault parent).2 = (parent, new) := by
  unfold tryCommit at h ⊢
  dsimp only at h ⊢
  split at h
  · cases h
  · next hne =>
    rw [if_neg hne]
    split at h
    · next hf =>
      cases h
      rw [hf]
      exact ⟨rfl, rfl⟩
    · cases h

theorem tryCommit_fails (hf : fault.write = some e) (hne : s.get parent ≠ parent) :
    (s.tryCommit o fault parent).1 = .error e := by
  unfold tryCommit
  dsimp only
  rw [iter_ne_nil o parent s hne, hf]
  rfl

theorem tryCommit_keeps_iff :
    (∀ e, (s.tryCommit o fault parent).1 = .error e →
        (s.tryCommit o fault parent).2.2.get (s.tryCommit o fault parent).2.1 = s.get parent) ↔
      fault.write = none ∨ s.get parent = parent := by
  refine keeps_iff (fun hsure hne => ?_) fun e he => ?_
  · obtain ⟨e, hf⟩ := Option.ne_none_iff_exists'.1 hsure
    exact ⟨e, tryCommit_fails o fault parent s hf hne⟩
  · obtain ⟨hf, hafter⟩ := tryCommit_error o fault parent s he
    exact ⟨by simp [hf], by rw [hafter]; rfl⟩

theorem tryDrain_keeps_iff :
    (∀ e, (s.tryDrainPendingWithUndo o fault parent).1 = .error e →
        (s.tryDrainPendingWithUndo o fault parent).2.2.get (s.tryDrainPendingWithUndo o fault parent).2.1 =
          s.get parent) ↔
      (∀ w ∈ s.pending, fault.read w.key = none) ∨ s.get parent = parent := by
  refine keeps_iff (fun hsure _ => ?_) fun e he => ⟨fun hall => ?_, rfl⟩
  · exact (readPreimages_fails_iff fault parent (o.iter s.pending)).2 fun hall =>
      hsure fun w hw => hall w ((o.perm _).mem_iff.2 hw)
  · rw [tryDrain_of_no_fault o fault parent s hall] at he
    cases he

end SessionBackend

open SnapshotKvBackend SessionBackend in
/-- **When a failed flush leaves what is read.**  Exactly if no call to the layer below is refused, or the overlay
shows what is below it anyway. -/
theorem flush_keeps_reads_iff (fault : Fault) (b : SnapshotKvBackend) (o : HashOrder) (parent : Contents)
    (s : SessionBackend) :
    ((∀ e, (b.tryMerge fault).1 = .error e → (b.tryMerge fault).2.get = b.get) ↔
      fault.write = none ∨ b.depth ≠ 1 ∨ b.get = b.root) ∧
    ((∀ e, (b.tryMergeAll fault).1 = .error e → (b.tryMergeAll fault).2.get = b.get) ↔
      fault.write = none ∨ b.get = b.root) ∧
    ((∀ e, (s.tryCommit o fault parent).1 = .error e →
        (s.tryCommit o fault parent).2.2.get (s.tryCommit o fault parent).2.1 = s.get parent) ↔
      fault.write = none ∨ s.get parent = parent) ∧
    ((∀ e, (s.tryDrainPendingWithUndo o fault parent).1 = .error e →
        (s.tryDrainPendingWithUndo o fault parent).2.2.get (s.tryDrainPendingWithUndo o fault parent).2.1 =
          s.get parent) ↔
      (∀ w ∈ s.pending, fault.read w.key = none) ∨ s.get parent = parent) :=
  ⟨tryMerge_keeps_iff fault b, tryMergeAll_keeps_iff fault b, tryCommit_keeps_iff o fault parent s,
    tryDrain_keeps_iff o fault parent s⟩

/-- One write over an empty store, and a layer below that refuses. -/
theorem failed_flush_loses :
    let fault : Fault := ⟨some "disk full", fun _ => some "disk full"⟩
    let b : SnapshotKvBackend := ⟨fun _ => none, [SnapshotKvBackend.layerOf [⟨[1], some [2]⟩]]⟩
    let s := SessionBackend.new.put [1] [2]
    (b.tryMerge fault).1 = .error "disk full" ∧ b.get [1] = some [2] ∧ (b.tryMerge fault).2.get [1] = none ∧
      (b.tryMergeAll fault).1 = .error "disk full" ∧ (b.tryMergeAll fault).2.get [1] = none ∧
      (s.tryCommit .inserted fault fun _ => none).1 = .error "disk full" ∧ s.get (fun _ => none) [1] = some [2] ∧
      (s.tryCommit .inserted fault fun _ => none).2.2.get (s.tryCommit .inserted fault fun _ => none).2.1 [1] = none ∧
      (s.tryDrainPendingWithUndo .inserted fault fun _ => none).1 = .error "disk full" ∧
      (s.tryDrainPendingWithUndo .inserted fault fun _ => none).2.2.get (fun _ => none) [1] = none := by
  decide +kernel

end TronGoblin
