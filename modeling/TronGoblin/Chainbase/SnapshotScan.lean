import Mathlib
import TronGoblin.Chainbase.Snapshot
import TronGoblin.Lib.History

/-!
# Reads and scans through snapshot layers

`SnapshotKvBackend` (`tron-chainbase/src/snapshot.rs`) as a `KvBackend`, over a root that can be
scanned in the order of its keys (`MemBackend` and RocksDB are such roots).

* `OrderedSnapshot`: the backend; `Op`, `step`: one call that may change it.
* `Stack`: what it stands for: a stack of plain maps, writes changing the top one.
* `levels_step`: the backend simulates the stack, level by level.
* `reads_eq`: all five read functions return what the plain map of the top level returns.
* `refines`: the result for every run.
-/

namespace TronGoblin

open List Function
open Kv (applyAll lastWrite)

/-! ## Plain maps -/

/-- A map that is scanned in ascending byte-lexicographic order. -/
abbrev Store := Std.ExtTreeMap Bytes Bytes

namespace Store

def contents (m : Store) : Contents := fun k => m[k]?

def write (m : Store) (w : WriteOp) : Store :=
  match w.value with
  | some v => m.insert w.key v
  | none => m.erase w.key

/-- `write_batch` of a root. -/
def writeAll (m : Store) (ws : List WriteOp) : Store := ws.foldl write m

theorem ext_contents {m m' : Store} (h : m.contents = m'.contents) : m = m' :=
  Std.ExtTreeMap.ext_getElem? fun k => congrFun h k

theorem contents_write (m : Store) (w : WriteOp) : (m.write w).contents = m.contents.write w := by
  funext k
  obtain ⟨key, value⟩ := w
  have hkey : (compare key k = .eq) = (key = k) := propext Std.LawfulEqOrd.compare_eq_iff_eq
  cases value with
  | some v =>
    show (m.insert key v)[k]? = update m.contents key (some v) k
    rw [Std.ExtTreeMap.getElem?_insert]
    simp [hkey, update_apply, eq_comm, contents]
  | none =>
    show (m.erase key)[k]? = update m.contents key none k
    rw [Std.ExtTreeMap.getElem?_erase]
    simp [hkey, update_apply, eq_comm, contents]

theorem contents_writeAll (m : Store) (ws : List WriteOp) : (m.writeAll ws).contents = applyAll ws m.contents := by
  induction ws generalizing m with
  | nil => rfl
  | cons w ws ih =>
    rw [writeAll, foldl_cons, ← writeAll, ih, contents_write]
    rfl

end Store

/-- The answers of all read functions. -/
structure Reads where
  get : Bytes → Option Bytes
  contains : Bytes → Bool
  scanAll : List (Bytes × Bytes)
  scanFrom : Bytes → Nat → List (Bytes × Bytes)
  scanPrefix : Bytes → List (Bytes × Bytes)

/-- What a plain map returns: entries in ascending order, from a start key on and at most so many of
them, or those that begin with some bytes. -/
def Store.reads (m : Store) : Reads where
  get k := m[k]?
  contains k := m.contains k
  scanAll := m.toList
  scanFrom start limit := (m.toList.filter fun e => (compare start e.1).isLE).take limit
  scanPrefix pre := m.toList.filter fun e => pre.isPrefixOf e.1

/-! ## The backend -/

open SnapshotKvBackend (layerOps getFrom)

/-- A root and the layers over it, bottom first. -/
structure OrderedSnapshot where
  root : Store
  layers : List Layer

namespace OrderedSnapshot

variable (b : OrderedSnapshot)

def depth : Nat := b.layers.length

def advance : OrderedSnapshot := { b with layers := b.layers ++ [∅] }

def revoke : OrderedSnapshot := { b with layers := b.layers.dropLast }

/-- `merge`: into the layer below, or as one batch into the root. -/
def merge : OrderedSnapshot :=
  match b.layers.getLast? with
  | none => b
  | some top =>
    let rest := b.layers.dropLast
    match rest.getLast? with
    | some below =>
      { b with layers := rest.dropLast ++ [(layerOps top).foldl (fun l w => l.insert w.key w.value) below] }
    | none =>
      if top.entries.isEmpty then { b with layers := [] }
      else { root := b.root.writeAll (layerOps top), layers := [] }

/-- `merge_all`: merge while there are layers. -/
def mergeAll : OrderedSnapshot := merge^[b.depth] b

/-- `put` and `delete`. -/
def write (w : WriteOp) : OrderedSnapshot :=
  match b.layers.getLast? with
  | some top => { b with layers := b.layers.dropLast ++ [top.insert w.key w.value] }
  | none => { b with root := b.root.write w }

def writeBatch (ops : List WriteOp) : OrderedSnapshot :=
  if ops.isEmpty then b
  else
    match b.layers.getLast? with
    | some top =>
      { b with layers := b.layers.dropLast ++ [ops.foldl (fun l w => l.insert w.key w.value) top] }
    | none => { b with root := b.root.writeAll ops }

def get (key : Bytes) : Option Bytes := getFrom b.root.contents key b.layers.reverse

/-- The first hit of a key from the top layer down decides, else the root. -/
def containsFrom (root : Store) (key : Bytes) : List Layer → Bool
  | [] => root.contains key
  | l :: ls =>
    match l.lookup key with
    | some slot => slot.isSome
    | none => containsFrom root key ls

def contains (key : Bytes) : Bool := containsFrom b.root key b.layers.reverse

variable (m : Store) (l : Layer)

/-- Write a layer's entries into a map. -/
def overlay : Store :=
  l.entries.foldl (fun m e =>
    match e.2 with
    | some v => m.insert e.1 v
    | none => m.erase e.1) m

/-- `scan_all`: the root's entries, with each layer in turn over them. -/
def scanAll : List (Bytes × Bytes) := (b.layers.foldl overlay b.root).toList

def scanFrom (start : Bytes) (limit : Nat) : List (Bytes × Bytes) :=
  if limit = 0 then []
  else (b.scanAll.filter fun e => (compare start e.1).isLE).take limit

def scanPrefix (pre : Bytes) : List (Bytes × Bytes) :=
  b.scanAll.filter fun e => pre.isPrefixOf e.1

def reads : Reads := ⟨b.get, b.contains, b.scanAll, b.scanFrom, b.scanPrefix⟩

inductive Op where
  | advance
  | put (key value : Bytes)
  | delete (key : Bytes)
  | writeBatch (ops : List WriteOp)
  | revoke
  | merge
  | mergeAll

def step (b : OrderedSnapshot) : Op → OrderedSnapshot
  | .advance => b.advance
  | .put key value => b.write ⟨key, some value⟩
  | .delete key => b.write ⟨key, none⟩
  | .writeBatch ops => b.writeBatch ops
  | .revoke => b.revoke
  | .merge => b.merge
  | .mergeAll => b.mergeAll

/-- The same state with the root as a plain function. -/
def toBackend : SnapshotKvBackend := ⟨b.root.contents, b.layers⟩

/-! ## Layers as writes -/

theorem lastWrite_layerOps (key : Bytes) : lastWrite (layerOps l) key = l.lookup key := by
  have hnodup : ((layerOps l).map (·.key)).Nodup := by
    rw [layerOps, map_map]
    exact l.nodupKeys
  ext v
  rw [← Kv.mem_iff_lastWrite hnodup ⟨key, v⟩, layerOps, ← Option.mem_def,
    show l.lookup key = List.dlookup key l.entries from rfl, mem_dlookup_iff l.nodupKeys, mem_map]
  constructor
  · rintro ⟨e, he, heq⟩
    cases heq
    exact he
  · intro he
    exact ⟨_, he, rfl⟩

theorem overlay_eq_writeAll : overlay m l = m.writeAll (layerOps l) := by
  rw [overlay, Store.writeAll, layerOps, foldl_map]
  rfl

theorem contents_overlay (key : Bytes) : (overlay m l).contents key = (l.lookup key).getD (m.contents key) := by
  rw [overlay_eq_writeAll, Store.contents_writeAll, Kv.applyAll_apply, lastWrite_layerOps]

theorem overlay_inserts (ws : List WriteOp) :
    overlay m (ws.foldl (fun l w => l.insert w.key w.value) l) = (overlay m l).writeAll ws := by
  apply Store.ext_contents
  funext key
  rw [contents_overlay, SnapshotKvBackend.lookup_foldl_insert, Store.contents_writeAll,
    Kv.applyAll_apply, contents_overlay]
  cases lastWrite ws key <;> rfl

theorem overlay_squash (below top : Layer) :
    overlay m ((layerOps top).foldl (fun l w => l.insert w.key w.value) below) = overlay (overlay m below) top := by
  rw [overlay_inserts, ← overlay_eq_writeAll]

theorem overlay_empty : overlay m ∅ = m := rfl

/-! ## Reads -/

/-- The plain map that the layers, over the root from the bottom to the top, make. -/
def flatten : Store := b.layers.foldl overlay b.root

theorem getFrom_eq (root : Store) (key : Bytes) (ls : List Layer) :
    getFrom root.contents key ls = (ls.reverse.foldl overlay root).contents key := by
  induction ls with
  | nil => rfl
  | cons l ls ih =>
    rw [getFrom, ih, reverse_cons, foldl_append]
    exact (contents_overlay _ l key).symm

theorem containsFrom_eq (root : Store) (key : Bytes) (ls : List Layer) :
    containsFrom root key ls = (getFrom root.contents key ls).isSome := by
  induction ls with
  | nil => exact Std.ExtTreeMap.contains_eq_isSome_getElem?
  | cons l ls ih =>
    rw [containsFrom, getFrom]
    cases l.lookup key with
    | none => exact ih
    | some slot => rfl

theorem reads_eq : b.reads = b.flatten.reads := by
  have hget : b.get = fun k => b.flatten[k]? := by
    funext k
    rw [get, getFrom_eq, reverse_reverse]
    rfl
  have hcontains : b.contains = fun k => b.flatten.contains k := by
    funext k
    rw [contains, containsFrom_eq, getFrom_eq, reverse_reverse]
    exact Std.ExtTreeMap.contains_eq_isSome_getElem?.symm
  have hfrom : b.scanFrom = b.flatten.reads.scanFrom := by
    funext start limit
    unfold scanFrom
    split
    · rename_i hzero
      rw [hzero]
      rfl
    · rfl
  unfold reads Store.reads
  rw [hget, hcontains, hfrom]
  rfl

end OrderedSnapshot

/-! ## A stack of maps -/

/-- A stack of plain maps, top first. -/
abbrev Stack := List Store

open OrderedSnapshot (Op) in
/-- Writes change the top map; `advance` copies it, `revoke` drops it, and `merge` drops the one
below. -/
def Stack.step : Stack → Op → Stack
  | [], _ => []
  | m :: ms, .advance => m :: m :: ms
  | m :: ms, .put key value => m.write ⟨key, some value⟩ :: ms
  | m :: ms, .delete key => m.write ⟨key, none⟩ :: ms
  | m :: ms, .writeBatch ops => m.writeAll ops :: ms
  | [m], .revoke => [m]
  | _ :: ms, .revoke => ms
  | m :: ms, .merge => m :: ms.tail
  | m :: _, .mergeAll => [m]

namespace OrderedSnapshot

variable (b : OrderedSnapshot)

/-- The maps of all levels over the root, top first; the layers are given top first too. -/
def levelsFrom (root : Store) : List Layer → Stack
  | [] => [root]
  | l :: ls => overlay ((levelsFrom root ls).headD root) l :: levelsFrom root ls

def levels : Stack := levelsFrom b.root b.layers.reverse

variable (root : Store) (ls : List Layer)

theorem headD_levelsFrom : (levelsFrom root ls).headD root = ls.reverse.foldl overlay root := by
  induction ls with
  | nil => rfl
  | cons l ls ih =>
    rw [levelsFrom, headD_cons, ih, reverse_cons, foldl_append]
    rfl

variable (top : Layer)

theorem levels_concat : levels ⟨root, ls ++ [top]⟩ = overlay (flatten ⟨root, ls⟩) top :: levels ⟨root, ls⟩ := by
  unfold levels flatten
  rw [reverse_append, reverse_singleton, singleton_append, levelsFrom, headD_levelsFrom, reverse_reverse]

theorem flatten_concat : flatten ⟨root, ls ++ [top]⟩ = overlay (flatten ⟨root, ls⟩) top := by
  unfold flatten
  rw [foldl_append]
  rfl

theorem levels_eq_cons : ∃ ms, b.levels = b.flatten :: ms := by
  obtain ⟨root, layers⟩ := b
  rcases eq_nil_or_concat layers with rfl | ⟨ls, top, rfl⟩
  · exact ⟨[], rfl⟩
  · exact ⟨_, by rw [concat_eq_append, levels_concat, flatten_concat]⟩

/-! ## The simulation -/

variable (w : WriteOp)

theorem write_concat : write ⟨root, ls ++ [top]⟩ w = ⟨root, ls ++ [top.insert w.key w.value]⟩ := by
  simp [write]

theorem writeBatch_concat (ops : List WriteOp) :
    writeBatch ⟨root, ls ++ [top]⟩ ops = ⟨root, ls ++ [ops.foldl (fun l w => l.insert w.key w.value) top]⟩ := by
  cases ops with
  | nil => rfl
  | cons w ops => simp [writeBatch]

theorem merge_bottom : merge ⟨root, [top]⟩ = ⟨overlay root top, []⟩ := by
  rw [overlay_eq_writeAll]
  show (if top.entries.isEmpty then ⟨root, []⟩ else ⟨root.writeAll (layerOps top), []⟩ :
    OrderedSnapshot) = _
  split
  · rename_i hempty
    rw [layerOps, isEmpty_iff.1 hempty]
    rfl
  · rfl

theorem merge_concat (below top : Layer) :
    merge ⟨root, ls ++ [below] ++ [top]⟩ =
      ⟨root, ls ++ [(layerOps top).foldl (fun l w => l.insert w.key w.value) below]⟩ := by
  simp [merge]

theorem depth_concat : depth ⟨root, ls ++ [top]⟩ = ls.length + 1 := by
  simp [depth]

theorem levels_writeBatch (ops : List WriteOp) : ∃ ms, b.levels = b.flatten :: ms ∧
    (b.writeBatch ops).levels = b.flatten.writeAll ops :: ms := by
  obtain ⟨root, layers⟩ := b
  rcases eq_nil_or_concat layers with rfl | ⟨ls, top, rfl⟩
  · cases ops with
    | nil => exact ⟨[], rfl, rfl⟩
    | cons w ops => exact ⟨[], rfl, rfl⟩
  · rw [concat_eq_append, writeBatch_concat, levels_concat, levels_concat, flatten_concat, overlay_inserts]
    exact ⟨_, rfl, rfl⟩

theorem levels_write : ∃ ms, b.levels = b.flatten :: ms ∧ (b.write w).levels = b.flatten.write w :: ms :=
  b.levels_writeBatch [w]

theorem levels_merge : ∃ ms, b.levels = b.flatten :: ms ∧ b.merge.levels = b.flatten :: ms.tail := by
  obtain ⟨root, layers⟩ := b
  rcases eq_nil_or_concat layers with rfl | ⟨ls, top, rfl⟩
  · exact ⟨[], rfl, rfl⟩
  · rw [concat_eq_append]
    rcases eq_nil_or_concat ls with rfl | ⟨ls, below, rfl⟩
    · rw [nil_append, merge_bottom]
      exact ⟨[root], rfl, rfl⟩
    · -- the two top layers become one, and the level between them goes
      rw [concat_eq_append, merge_concat]
      simp only [levels_concat, flatten_concat, overlay_squash]
      exact ⟨_, rfl, rfl⟩

theorem flatten_merge : b.merge.flatten = b.flatten := by
  obtain ⟨ms, -, hmerge⟩ := b.levels_merge
  obtain ⟨ms', hlevels⟩ := b.merge.levels_eq_cons
  rw [hlevels] at hmerge
  exact (List.cons.inj hmerge).1

theorem depth_merge : b.merge.depth = b.depth - 1 := by
  obtain ⟨root, layers⟩ := b
  rcases eq_nil_or_concat layers with rfl | ⟨ls, top, rfl⟩
  · rfl
  · rw [concat_eq_append]
    rcases eq_nil_or_concat ls with rfl | ⟨ls, below, rfl⟩
    · rw [nil_append, merge_bottom]
      rfl
    · rw [concat_eq_append, merge_concat]
      simp [depth]

theorem merges_spec (n : Nat) : (merge^[n] b).flatten = b.flatten ∧ (merge^[n] b).depth = b.depth - n := by
  induction n with
  | zero => exact ⟨rfl, rfl⟩
  | succ n ih =>
    rw [iterate_succ_apply', flatten_merge, depth_merge, ih.1, ih.2]
    exact ⟨rfl, by omega⟩

theorem levels_mergeAll : b.mergeAll.levels = [b.flatten] := by
  obtain ⟨hflat, hdepth⟩ := b.merges_spec b.depth
  rw [← mergeAll] at hflat hdepth
  generalize b.mergeAll = c at *
  obtain ⟨root, layers⟩ := c
  rw [Nat.sub_self] at hdepth
  have hnil : layers = [] := eq_nil_of_length_eq_zero hdepth
  subst hnil
  rw [← hflat]
  rfl

theorem levels_revoke : ∃ ms, b.levels = b.flatten :: ms ∧
    b.revoke.levels = if ms.isEmpty then [b.flatten] else ms := by
  obtain ⟨root, layers⟩ := b
  rcases eq_nil_or_concat layers with rfl | ⟨ls, top, rfl⟩
  · exact ⟨[], rfl, rfl⟩
  · obtain ⟨ms, hms⟩ := levels_eq_cons ⟨root, ls⟩
    have hdrop : revoke ⟨root, ls ++ [top]⟩ = ⟨root, ls⟩ := by simp [revoke]
    rw [concat_eq_append, levels_concat, hdrop, flatten_concat, hms]
    exact ⟨_, rfl, rfl⟩

/-- **The simulation**: a call on the backend is the same call on the stack of its levels. -/
theorem levels_step (op : Op) : (step b op).levels = Stack.step b.levels op := by
  cases op with
  | advance =>
    obtain ⟨ms, hms⟩ := b.levels_eq_cons
    obtain ⟨root, layers⟩ := b
    show levels ⟨root, layers ++ [∅]⟩ = _
    rw [levels_concat, overlay_empty, hms]
    rfl
  | put key value =>
    obtain ⟨ms, hms, h⟩ := b.levels_write ⟨key, some value⟩
    rw [hms]
    exact h
  | delete key =>
    obtain ⟨ms, hms, h⟩ := b.levels_write ⟨key, none⟩
    rw [hms]
    exact h
  | writeBatch ops =>
    obtain ⟨ms, hms, h⟩ := b.levels_writeBatch ops
    rw [hms]
    exact h
  | revoke =>
    obtain ⟨ms, hms, h⟩ := b.levels_revoke
    rw [hms]
    cases ms with
    | nil => exact h
    | cons m ms => exact h
  | merge =>
    obtain ⟨ms, hms, h⟩ := b.levels_merge
    rw [hms]
    exact h
  | mergeAll =>
    obtain ⟨ms, hms⟩ := b.levels_eq_cons
    rw [hms]
    exact b.levels_mergeAll

/-! ## Layers above a level -/

/-- The root and the bottom layers are those of `base`. -/
def Above (base s : OrderedSnapshot) : Prop :=
  base.depth < s.depth ∧ s.root = base.root ∧ s.layers.take base.depth = base.layers

theorem above_step {base s : OrderedSnapshot} {op : Op} (h : Above base s)
    (hop : base.depth < (step s op).depth) : Above base (step s op) := by
  obtain ⟨hdepth, hroot, htake⟩ := h
  refine ⟨hop, ?_⟩
  obtain ⟨root, layers⟩ := s
  rcases eq_nil_or_concat layers with rfl | ⟨ls, top, rfl⟩
  · exact absurd hdepth (Nat.not_lt_zero _)
  · rw [concat_eq_append] at *
    have hls : base.depth ≤ ls.length := by
      rw [depth_concat] at hdepth
      omega
    have hkeep : ∀ l : List Layer, (ls ++ l).take base.depth = base.layers := by
      intro l
      rw [take_append_of_le_length hls] at htake ⊢
      exact htake
    cases op with
    | advance => exact ⟨hroot, by rw [step, advance, append_assoc]; exact hkeep _⟩
    | put key value =>
      rw [step, write_concat]
      exact ⟨hroot, hkeep _⟩
    | delete key =>
      rw [step, write_concat]
      exact ⟨hroot, hkeep _⟩
    | writeBatch ops =>
      rw [step, writeBatch_concat]
      exact ⟨hroot, hkeep _⟩
    | revoke =>
      have hdrop : revoke ⟨root, ls ++ [top]⟩ = ⟨root, ls⟩ := by simp [revoke]
      have hnil := hkeep []
      rw [append_nil] at hnil
      rw [step, hdrop]
      exact ⟨hroot, hnil⟩
    | merge =>
      rw [step, depth_merge, depth_concat, Nat.add_sub_cancel] at hop
      rcases eq_nil_or_concat ls with rfl | ⟨ls, below, rfl⟩
      · exact absurd hop (Nat.not_lt_zero _)
      · rw [concat_eq_append] at *
        have hls : base.depth ≤ ls.length := by
          rw [length_append, length_singleton] at hop
          omega
        have hbase := hkeep []
        rw [append_nil, take_append_of_le_length hls] at hbase
        rw [step, merge_concat]
        exact ⟨hroot, by rw [take_append_of_le_length hls]; exact hbase⟩
    | mergeAll =>
      have hzero := (merges_spec ⟨root, ls ++ [top]⟩ (depth ⟨root, ls ++ [top]⟩)).2
      rw [Nat.sub_self] at hzero
      rw [step, mergeAll, hzero] at hop
      exact absurd hop (Nat.not_lt_zero _)

theorem above_advance : Above b b.advance := by
  refine ⟨?_, rfl, ?_⟩
  · simp [depth, advance]
  · simp [depth, advance]

/-- What is left when the layer that was put over `base` is on top and is revoked. -/
theorem revoke_of_above {base s : OrderedSnapshot} (h : Above base s)
    (hdepth : s.depth = base.depth + 1) : s.revoke = base := by
  obtain ⟨-, hroot, htake⟩ := h
  rw [depth] at hdepth
  rw [revoke, dropLast_eq_take, hdepth, Nat.add_sub_cancel, htake, hroot]

open History (after Each)

/-- **The backend refines a stack of maps.**  After every run the levels are the stack that the same calls make, all
reads are those of the map on top, which is the root with the layers over it, `merge` and `mergeAll` change no read,
and a layer that stays until it is revoked leaves none of its writes. -/
theorem refines (root : Store) (ops : List Op) :
    let b := after step ⟨root, []⟩ ops
    b.levels = after Stack.step [root] ops ∧ b.levels.head? = some b.flatten ∧
    b.reads = b.flatten.reads ∧ b.merge.reads = b.reads ∧ b.mergeAll.reads = b.reads ∧
    ∀ more, Each step b.advance (fun s op => b.depth < (step s op).depth) more →
      (after step b.advance more).depth = b.depth + 1 →
      (after step b.advance more).revoke.reads = b.reads := by
  intro b
  refine ⟨?_, ?_, b.reads_eq, ?_, ?_, fun more hmore hdepth => ?_⟩
  · show (after step ⟨root, []⟩ ops).levels = _
    induction ops using List.reverseRecOn with
    | nil => rfl
    | append_singleton ops op ih =>
      rw [History.after_concat, History.after_concat, levels_step, ih]
  · obtain ⟨ms, hms⟩ := b.levels_eq_cons
    rw [hms, List.head?_cons]
  · rw [reads_eq, reads_eq, flatten_merge]
  · rw [reads_eq, reads_eq, mergeAll, (b.merges_spec b.depth).1]
  · have habove : Above b (after step b.advance more) :=
      History.invariant_each b.above_advance (fun _ _ => above_step) hmore
    rw [revoke_of_above habove hdepth]

namespace Sample

/-- A root with one entry, and a write to it. -/
def opened : OrderedSnapshot := after step ⟨(∅ : Store).insert [1] [1], []⟩ [.put [2] [2]]

/-- Calls under a fresh layer, one of them a layer that is merged into it. -/
def under : List Op :=
  [.put [1] [9], .advance, .delete [2], .merge, .writeBatch [⟨[3], some [3]⟩, ⟨[1], none⟩]]

end Sample

open Sample in
theorem refines_under : opened.scanAll = [([1], [1]), ([2], [2])] ∧
    (after step opened.advance under).scanAll = [([3], [3])] ∧
    (after step opened.advance under).revoke.reads = opened.reads := by
  refine ⟨by decide +kernel, by decide +kernel, ?_⟩
  have hunder : Each step opened.advance (fun s op => opened.depth < (step s op).depth) under :=
    .cons (by decide +kernel) (.cons (by decide +kernel) (.cons (by decide +kernel)
      (.cons (by decide +kernel) (.cons (by decide +kernel) (History.each_nil _)))))
  exact (refines _ [.put [2] [2]]).2.2.2.2.2 under hunder (by decide +kernel)

/-- A write that is merged after `advance` is not taken back by `revoke`. -/
theorem merged_write_stays : (after step (advance ⟨∅, []⟩) [.put [1] [2], .merge]).revoke.reads ≠ reads ⟨∅, []⟩ := by
  intro h
  have hget := congrFun (congrArg Reads.get h) [1]
  exact absurd hget (by decide +kernel)

/-- With the root taken as a function this is the backend that a fork switch works on. -/
theorem toBackend_calls :
    b.advance.toBackend = b.toBackend.advance ∧ b.revoke.toBackend = b.toBackend.revoke ∧
      (b.write w).toBackend = b.toBackend.write w ∧ b.merge.toBackend = b.toBackend.merge ∧
      b.get = b.toBackend.get := by
  obtain ⟨root, layers⟩ := b
  refine ⟨rfl, rfl, ?_, ?_, rfl⟩
  · rcases eq_nil_or_concat layers with rfl | ⟨ls, top, rfl⟩
    · show (⟨(root.write w).contents, []⟩ : SnapshotKvBackend) = ⟨root.contents.write w, []⟩
      rw [Store.contents_write]
    · rw [concat_eq_append, write_concat]
      simp [toBackend, SnapshotKvBackend.write]
  · rcases eq_nil_or_concat layers with rfl | ⟨ls, top, rfl⟩
    · rfl
    · rw [concat_eq_append]
      rcases eq_nil_or_concat ls with rfl | ⟨ls, below, rfl⟩
      · rw [nil_append, merge_bottom, overlay_eq_writeAll]
        show (⟨(root.writeAll (layerOps top)).contents, []⟩ : SnapshotKvBackend) =
          ⟨applyAll (layerOps top) root.contents, []⟩
        rw [Store.contents_writeAll]
      · rw [concat_eq_append, merge_concat]
        simp [toBackend, SnapshotKvBackend.merge]

end OrderedSnapshot

end TronGoblin
