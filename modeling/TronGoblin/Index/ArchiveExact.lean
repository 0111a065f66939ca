import TronGoblin.Index.ArchiveGap

/-!
# Historical reads are exact

* `World`, `step`: the chain and its archive: blocks with or without a captured write-set, gaps, reorgs
  above the solidified height, solidification, and retention passes.
* `World.Exact`: every read in the reported coverage returns the canonical value.
* `reads_exact`: every run keeps the reads exact, as long as the row keys that are recorded are shorter
  than 2^16 bytes.
* `LongKey`: a longer row key is written to the key list with a wrong length, and a reorg leaves its row.
-/

namespace TronGoblin.Archive

open List Function History BigEndian
open History (after Each)
open Versions (newest)

/-- The canonical chain and its archive. -/
structure World where
  head : Nat
  /-- The canonical state after each block. -/
  hist : Nat → State
  solidified : Nat
  archive : Store

open World

inductive Op
  /-- Blocks that the archive does not see, then one that it does. -/
  | apply (gap : List WriteSet) (block : WriteSet) (captured : Bool)
  /-- The block at `height` and all above it are replaced by another block. -/
  | reorg (height : Nat) (block : WriteSet) (captured : Bool)
  | solidify (height : Nat)
  | prune (head retain : Nat)

namespace World

/-- The chain after some more blocks. -/
def grow (hist : Nat → State) (n : Nat) : List WriteSet → Nat → State
  | [] => hist
  | ws :: gap => grow (update hist (n + 1) (ws.applyTo (hist n))) (n + 1) gap

/-- The chain `hist` with another block at `height`, and the archive after the call of the apply hook. -/
def capture (w : World) (hist : Nat → State) (gap : List WriteSet) (height : Nat) (block : WriteSet)
    (captured : Bool) : World :=
  let hist' := update hist height (block.applyTo (hist (height - 1)))
  let src : Sources := ⟨some (undoLog hist w.head gap), fun store => some fun key => hist' height ⟨store, key⟩⟩
  let deltas := if captured then some (block.deltas (hist (height - 1))) else none
  { w with
    head := height, hist := hist'
    archive :=
      match onBlockApplied src w.archive height deltas with
      | .ok s => s
      | .error _ => w.archive }

def step (w : World) : Op → World
  | .apply gap block captured =>
    w.capture (grow w.hist w.head gap) gap (w.head + gap.length + 1) block captured
  | .reorg height block captured => w.capture w.hist [] height block captured
  | .solidify height => { w with solidified := height }
  | .prune head retain => { w with archive := pruneForWindow w.archive head retain w.solidified }

/-- Heights stay below 2^63; reorgs stay above the solidified height, which does not go back. -/
def Allowed (w : World) : Op → Prop
  | .apply gap _ _ => w.head + gap.length + 1 ≤ maxI64
  | .reorg height _ _ => w.solidified < height ∧ height ≤ w.head
  | .solidify height => w.solidified ≤ height ∧ height ≤ w.head
  | .prune _ _ => True

/-- A historical read, through to the live store where the archive has no version. -/
def read (w : World) (k : StoreKey) (H : Nat) : Option Bytes :=
  ArchiveAtBackend.get ⟨fun key => w.hist w.head ⟨k.store, key⟩, w.archive, k.store, H⟩ k.key

def Exact (w : World) : Prop :=
  ∀ base top, coverage w.archive = some (base, top) → ∀ H, base ≤ H → H ≤ top → ∀ k, w.read k H = w.hist H k

end World

/-- The write-sets whose keys are recorded. -/
def Op.recorded : Op → List WriteSet
  | .apply gap block captured => gap ++ if captured then [block] else []
  | .reorg _ block captured => if captured then [block] else []
  | _ => []

/-- The archive follows the chain, or has not started. -/
structure Follows (w : World) : Prop where
  solidified_le : w.solidified ≤ w.head
  bound : w.head ≤ maxI64
  archive : w.archive = initial ∨ ∃ b, head w.archive = some w.head ∧ Tracks w.archive b w.head w.solidified w.hist

theorem Follows.exact {w : World} (h : Follows w) : w.Exact := by
  rintro base top hcov H hbase hH k
  rcases h.archive with hinit | ⟨b, hhead, htracks⟩
  · have hnone : coverage initial = none := by decide +kernel
    rw [hinit, hnone] at hcov
    cases hcov
  · rw [coverage, htracks.baseAt, hhead] at hcov
    cases hcov
    rw [World.read, get_eq_newest htracks.shaped_head h.bound (hH.trans h.bound)]
    exact (htracks.records k).serves H hbase hH

/-! ## Blocks -/

theorem grow_of_le (hist : Nat → State) (n : Nat) (gap : List WriteSet) {g : Nat} (hg : g ≤ n) :
    grow hist n gap g = hist g := by
  induction gap generalizing hist n with
  | nil => rfl
  | cons ws gap ih =>
    rw [grow, ih _ _ (Nat.le_succ_of_le hg), update_of_ne (by omega)]

theorem chained_grow (hist : Nat → State) (n : Nat) (gap : List WriteSet) : Chained (grow hist n gap) n gap := by
  induction gap generalizing hist n with
  | nil =>
    intro i ws hws
    cases hws
  | cons ws₀ gap ih =>
    intro i ws hws
    cases i with
    | zero =>
      obtain rfl := Option.some.inj hws
      simp only [grow, Nat.add_zero]
      rw [grow_of_le _ _ _ (Nat.le_refl _), grow_of_le _ _ _ (Nat.le_succ _), update_self, update_of_ne (by omega)]
    | succ i =>
      have hstep := ih (update hist (n + 1) (ws₀.applyTo (hist n))) (n + 1) i ws hws
      rw [show n + 1 + i = n + (i + 1) by omega] at hstep
      exact hstep

/-- Where the block of a call stands: after the unseen ones, or in place of an orphaned one. -/
def Placed.Next (w : World) (hist : Nat → State) (gap : List WriteSet) (height : Nat) : Prop :=
  height = w.head + gap.length + 1 ∧ Chained hist w.head gap ∧ (∀ g, g ≤ w.head → hist g = w.hist g) ∨
    gap = [] ∧ height ≤ w.head ∧ hist = w.hist

section Capture

variable {w : World} {hist : Nat → State} {gap : List WriteSet} {height : Nat} {block : WriteSet}

theorem initial_facts : head initial = none ∧ (∀ k r, versions initial k r = none) ∧
    (∀ g, initial.contents (metaKeysAt g) = none) ∧ Shaped initial maxI64 := by
  have hcontents : ∀ x, initial.contents x = if metaFormat = x then some formatVersion else none := by
    intro x
    rw [initial, Store.contents_write_apply]
    rfl
  refine ⟨by decide +kernel, fun k r => ?_, fun g => ?_, fun x v hx => ?_⟩
  · rfl
  · have hne : metaKeysAt g ≠ metaFormat := metaKeysAt_ne g (by decide)
    rw [hcontents, if_neg hne.symm]
  · rw [hcontents] at hx
    split at hx
    · next hkey => exact .inl (hkey ▸ rfl)
    · cases hx

theorem prepare_initial (src : Sources) (deltas : List DeltaRef) (hheight : height ≤ maxI64) (solidified : Nat)
    (hist : Nat → State) :
    ∃ s', prepare src initial height deltas = .ok s' ∧ Tracks s' (height - 1) (height - 1) solidified hist := by
  obtain ⟨hhead, hversions, hrings, hshaped⟩ := initial_facts
  refine ⟨_, by rw [prepare, hhead], tracks_start ?_ (by omega) ?_ (fun k r => ?_) fun g => ?_⟩
  · refine getI64_of_put (by omega) ?_
    simp only [Store.writeAll, foldl_cons, foldl_nil, Store.contents_write_apply, put]
    rw [if_neg (by decide), if_pos trivial]
  · refine hshaped.writeAll fun op hop _ => ?_
    simp only [mem_cons, not_mem_nil, or_false] at hop
    rcases hop with rfl | rfl <;> exact .inl rfl
  · rw [versions_writeAll_of_tag, hversions]
    intro op hop
    simp only [mem_cons, not_mem_nil, or_false] at hop
    rcases hop with rfl | rfl <;> rfl
  · rw [Store.contents_writeAll_of_not_mem fun op hop => ?_, hrings]
    simp only [mem_cons, not_mem_nil, or_false] at hop
    rcases hop with rfl | rfl <;> exact (metaKeysAt_ne g (by decide)).symm

theorem finalValue_eq (undo : Option (Nat → Option (List UndoEntry))) (state : State) (block : WriteSet)
    (k : StoreKey) :
    finalValue ⟨undo, fun store => some fun key => block.applyTo state ⟨store, key⟩⟩ (block.deltas state) k =
      .ok (state k) := by
  rw [finalValue]
  cases hfind : (block.deltas state).find? (·.key = k) with
  | some d =>
    obtain ⟨w, -, rfl⟩ := mem_map.1 (mem_of_find?_eq_some hfind)
    have hkey : w.key = k := by simpa using List.find?_some hfind
    rw [← hkey]
  | none =>
    have hnot : ∀ w ∈ block.writes, w.key ≠ k := by
      intro w hw hkey
      have hd := List.find?_eq_none.1 hfind _ (mem_map_of_mem hw)
      exact hd (by simpa using hkey)
    exact congrArg Except.ok (WriteSet.applyTo_of_not_mem hnot state)

theorem prepare_spec (block : WriteSet) (h : Follows w) (hnext : Placed.Next w hist gap height) (hsol : w.solidified < height)
    (hheight : height ≤ maxI64) (hshort : ∀ ws ∈ gap, ws.Short) :
    ∃ s' b, prepare ⟨some (undoLog hist w.head gap), fun store => some fun key =>
        block.applyTo (hist (height - 1)) ⟨store, key⟩⟩ w.archive height
        (block.deltas (hist (height - 1))) = .ok s' ∧
      Tracks s' b (height - 1) w.solidified hist := by
  rcases h.archive with hinit | ⟨b, hhead, htracks⟩
  · rw [hinit]
    obtain ⟨s', hs', ht⟩ := prepare_initial _ (block.deltas (hist (height - 1))) hheight w.solidified hist
    exact ⟨s', height - 1, hs', ht⟩
  · rcases hnext with ⟨rfl, hchain, hagree⟩ | ⟨rfl, hle, rfl⟩
    · have htracks' := htracks.congr fun g _ hg => hagree g hg
      rw [prepare, hhead, Nat.add_sub_cancel]
      simp only [if_neg (show ¬ w.head + gap.length + 1 ≤ w.head by omega)]
      split
      · obtain ⟨s', hs', ht⟩ := htracks'.repair hchain (by omega) hshort rfl
          (finalValue_eq _ (hist (w.head + gap.length)) block)
        exact ⟨s', b, by rw [hs'], ht⟩
      · have hnil : gap.length = 0 := by omega
        refine ⟨w.archive, b, rfl, ?_⟩
        rw [hnil]
        exact htracks'
    · rw [prepare, hhead]
      simp only [if_pos hle]
      cases hunwind : unwindTo w.archive (height - 1) w.head with
      | ok s' => exact ⟨s', b, rfl, (htracks.unwind (by omega) (by omega) hunwind).1⟩
      | error e =>
        have hle' : height - 1 ≤ maxI64 := by omega
        exact ⟨_, height - 1, by simp only [resetCoverage_eq _ hle'], tracks_reset hle'⟩

theorem follows_capture (h : Follows w) (hnext : Placed.Next w hist gap height) (hsol : w.solidified < height)
    (hheight : height ≤ maxI64) {captured : Bool} (hshort : ∀ ws ∈ gap, ws.Short)
    (hblock : captured → block.Short) : Follows (w.capture hist gap height block captured) := by
  refine ⟨hsol.le, hheight, .inr ?_⟩
  cases captured with
  | false =>
    refine ⟨height, ?_⟩
    simp only [capture, Bool.false_eq_true, if_false, onBlockApplied, resetCoverage_eq _ hheight]
    exact ⟨head_reset hheight, tracks_reset hheight⟩
  | true =>
    obtain ⟨s', b, hprepare, htracks⟩ := prepare_spec block h hnext hsol hheight hshort
    obtain ⟨n, rfl⟩ : ∃ n, height = n + 1 := ⟨height - 1, by omega⟩
    rw [Nat.add_sub_cancel] at hprepare htracks
    have hupdate : ∀ g, g ≤ n → update hist (n + 1) (block.applyTo (hist n)) g = hist g := fun g hg =>
      update_of_ne (by omega) _ _
    have htracks' : Tracks s' b n w.solidified (update hist (n + 1) (block.applyTo (hist n))) :=
      htracks.congr fun g _ hg => hupdate g hg
    have hblockAt : update hist (n + 1) (block.applyTo (hist n)) (n + 1) =
        block.applyTo (update hist (n + 1) (block.applyTo (hist n)) n) := by
      rw [update_self, hupdate n le_rfl]
    have hcaptured := htracks'.capture ((head w.archive).getD n) hblockAt (hblock rfl) hheight
    rw [hupdate n le_rfl] at hcaptured
    have harchive : (w.capture hist gap (n + 1) block true).archive =
        captured s' b ((head w.archive).getD n) (n + 1) (block.deltas (hist n)) := by
      simp only [capture, Nat.add_sub_cancel, if_true, onBlockApplied, update_self, hprepare]
      show captured s' ((baseHeight s').getD n) _ _ _ = _
      rw [htracks.baseAt]
      rfl
    refine ⟨b, ?_, ?_⟩
    · rw [harchive]
      exact head_captured hheight _
    · rw [harchive]
      exact hcaptured

end Capture

/-! ## Runs -/

theorem follows_step {w : World} {op : Op} (h : Follows w) (hallowed : w.Allowed op)
    (hshort : ∀ ws ∈ op.recorded, ws.Short) : Follows (w.step op) := by
  cases op with
  | apply gap block captured =>
    have hle := h.solidified_le
    refine follows_capture h (.inl ⟨rfl, chained_grow _ _ _, fun g hg => grow_of_le _ _ _ hg⟩) (by omega) hallowed
      (fun ws hws => hshort ws (mem_append_left _ hws)) fun hcaptured => hshort block ?_
    rw [Op.recorded, if_pos hcaptured]
    exact mem_append_right _ (mem_singleton_self _)
  | reorg height block captured =>
    refine follows_capture h (.inr ⟨rfl, hallowed.2, rfl⟩) hallowed.1 (hallowed.2.trans h.bound) (by simp)
      fun hcaptured => hshort block ?_
    rw [Op.recorded, if_pos hcaptured]
    exact mem_singleton_self _
  | solidify height =>
    refine ⟨hallowed.2, h.bound, h.archive.imp_right ?_⟩
    rintro ⟨b, hhead, htracks⟩
    exact ⟨b, hhead, htracks.solidify hallowed.1⟩
  | prune top retain =>
    have hle := h.solidified_le
    refine ⟨hle, h.bound, ?_⟩
    rcases h.archive with hinit | ⟨b, hhead, htracks⟩
    · refine .inl ?_
      rw [step, pruneForWindow, hinit, initial_facts.1]
    · refine .inr ?_
      rw [step, pruneForWindow, hhead]
      generalize hfloor : min (top - min retain maxI64) w.solidified = floor
      have hfs : floor ≤ w.solidified := hfloor ▸ Nat.min_le_right _ _
      rcases Nat.lt_or_ge b floor with hlt | hge
      · obtain ⟨hpruned, hsame⟩ := htracks.prune hlt (hfs.trans hle) hfs
        exact ⟨floor, hsame.trans hhead, hpruned⟩
      · exact ⟨b, by rwa [pruneBelow_noop htracks.baseAt hge], by rwa [pruneBelow_noop htracks.baseAt hge]⟩

/-- **In every run that records short row keys, every historical read is exact.** -/
theorem reads_exact {w₀ : World} (hstart : w₀.archive = initial) (hsolidified : w₀.solidified ≤ w₀.head)
    (hbound : w₀.head ≤ maxI64) {ops : List Op}
    (hops : Each step w₀ (fun w op => w.Allowed op ∧ ∀ ws ∈ op.recorded, ws.Short) ops) :
    (after step w₀ ops).Exact := by
  have hfollows : Follows (after step w₀ ops) :=
    invariant_each ⟨hsolidified, hbound, .inl hstart⟩
      (fun w op h hop => follows_step h hop.1 hop.2) hops
  exact hfollows.exact

def genesis : World := ⟨0, fun _ _ => none, 0, initial⟩

namespace ShortKeys

def key : StoreKey := ⟨.accounts, [0x41]⟩

def writing (v : UInt8) : WriteSet := ⟨[⟨key, some [v]⟩], nodup_singleton _⟩

theorem short_writing (v : UInt8) : (writing v).Short := by
  have hkey : (rowKey key 0).length < 2 ^ 16 := by decide
  have hcount : 1 < 2 ^ 31 := by decide
  refine ⟨fun w hw => ?_, hcount⟩
  obtain rfl := mem_singleton.1 hw
  exact hkey

/-- A block, a gap and a block, a reorg of the last height, and a pass. -/
def ops : List Op :=
  [.apply [] (writing 1) true, .apply [writing 2] (writing 3) true, .reorg 3 (writing 4) true, .solidify 2, .prune 3 1]

theorem each_ops : Each step genesis (fun w op => w.Allowed op ∧ ∀ ws ∈ op.recorded, ws.Short) ops := by
  have hone : ∀ v, ∀ ws ∈ [writing v], ws.Short := fun v ws hws => mem_singleton.1 hws ▸ short_writing v
  have hbound : 3 ≤ maxI64 := by decide
  refine Each.cons ⟨le_trans (by decide) hbound, hone 1⟩ (Each.cons ⟨hbound, fun ws hws => ?_⟩
    (Each.cons ⟨⟨by decide, le_rfl⟩, hone 4⟩ (Each.cons ⟨⟨by decide, by decide⟩, by simp [Op.recorded]⟩
      (Each.cons ⟨trivial, by simp [Op.recorded]⟩ (each_nil _)))))
  rcases mem_append.1 hws with hws | hws
  · exact hone 2 ws hws
  · exact hone 3 ws hws

theorem reads_exact_short : Each step genesis (fun w op => w.Allowed op ∧ ∀ ws ∈ op.recorded, ws.Short) ops ∧
    (after step genesis ops).Exact :=
  ⟨each_ops, reads_exact rfl le_rfl (by decide) each_ops⟩

end ShortKeys

/-! ## A key that is too long -/

namespace LongKey

/-- A key list of two row keys of 2^16 bytes is read back as two short keys. -/
theorem decodeKeyList_long {a b rest : Bytes} (ha : a.length = 2 ^ 16) (hb : b.length = 2 ^ 16)
    (hfirst : a = 1 :: 0 :: rest) :
    ∃ keys, decodeKeyList (encodeKeyList [a, b]) = some keys ∧ ∀ key ∈ keys, key.length = 0 ∨ key.length = 256 := by
  subst hfirst
  have hzero : encode 2 (2 ^ 16) = [0, 0] := by decide
  have hcount : encode 4 2 = [0, 0, 0, 2] := by decide
  have henc : encodeKeyList [1 :: 0 :: rest, b] = [0, 0, 0, 2] ++ ([0, 0] ++ (1 :: 0 :: (rest ++ ([0, 0] ++ b)))) := by
    rw [encodeKeyList, flatMap_cons, flatMap_cons, flatMap_nil, ha, hb, hzero]
    simp only [length_cons, length_nil, hcount]
    simp
  have hrest : 256 ≤ (rest ++ ([0, 0] ++ b)).length := by
    rw [length_append, length_append, hb]
    simp
  refine ⟨[[], (rest ++ ([0, 0] ++ b)).take 256], ?_, ?_⟩
  · have htwo : decode [0, 0, 0, 2] = 2 := by decide
    have hlong : decode [1, 0] = 256 := by decide
    have hnone : decode [0, 0] = 0 := by decide
    rw [henc, decodeKeyList]
    simp only [cons_append, nil_append, length_cons, take_succ_cons, take_zero,
      drop_succ_cons, drop_zero, htwo, decodeKeys, hnone, hlong, Nat.not_lt_zero, if_false]
    have hlen : 256 ≤ (rest ++ 0 :: 0 :: b).length := hrest
    rw [if_neg (by omega), if_neg (by omega), if_neg (by omega), if_neg (by omega)]
    rfl
  · simp only [mem_cons, not_mem_nil, or_false]
    rintro key (rfl | rfl)
    · exact .inl rfl
    · rw [length_take]
      omega

/-- A key whose rows have keys of exactly 2^16 bytes. -/
def key : StoreKey := ⟨.accounts, List.replicate 65524 1⟩

theorem length_flatMap_ones (n : Nat) : ((List.replicate n (1 : UInt8)).flatMap escapeByte).length = n := by
  induction n with
  | zero => rfl
  | succ n ih =>
    rw [replicate_succ, flatMap_cons, length_append, ih, show (escapeByte 1).length = 1 from rfl]
    omega

theorem length_rowKey_ones (n g : Nat) : (rowKey ⟨.accounts, List.replicate n 1⟩ g).length = n + 12 := by
  rw [length_rowKey, groupKey, length_cons, length_cons, escapeKey, length_append, length_flatMap_ones]
  rfl

theorem length_rowKey_key (g : Nat) : (rowKey key g).length = 2 ^ 16 := length_rowKey_ones 65524 g

theorem rowKey_key_eq (g : Nat) : ∃ rest, rowKey key g = 1 :: 0 :: rest :=
  ⟨escapeKey key.key ++ heightDesc g, rfl⟩

def writingTo (k : StoreKey) : WriteSet := ⟨[⟨k, some [7]⟩], nodup_singleton _⟩

def writing : WriteSet := writingTo key

def idle : WriteSet := ⟨[], nodup_nil⟩

/-- A block writes the key, and is replaced by a block that does not. -/
def ops : List Op := [.apply [] writing true, .reorg 1 idle true]

/-- The archive before its first block is captured. -/
def started : Store := initial.writeAll [put metaBase (beBytes 0), put metaHead (beBytes 0)]

/-- The archive after the block that writes the key. -/
def written : Store := captured started 0 0 1 (writing.deltas fun _ => none)

theorem archive_written : (genesis.step (.apply [] writing true)).archive = written := by
  rfl

theorem ring_written : written.contents (metaKeysAt 1) = some (encodeKeyList [rowKey key 1, rowKey key 0]) := by
  have hone : 1 ≤ maxI64 := by decide
  rcases ring_captured hone hone with ⟨-, hc⟩ | ⟨hne, -⟩
  · exact hc
  · exact absurd rfl hne

theorem unwindTo_of_ring {s : Store} {raw : Bytes} {keys : List Bytes} (hring : s.contents (metaKeysAt 1) = some raw)
    (hdec : decodeKeyList raw = some keys) :
    unwindTo s 0 1 = .ok (s.writeAll (keys.map delete ++ [delete (metaKeysAt 1)] ++ [put metaHead (beBytes 0)])) := by
  have hlist : (heights 1 1).reverse = [1] := by decide
  rw [unwindTo, hlist, mapM_cons, mapM_nil, unwindRing, hring]
  simp only [hdec]
  simp [pure, Except.pure, bind, Except.bind]

theorem row_captured (s : Store) (k : StoreKey) :
    versions (captured s 0 0 1 ((writingTo k).deltas fun _ => none)) k 1 = some (some [7]) := by
  have hmem : (⟨k, some [7]⟩ : Kv.Write StoreKey Bytes) ∈ (writingTo k).writes := mem_singleton_self _
  exact (versions_capture s (fun _ => none) 0 (by decide) (by decide) hmem).1

/-- **The unwind succeeds, and leaves the row.** -/
theorem unwind_leaves_row : ∃ s', unwindTo written 0 1 = .ok s' ∧ Shaped s' 1 ∧ baseHeight s' = some 0 ∧
    versions s' key 1 = some (some [7]) := by
  obtain ⟨rest, hrest⟩ := rowKey_key_eq 1
  obtain ⟨keys, hdec, hshort⟩ := decodeKeyList_long (length_rowKey_key 1) (length_rowKey_key 0) hrest
  have hunwind := unwindTo_of_ring ring_written hdec
  have hkeep : ∀ x : Bytes, x.length ≠ 0 → x.length ≠ 256 → x ≠ metaKeysAt 1 → x ≠ metaHead →
      ∀ op ∈ keys.map delete ++ [delete (metaKeysAt 1)] ++ [put metaHead (beBytes 0)], op.key ≠ x := by
    intro x hzero hlong hring hhead op hop
    simp only [mem_append, mem_map, mem_cons, not_mem_nil, or_false] at hop
    rcases hop with (⟨k, hk, rfl⟩ | rfl) | rfl
    · rintro rfl
      rcases hshort _ hk with h | h
      · exact hzero h
      · exact hlong h
    · exact hring.symm
    · exact hhead.symm
  have hshaped : Shaped written 1 := by
    have hprepared : ∃ s', prepare ⟨none, fun _ => none⟩ initial 1 [] = .ok s' ∧ Tracks s' 0 0 0 fun _ _ => none :=
      prepare_initial _ _ (by decide) _ _
    obtain ⟨s', hs', htracks⟩ := hprepared
    obtain rfl := Except.ok.inj hs'
    exact htracks.shaped_head.captured (by decide) (by decide)
  refine ⟨_, hunwind, ?_, ?_, ?_⟩
  · refine hshaped.writeAll fun op hop hne => ?_
    simp only [mem_append, mem_map, mem_cons, not_mem_nil, or_false] at hop
    rcases hop with (⟨k, -, rfl⟩ | rfl) | rfl
    · exact absurd rfl hne
    · exact absurd rfl hne
    · exact .inl rfl
  · have hbase : baseHeight written = some 0 := by
      rw [written, baseHeight_captured]
      decide +kernel
    refine (getI64_congr (Store.contents_writeAll_of_not_mem ?_)).trans hbase
    exact hkeep metaBase (by decide) (by decide) (metaKeysAt_ne 1 (by decide)).symm (by decide)
  · rw [versions, Store.contents_writeAll_of_not_mem (hkeep _ (by rw [length_rowKey_key]; decide)
      (by rw [length_rowKey_key]; decide) (metaKey_ne_rowKey _ _ _).symm (metaKey_ne_rowKey _ _ _).symm)]
    exact row_captured started key

theorem archive_reorg {w : World} (hw : w.archive = written) {s' : Store} (hunwind : unwindTo written 0 1 = .ok s')
    (hbase : baseHeight s' = some 0) :
    (w.step (.reorg 1 idle true)).archive = captured s' 0 1 1 (idle.deltas fun _ => none) := by
  have hhead : head written = some 1 := head_captured (by decide) _
  have hprepare : ∀ src deltas, prepare src written 1 deltas = .ok s' := by
    intro src deltas
    rw [prepare, hhead]
    simp [hunwind]
  simp only [step, capture, hw, if_true, onBlockApplied, hprepare, hhead]
  show captured s' ((baseHeight s').getD _) _ _ _ = _
  rw [hbase]
  rfl

/-- **The orphaned row is read as history.** -/
theorem orphaned_row_is_read : Each step genesis (fun w op => w.Allowed op) ops ∧ ¬ (after step genesis ops).Exact := by
  constructor
  · refine Each.cons ?_ (Each.cons ?_ (each_nil _))
    · show 0 + 0 + 1 ≤ maxI64
      decide
    · exact ⟨Nat.zero_lt_one, le_rfl⟩
  · intro hexact
    obtain ⟨s', hunwind, hshaped, hbase, hrow⟩ := unwind_leaves_row
    have harchive : (after step genesis ops).archive = captured s' 0 1 1 (idle.deltas fun _ => none) :=
      archive_reorg archive_written hunwind hbase
    have hcov : coverage (after step genesis ops).archive = some (0, 1) := by
      rw [harchive, coverage, baseHeight_captured, hbase, head_captured (by decide)]
    have hfinal : Shaped (after step genesis ops).archive 1 := by
      rw [harchive]
      exact hshaped.captured (by decide) le_rfl
    have hread := hexact 0 1 hcov 1 (by decide) le_rfl key
    rw [World.read, get_eq_newest hfinal (by decide) (by decide), harchive,
      versions_capture_of_ne (by decide) (by decide) (by simp [idle]), Versions.newest_of_some hrow] at hread
    cases hread

end LongKey

end TronGoblin.Archive
