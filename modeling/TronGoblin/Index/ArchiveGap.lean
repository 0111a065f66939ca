import TronGoblin.Index.ArchiveTracks

/-!
# Gap repair

Blocks that were applied without the archive seeing them are reconstructed from the block-undo log:
the value that a block wrote is the value before the next write of the key, and after the last one the
next block's pre-image or the live value.

* `Gap`: the unseen blocks, and the chain they make.
* `writeHeights`: where a key was written; `rows_of_writes`: the rows made from the values before.
* `Gap.placing`: the rows of a repair are those of the changes.
* `Tracks.repair`: a repair keeps the archive on the chain.
-/

namespace TronGoblin.Archive

open List

/-- Blocks applied one after the other from the height `n` on. -/
def Chained (hist : Nat → State) (n : Nat) (gap : List WriteSet) : Prop :=
  ∀ i ws, gap[i]? = some ws → hist (n + i + 1) = ws.applyTo (hist (n + i))

def WriteSet.undoRecord (ws : WriteSet) (state : State) : List UndoEntry :=
  ws.writes.map fun w => ⟨w.key, state w.key⟩

/-- The undo log of the blocks from the height `n + 1` on. -/
def undoLog (hist : Nat → State) (n : Nat) (gap : List WriteSet) (g : Nat) : Option (List UndoEntry) :=
  gap[g - (n + 1)]?.map fun ws => ws.undoRecord (hist (g - 1))

def writtenAt (n : Nat) (gap : List WriteSet) (k : StoreKey) (g : Nat) : Bool :=
  gap[g - (n + 1)]?.any fun ws => ws.writes.any (·.key = k)

def writeHeights (n : Nat) (gap : List WriteSet) (k : StoreKey) : List Nat :=
  (heights (n + 1) (n + gap.length)).filter (writtenAt n gap k)

section Lists

theorem constant_between {v : Nat → Option Bytes} {g t : Nat} (hgt : g ≤ t)
    (h : ∀ x, g < x → x ≤ t → v x = v (x - 1)) : v t = v g := by
  induction t, hgt using Nat.le_induction with
  | base => rfl
  | succ t hgt ih =>
    rw [h (t + 1) (by omega) le_rfl, Nat.add_sub_cancel]
    exact ih fun x hgx hxt => h x hgx (Nat.le_succ_of_le hxt)

/-- Every write is followed by the value before the next one. -/
theorem rows_of_writes (k : StoreKey) {v : Nat → Option Bytes} {top : Nat} {hs : List Nat}
    (hsorted : hs.Pairwise (· < ·)) (htop : ∀ g ∈ hs, g ≤ top)
    (hsteady : ∀ x, x ≤ top → (∃ g ∈ hs, g < x) → x ∉ hs → v x = v (x - 1)) :
    List.zipWith (fun w post => (w.1, put (rowKey k w.1) (encValue post))) (hs.map fun g => (g, v (g - 1)))
      (((hs.map fun g => (g, v (g - 1))).tail.map (·.2)) ++ [v top]) =
      hs.map fun g => (g, put (rowKey k g) (encValue (v g))) := by
  induction hs with
  | nil => rfl
  | cons g hs ih =>
    obtain ⟨hfirst, hrest⟩ := pairwise_cons.1 hsorted
    cases hs with
    | nil =>
      have hlast : v top = v g := by
        refine constant_between (htop g mem_cons_self) fun x hgx hxt => ?_
        exact hsteady x hxt ⟨g, mem_cons_self, hgx⟩ (by simp; omega)
      simp [hlast]
    | cons g' hs =>
      have hgg : g < g' := hfirst g' mem_cons_self
      have hg'top := htop g' (by simp)
      have hnext : v (g' - 1) = v g := by
        refine constant_between (by omega) fun x hgx hxg => hsteady x (by omega) ⟨g, mem_cons_self, hgx⟩ ?_
        intro hx
        rcases mem_cons.1 hx with rfl | hx
        · omega
        · rcases mem_cons.1 hx with rfl | hx
          · omega
          · have := (pairwise_cons.1 hrest).1 x hx
            omega
      have htail := ih hrest (fun x hx => htop x (mem_cons_of_mem _ hx)) fun x hxt hex hx => by
        obtain ⟨y, hy, hyx⟩ := hex
        refine hsteady x hxt ⟨y, mem_cons_of_mem _ hy, hyx⟩ fun hmem => ?_
        rcases mem_cons.1 hmem with rfl | hmem
        · have := hfirst y hy
          omega
        · exact hx hmem
      simp only [map_cons, tail_cons, cons_append, zipWith_cons_cons, hnext] at htail ⊢
      rw [htail]

theorem flatMap_ite_singleton {α β : Type} (l : List α) (p : α → Bool) (f : α → β) :
    (l.flatMap fun a => if p a then [f a] else []) = (l.filter p).map f := by
  induction l with
  | nil => rfl
  | cons a l ih =>
    rw [flatMap_cons, ih, filter_cons]
    split <;> rfl

end Lists

/-- What a record says about one key. -/
theorem undoRecord_filter (ws : WriteSet) (state : State) (k : StoreKey) (g : Nat) :
    ((ws.undoRecord state).filter (·.key = k)).map (fun e => (g, e.before)) =
      if ws.writes.any (·.key = k) then [(g, state k)] else [] := by
  have hgen : ∀ writes : List (Kv.Write StoreKey Bytes), (writes.map (·.key)).Nodup →
      ((writes.map fun w => (⟨w.key, state w.key⟩ : UndoEntry)).filter (·.key = k)).map (fun e => (g, e.before)) =
        if writes.any (·.key = k) then [(g, state k)] else [] := by
    intro writes hnodup
    induction writes with
    | nil => rfl
    | cons w writes ih =>
      rw [map_cons, nodup_cons] at hnodup
      by_cases hw : w.key = k
      · have hnone : ∀ u ∈ writes, ¬ u.key = k := fun u hu hk =>
          hnodup.1 (mem_map.2 ⟨u, hu, hk.trans hw.symm⟩)
        have hany : writes.any (·.key = k) = false := by
          rw [any_eq_false]
          exact fun u hu => by simpa using hnone u hu
        have hrest := ih hnodup.2
        simp [hw, hany] at hrest ⊢
        simpa using hrest
      · simpa [hw] using ih hnodup.2
  exact hgen ws.writes ws.distinct

section Gap

variable {hist : Nat → State} {n : Nat} {gap : List WriteSet}

def gapRecords (hist : Nat → State) (n : Nat) (gap : List WriteSet) : List (Nat × List UndoEntry) :=
  (heights (n + 1) (n + gap.length)).map fun g => (g, (undoLog hist n gap g).getD [])

variable {g : Nat}

theorem exists_block (h : g ∈ heights (n + 1) (n + gap.length)) : ∃ ws, gap[g - (n + 1)]? = some ws ∧ ws ∈ gap := by
  obtain ⟨hlow, hhigh⟩ := mem_heights.1 h
  have hlt : g - (n + 1) < gap.length := by omega
  exact ⟨gap[g - (n + 1)], List.getElem?_eq_getElem hlt, getElem_mem hlt⟩

theorem writesOf_gap (hist : Nat → State) (n : Nat) (gap : List WriteSet) (k : StoreKey) :
    writesOf (gapRecords hist n gap) k = (writeHeights n gap k).map fun g => (g, hist (g - 1) k) := by
  rw [writesOf, gapRecords, flatMap_map, writeHeights, ← flatMap_ite_singleton]
  refine flatMap_congr fun g hg => ?_
  obtain ⟨ws, hws, -⟩ := exists_block hg
  simp only [undoLog, writtenAt, hws, Option.map_some, Option.getD_some, Option.any_some]
  exact undoRecord_filter ws _ k g

variable {k : StoreKey}

theorem mem_gapKeys : k ∈ gapKeys (gapRecords hist n gap) ↔ writeHeights n gap k ≠ [] := by
  rw [gapKeys, mem_insertionSort, mem_dedup, gapRecords, writeHeights, ne_eq, filter_eq_nil_iff, not_forall]
  simp only [mem_map, mem_flatMap]
  constructor
  · rintro ⟨e, ⟨r, ⟨g, hg, rfl⟩, he⟩, rfl⟩
    refine ⟨g, fun hnot => hnot hg ?_⟩
    obtain ⟨ws, hws, -⟩ := exists_block hg
    simp only [undoLog, hws, Option.map_some, Option.getD_some, WriteSet.undoRecord, mem_map] at he
    obtain ⟨w, hw, rfl⟩ := he
    simp only [writtenAt, hws, Option.any_some, any_eq_true]
    exact ⟨w, hw, by simp⟩
  · rintro ⟨g, hg⟩
    rw [Classical.not_imp, not_not] at hg
    obtain ⟨hg, hw⟩ := hg
    obtain ⟨ws, hws, -⟩ := exists_block hg
    simp only [writtenAt, hws, Option.any_some, any_eq_true] at hw
    obtain ⟨w, hw, hk⟩ := hw
    refine ⟨⟨k, hist (g - 1) k⟩, ⟨_, ⟨g, hg, rfl⟩, ?_⟩, rfl⟩
    simp only [undoLog, hws, Option.map_some, Option.getD_some, WriteSet.undoRecord, mem_map]
    exact ⟨w, hw, by simp [of_decide_eq_true hk]⟩

theorem gapKeys_nodup (records : List (Nat × List UndoEntry)) : (gapKeys records).Nodup :=
  (perm_insertionSort _ _).nodup_iff.2 (nodup_dedup _)

theorem Chained.steady (h : Chained hist n gap) (hlow : n < g) (hhigh : g ≤ n + gap.length)
    (hk : g ∉ writeHeights n gap k) : hist g k = hist (g - 1) k := by
  have hg : g ∈ heights (n + 1) (n + gap.length) := mem_heights.2 ⟨hlow, hhigh⟩
  obtain ⟨ws, hws, -⟩ := exists_block hg
  have hnot : ∀ w ∈ ws.writes, w.key ≠ k := by
    intro w hw hkey
    refine hk (mem_filter.2 ⟨hg, ?_⟩)
    simp only [writtenAt, hws, Option.any_some, any_eq_true]
    exact ⟨w, hw, by simpa using hkey⟩
  have hstep := h (g - (n + 1)) ws hws
  rw [show n + (g - (n + 1)) + 1 = g by omega, show n + (g - (n + 1)) = g - 1 by omega] at hstep
  rw [hstep, WriteSet.applyTo_of_not_mem hnot]

theorem writeHeights_sorted (n : Nat) (gap : List WriteSet) (k : StoreKey) : (writeHeights n gap k).Pairwise (· < ·) :=
  (pairwise_lt_range').filter _

theorem mem_writeHeights (h : g ∈ writeHeights n gap k) : n < g ∧ g ≤ n + gap.length := by
  obtain ⟨hlow, hhigh⟩ := mem_heights.1 (mem_of_mem_filter h)
  exact ⟨hlow, hhigh⟩

/-- The rows of one key: its values at the heights of its writes, and its value before the first one. -/
def gapRows (s : Store) (b : Nat) (hist : Nat → State) (n : Nat) (gap : List WriteSet) (k : StoreKey) : List Placed :=
  ((writeHeights n gap k).map fun g => (g, put (rowKey k g) (encValue (hist g k)))) ++
    (writeHeights n gap k).head?.elim [] fun g => pinAt s b k g (hist (g - 1) k)

variable {s : Store} {next : List DeltaRef} {src : Sources} {b : Nat}

theorem placeKey_gap (h : Chained hist n gap) (hfinal : finalValue src next k = .ok (hist (n + gap.length) k)) :
    placeKey src s b (gapRecords hist n gap) next k = .ok (gapRows s b hist n gap k) := by
  have hrows := rows_of_writes k (v := fun g => hist g k) (writeHeights_sorted n gap k)
    (fun g hg => (mem_writeHeights hg).2) fun x hxt hex hx => by
      obtain ⟨g, hg, hgx⟩ := hex
      exact h.steady ((mem_writeHeights hg).1.trans hgx) hxt hx
  rw [placeKey, hfinal, writesOf_gap]
  show Except.ok _ = _
  rw [hrows, gapRows]
  cases writeHeights n gap k <;> rfl

def gapPlaced (s : Store) (b : Nat) (hist : Nat → State) (n : Nat) (gap : List WriteSet) : List Placed :=
  (gapKeys (gapRecords hist n gap)).flatMap (gapRows s b hist n gap)

theorem mem_gapRows {p : Placed} :
    p ∈ gapRows s b hist n gap k ↔ (∃ g ∈ writeHeights n gap k, p = (g, put (rowKey k g) (encValue (hist g k)))) ∨
        ∃ g, (writeHeights n gap k).head? = some g ∧ versions s k b = none ∧
          p = (g, put (rowKey k b) (encValue (hist (g - 1) k))) := by
  rw [gapRows, mem_append, mem_map]
  refine or_congr (exists_congr fun g => and_congr_right fun _ => eq_comm) ?_
  cases hhead : (writeHeights n gap k).head? with
  | none => simp
  | some g =>
    rw [Option.elim_some, pinAt, versions_eq_none]
    split
    · next habsent => simp [habsent]
    · next hrow => simp [hrow]

theorem mem_gapPlaced {p : Placed} : p ∈ gapPlaced s b hist n gap ↔ ∃ k, p ∈ gapRows s b hist n gap k := by
  rw [gapPlaced, mem_flatMap]
  constructor
  · rintro ⟨k, -, hp⟩
    exact ⟨k, hp⟩
  · rintro ⟨k, hp⟩
    refine ⟨k, mem_gapKeys.2 fun hnil => ?_, hp⟩
    rcases mem_gapRows.1 hp with ⟨g, hg, -⟩ | ⟨g, hg, -⟩ <;> simp [hnil] at hg

theorem head_le_of_mem {g g' : Nat} (hhead : (writeHeights n gap k).head? = some g) (hg' : g' ∈ writeHeights n gap k) :
    g ≤ g' := by
  have hsorted := writeHeights_sorted n gap k
  obtain ⟨rest, hrest⟩ := List.head?_eq_some_iff.1 hhead
  rw [hrest] at hsorted hg'
  rcases mem_cons.1 hg' with rfl | hg'
  · exact le_rfl
  · exact ((pairwise_cons.1 hsorted).1 g' hg').le

theorem Tracks.placing_gap {b solidified : Nat} (h : Tracks s b n solidified hist) (hchain : Chained hist n gap)
    (hn : n + gap.length ≤ maxI64) : Placing s b n (n + gap.length) hist (gapPlaced s b hist n gap) := by
  have hU := maxI64_lt_maxU64
  have hb := h.base_le
  -- the key of a row is the key it was made for
  have howner : ∀ p k l r, p ∈ gapRows s b hist n gap l → p.2.key = rowKey k r → l = k := by
    intro p k l r hp hkey
    rcases mem_gapRows.1 hp with ⟨g, hg, rfl⟩ | ⟨g, hg, -, rfl⟩
    · have hle := (mem_writeHeights hg).2
      exact (rowKey_inj hkey.symm (by omega)).1.symm
    · exact (rowKey_inj hkey.symm (by omega)).1.symm
  refine ⟨fun p hp => ?_, fun k g hng hgn hne => ?_, fun p hp k r hkey => ?_, fun p hp k hkey q hq r hqkey => ?_⟩
  · obtain ⟨k, hp⟩ := mem_gapPlaced.1 hp
    rcases mem_gapRows.1 hp with ⟨g, hg, rfl⟩ | ⟨g, hhead, habsent, rfl⟩
    · obtain ⟨hlow, hhigh⟩ := mem_writeHeights hg
      exact ⟨k, g, rfl, hlow, hhigh, .inl rfl⟩
    · obtain ⟨hlow, hhigh⟩ := mem_writeHeights (mem_of_head? hhead)
      refine ⟨k, b, ?_, hlow, hhigh, .inr ⟨rfl, habsent⟩⟩
      -- nothing was written before the first write
      have hsame : hist (g - 1) k = hist n k := by
        refine constant_between (v := fun x => hist x k) (by omega) fun x hnx hxg => ?_
        refine hchain.steady hnx (by omega) fun hx => ?_
        have hle := head_le_of_mem hhead hx
        omega
      rw [hsame, h.unchanged habsent hb le_rfl]
  · have hk : g + 1 ∈ writeHeights n gap k := by
      by_contra hnot
      exact hne (hchain.steady (by omega) hgn hnot)
    exact ⟨_, mem_gapPlaced.2 ⟨k, mem_gapRows.2 (.inl ⟨g + 1, hk, rfl⟩)⟩, rfl⟩
  · obtain ⟨l, hp⟩ := mem_gapPlaced.1 hp
    obtain rfl := howner p k l r hp hkey
    obtain ⟨g, hhead⟩ : ∃ g, (writeHeights n gap l).head? = some g := by
      cases hhead : (writeHeights n gap l).head? with
      | some g => exact ⟨g, rfl⟩
      | none =>
        rw [List.head?_eq_none_iff] at hhead
        rcases mem_gapRows.1 hp with ⟨g, hg, -⟩ | ⟨g, hg, -⟩ <;> simp [hhead] at hg
    by_cases hv : versions s l b = none
    · exact .inr ⟨_, mem_gapPlaced.2 ⟨l, mem_gapRows.2 (.inr ⟨g, hhead, hv, rfl⟩)⟩, rfl⟩
    · exact .inl hv
  · obtain ⟨l, hp⟩ := mem_gapPlaced.1 hp
    obtain ⟨l', hq⟩ := mem_gapPlaced.1 hq
    obtain rfl := howner p k l b hp hkey
    obtain rfl := howner q l l' r hq hqkey
    rcases mem_gapRows.1 hp with ⟨g, hg, rfl⟩ | ⟨g, hhead, -, rfl⟩
    · obtain ⟨hlow, hhigh⟩ := mem_writeHeights hg
      have heq := (rowKey_inj hkey.symm (by omega)).2
      omega
    · rcases mem_gapRows.1 hq with ⟨g', hg', rfl⟩ | ⟨g', -, -, rfl⟩
      · obtain ⟨-, hhigh⟩ := mem_writeHeights hg'
        rw [(rowKey_inj hqkey.symm (by omega)).2]
        exact .inr (head_le_of_mem hhead hg')
      · exact .inl (rowKey_inj hqkey.symm (by omega)).2

/-- A height is in the list of a key once for its row, and once for its pin. -/
theorem count_gapRows (s : Store) (b : Nat) (hist : Nat → State) (n : Nat) (gap : List WriteSet) (k : StoreKey)
    (g : Nat) : ((gapRows s b hist n gap k).filter (·.1 = g)).length ≤ if g ∈ writeHeights n gap k then 2 else 0 := by
  split
  · have hrows : (((writeHeights n gap k).map fun g => (g, put (rowKey k g) (encValue (hist g k)))).filter
        (·.1 = g)).length ≤ 1 := by
      have hnodup : (writeHeights n gap k).Nodup := (writeHeights_sorted n gap k).imp fun hlt => hlt.ne
      have hcount := nodup_iff_count_le_one.1 hnodup g
      rw [filter_map, length_map]
      rw [List.count, countP_eq_length_filter] at hcount
      refine le_trans (le_of_eq ?_) hcount
      congr 2
    have hpins : (((writeHeights n gap k).head?.elim [] fun g => pinAt s b k g (hist (g - 1) k)).filter
        (·.1 = g)).length ≤ 1 := by
      refine (length_filter_le _ _).trans ?_
      cases (writeHeights n gap k).head? with
      | none => simp
      | some g =>
        rw [Option.elim_some, pinAt]
        split <;> simp
    rw [gapRows, filter_append, length_append]
    exact Nat.add_le_add hrows hpins
  · next hnot =>
    rw [Nat.le_zero, length_eq_zero_iff, filter_eq_nil_iff]
    intro p hp hpg
    refine hnot ?_
    rw [← of_decide_eq_true hpg]
    rcases mem_gapRows.1 hp with ⟨g', hg', rfl⟩ | ⟨g', hhead, -, rfl⟩
    · exact hg'
    · exact mem_of_head? hhead

theorem length_ringOf_gap (s : Store) (b : Nat) (hshort : ∀ ws ∈ gap, ws.Short) :
    (ringOf (gapPlaced s b hist n gap) g).length < 2 ^ 32 := by
  have hsum : ∀ keys : List StoreKey,
      ((keys.flatMap (gapRows s b hist n gap)).filter (·.1 = g)).length ≤
        2 * (keys.filter fun k => g ∈ writeHeights n gap k).length := by
    intro keys
    induction keys with
    | nil => simp
    | cons k keys ih =>
      have hk := count_gapRows s b hist n gap k g
      rw [flatMap_cons, filter_append, length_append, filter_cons]
      split at hk
      · next hmem =>
        rw [if_pos (by simpa using hmem), length_cons]
        omega
      · next hmem =>
        rw [if_neg (by simpa using hmem)]
        omega
  rw [ringOf, length_map, gapPlaced]
  refine (hsum _).trans_lt ?_
  by_cases hg : g ∈ heights (n + 1) (n + gap.length)
  · -- the keys written at `g` are among those of its block
    obtain ⟨ws, hws, hmem⟩ := exists_block hg
    have hsub : (gapKeys (gapRecords hist n gap)).filter (fun k => g ∈ writeHeights n gap k) ⊆
        ws.writes.map (·.key) := by
      intro k hk
      have hwritten := (mem_filter.1 (of_decide_eq_true (mem_filter.1 hk).2)).2
      simp only [writtenAt, hws, Option.any_some, any_eq_true] at hwritten
      obtain ⟨w, hw, hkey⟩ := hwritten
      exact mem_map.2 ⟨w, hw, of_decide_eq_true hkey⟩
    have hle := (((gapKeys_nodup (gapRecords hist n gap)).filter _).subperm hsub).length_le
    have hcount := (hshort ws hmem).2
    rw [length_map] at hle
    omega
  · have hnil : (gapKeys (gapRecords hist n gap)).filter (fun k => g ∈ writeHeights n gap k) = [] := by
      rw [filter_eq_nil_iff]
      intro k _ hk
      exact hg (mem_of_mem_filter (of_decide_eq_true hk))
    rw [hnil]
    decide

theorem repairGap_eq (hchain : Chained hist n gap) (hundo : src.undo = some (undoLog hist n gap))
    (hbase : baseHeight s = some b) (hfinal : ∀ k, finalValue src next k = .ok (hist (n + gap.length) k)) :
    repairGap src s (n + 1) (n + gap.length) next =
      .ok (s.writeAll ((gapPlaced s b hist n gap).map (·.2) ++
        ((heights (n + 1) (n + gap.length)).filter fun g => ringOf (gapPlaced s b hist n gap) g ≠ []).map fun g =>
          put (metaKeysAt g) (encodeKeyList (ringOf (gapPlaced s b hist n gap) g)))) := by
  have hrecords {f : Nat → Except IndexError (Nat × List UndoEntry)}
      (hf : ∀ g record, undoLog hist n gap g = some record → f g = .ok (g, record)) :
      (heights (n + 1) (n + gap.length)).mapM f = .ok (gapRecords hist n gap) := by
    refine Checked.mapM_of_ok fun g hg => hf g _ ?_
    obtain ⟨ws, hws, -⟩ := exists_block hg
    simp [undoLog, hws, Option.map_some, Option.getD_some]
  have hplaced : (gapKeys (gapRecords hist n gap)).mapM (placeKey src s b (gapRecords hist n gap) next) =
      .ok ((gapKeys (gapRecords hist n gap)).map (gapRows s b hist n gap)) :=
    Checked.mapM_of_ok fun k _ => placeKey_gap hchain (hfinal k)
  rw [repairGap, hundo, hbase]
  change (mapM (m := Except IndexError) _ _ >>= _) = _
  rw [hrecords fun g record h => by rw [h]]
  show (do
    let lists ← (gapKeys (gapRecords hist n gap)).mapM (placeKey src s b (gapRecords hist n gap) next)
    _) = _
  rw [hplaced]
  rfl

theorem Tracks.repair {b solidified : Nat} (h : Tracks s b n solidified hist) (hchain : Chained hist n gap)
    (hn : n + gap.length ≤ maxI64) (hshort : ∀ ws ∈ gap, ws.Short) (hundo : src.undo = some (undoLog hist n gap))
    (hfinal : ∀ k, finalValue src next k = .ok (hist (n + gap.length) k)) :
    ∃ s', repairGap src s (n + 1) (n + gap.length) next = .ok s' ∧ Tracks s' b (n + gap.length) solidified hist := by
  refine ⟨_, repairGap_eq hchain hundo h.baseAt hfinal, ?_⟩
  have hU := maxI64_lt_maxU64
  have hplacing := h.placing_gap hchain hn
  have hmeta : ∀ op ∈ ((heights (n + 1) (n + gap.length)).filter fun g =>
      ringOf (gapPlaced s b hist n gap) g ≠ []).map fun g =>
        put (metaKeysAt g) (encodeKeyList (ringOf (gapPlaced s b hist n gap) g)),
      ∃ g, n < g ∧ g ≤ n + gap.length ∧
        op = put (metaKeysAt g) (encodeKeyList (ringOf (gapPlaced s b hist n gap) g)) := by
    intro op hop
    obtain ⟨g, hg, rfl⟩ := mem_map.1 hop
    obtain ⟨hlow, hhigh⟩ := mem_heights.1 (mem_of_mem_filter hg)
    exact ⟨g, hlow, hhigh, rfl⟩
  refine h.place hplacing (Nat.le_add_right _ _) hn ?_ ?_ ?_ (fun g bytes hg hbytes => ?_) (fun p hp => ?_)
    fun g => length_ringOf_gap s b hshort
  · rw [Store.writeAll_append]
    refine versions_writeAll_of_tag fun op hop => ?_
    obtain ⟨g, -, -, rfl⟩ := hmeta op hop
    rfl
  · refine getI64_congr (Store.contents_writeAll_of_not_mem fun op hop hkey => ?_)
    rcases mem_append.1 hop with hop | hop
    · exact tag_ne (hplacing.tag hop) (head?_metaKey _) hkey
    · obtain ⟨g, -, -, rfl⟩ := hmeta op hop
      exact metaKeysAt_ne g (by decide) hkey
  · refine h.shaped.writeAll fun op hop _ => ?_
    rcases mem_append.1 hop with hop | hop
    · obtain ⟨p, hp, rfl⟩ := mem_map.1 hop
      obtain ⟨k, r, hput, -, hhigh, hwhere⟩ := hplacing.entry p hp
      have hb := h.base_le
      refine .inr ⟨k, r, by rw [hput, put_key], ?_⟩
      rcases hwhere with rfl | ⟨rfl, -⟩ <;> omega
    · obtain ⟨g, -, -, rfl⟩ := hmeta op hop
      exact .inl rfl
  · rcases s.contents_writeAll_cases _ (metaKeysAt g) with ⟨op, hop, hkey, hc⟩ | ⟨-, hc⟩
    · rw [hc] at hbytes
      rcases mem_append.1 hop with hop | hop
      · exact absurd hkey (tag_ne (hplacing.tag hop) (head?_metaKey _))
      · obtain ⟨g', hlow, hhigh, rfl⟩ := hmeta op hop
        obtain rfl := metaKeysAt_inj (by omega) (by omega) hkey
        exact .inl ⟨hlow, hhigh, (Option.some.inj hbytes).symm⟩
    · exact .inr (hc ▸ hbytes)
  · obtain ⟨k, hp⟩ := mem_gapPlaced.1 hp
    have hk : ∀ g ∈ writeHeights n gap k, (rowKey k 0).length < 2 ^ 16 := by
      intro g hg
      obtain ⟨hg, hw⟩ := mem_filter.1 hg
      obtain ⟨ws, hws, hmem⟩ := exists_block hg
      simp only [writtenAt, hws, Option.any_some, any_eq_true] at hw
      obtain ⟨w, hw, hkey⟩ := hw
      rw [← of_decide_eq_true hkey]
      exact (hshort ws hmem).1 w hw
    rcases mem_gapRows.1 hp with ⟨g, hg, rfl⟩ | ⟨g, hhead, -, rfl⟩
    · rw [put_key, length_rowKey_eq k g 0]
      exact hk g hg
    · rw [put_key, length_rowKey_eq k b 0]
      exact hk g (mem_of_head? hhead)

end Gap

end TronGoblin.Archive
