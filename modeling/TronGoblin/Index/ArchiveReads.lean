import TronGoblin.Index.Archive
import TronGoblin.Lib.Versions

/-!
# What the archive's store says about a key

* `versions`: the versions of one key, by height; `Shaped`: a store of version rows and meta rows.
* `get_eq_newest`: the historical read returns the newest version at or below the height, and the live
  value where there is none.
* `versions_writeAll_cases`, `versions_writeAll_of_tag`, `contents_writeAll_of_tag`: how a batch changes
  the versions, and that version rows and meta rows do not meet.
* `resetCoverage_eq`: what a coverage reset leaves.
-/

namespace TronGoblin

open List Store BigEndian

namespace Store

theorem writeAll_append (s : Store) (us ws : List WriteOp) :
    s.writeAll (us ++ ws) = (s.writeAll us).writeAll ws := foldl_append

theorem writeAll_singleton (s : Store) (w : WriteOp) : s.writeAll [w] = s.write w := rfl

theorem contents_writeAll_of_not_mem {s : Store} {ops : List WriteOp} {x : Bytes}
    (h : ∀ op ∈ ops, op.key ≠ x) : (s.writeAll ops).contents x = s.contents x := by
  rw [contents_writeAll, Kv.applyAll_of_not_mem h]

theorem contents_write_apply (s : Store) (op : WriteOp) (x : Bytes) :
    (s.write op).contents x = if op.key = x then op.value else s.contents x := by
  rw [contents_write, Kv.Map.write, Function.update_apply]
  simp [eq_comm]

/-- What a batch leaves under a key is what one of its writes put there, or what was there. -/
theorem contents_writeAll_cases (s : Store) (ops : List WriteOp) (x : Bytes) :
    (∃ op ∈ ops, op.key = x ∧ (s.writeAll ops).contents x = op.value) ∨
      (∀ op ∈ ops, op.key ≠ x) ∧ (s.writeAll ops).contents x = s.contents x := by
  rw [contents_writeAll, Kv.applyAll_apply]
  cases hlast : Kv.lastWrite ops x with
  | none => exact .inr ⟨Kv.lastWrite_eq_none.1 hlast, rfl⟩
  | some v =>
    obtain ⟨op, hop, hkey, hvalue⟩ := Kv.exists_mem_of_lastWrite hlast
    exact .inl ⟨op, hop, hkey, hvalue.symm⟩

end Store

namespace Archive

open Versions (newest)

/-! ## Versions of a key -/

def versions (s : Store) (k : StoreKey) (r : Nat) : Option (Option Bytes) :=
  (s.contents (rowKey k r)).map decoded

/-- Version rows up to the height `n`, and meta rows. -/
def Shaped (s : Store) (n : Nat) : Prop :=
  ∀ x v, s.contents x = some v → x.head? = some tagMeta ∨ ∃ k r, x = rowKey k r ∧ r ≤ n

variable {s : Store}

theorem versions_eq_none {k : StoreKey} {r : Nat} : versions s k r = none ↔ s.contents (rowKey k r) = none := by
  rw [versions, Option.map_eq_none_iff]

theorem versions_write (s : Store) (op : WriteOp) (k : StoreKey) (r : Nat) :
    versions (s.write op) k r = if op.key = rowKey k r then op.value.map decoded else versions s k r := by
  rw [versions, contents_write_apply]
  split <;> rfl

theorem versions_writeAll_cases (s : Store) (ops : List WriteOp) (k : StoreKey) (r : Nat) :
    (∃ op ∈ ops, op.key = rowKey k r ∧ versions (s.writeAll ops) k r = op.value.map decoded) ∨
      (∀ op ∈ ops, op.key ≠ rowKey k r) ∧ versions (s.writeAll ops) k r = versions s k r := by
  rcases s.contents_writeAll_cases ops (rowKey k r) with ⟨op, hop, hkey, hc⟩ | ⟨hnot, hc⟩
  · exact .inl ⟨op, hop, hkey, by rw [versions, hc]⟩
  · exact .inr ⟨hnot, by rw [versions, hc, versions]⟩

theorem Shaped.mono {m n : Nat} (h : Shaped s m) (hmn : m ≤ n) : Shaped s n := by
  intro x v hx
  rcases h x v hx with hmeta | ⟨k, r, hxr, hr⟩
  · exact .inl hmeta
  · exact .inr ⟨k, r, hxr, hr.trans hmn⟩

theorem Shaped.versions_eq_none {n r : Nat} (h : Shaped s n) (hr : n < r) (hrU : r < maxU64) (k : StoreKey) :
    versions s k r = none := by
  rw [Archive.versions_eq_none]
  cases hc : s.contents (rowKey k r) with
  | none => rfl
  | some v =>
    rcases h _ v hc with hmeta | ⟨l, r', hkey, hr'⟩
    · rw [head?_rowKey] at hmeta
      exact absurd hmeta (by decide)
    · have heq := (rowKey_inj hkey (by omega)).2
      omega

variable {ops : List WriteOp}

theorem Shaped.writeAll {n : Nat} (h : Shaped s n)
    (hops : ∀ op ∈ ops, op.value ≠ none → op.key.head? = some tagMeta ∨ ∃ k r, op.key = rowKey k r ∧ r ≤ n) :
    Shaped (s.writeAll ops) n := by
  intro x v hx
  rcases s.contents_writeAll_cases ops x with ⟨op, hop, rfl, hc⟩ | ⟨-, hc⟩
  · exact hops op hop (by rw [← hc, hx]; exact Option.some_ne_none v)
  · exact h x v (hc ▸ hx)

/-! ## Version rows and meta rows -/

theorem tag_ne {x y : Bytes} (hx : x.head? = some tagRow) (hy : y.head? = some tagMeta) : x ≠ y := by
  rintro rfl
  rw [hx] at hy
  exact absurd hy (by decide)

theorem versions_writeAll_of_tag (h : ∀ op ∈ ops, op.key.head? = some tagMeta) :
    versions (s.writeAll ops) = versions s := by
  funext k r
  rw [versions, contents_writeAll_of_not_mem fun op hop =>
    (tag_ne (head?_rowKey k r) (h op hop)).symm, versions]

variable {x : Bytes}

theorem contents_writeAll_of_tag (h : ∀ op ∈ ops, op.key.head? = some tagRow) (hx : x.head? = some tagMeta) :
    (s.writeAll ops).contents x = s.contents x :=
  contents_writeAll_of_not_mem fun op hop => tag_ne (h op hop) hx

/-! ## Heights -/

theorem getI64_of_put {key : Bytes} {height : Nat} (h : height ≤ maxI64)
    (hc : s.contents key = some (beBytes height)) : getI64 s key = some height := by
  have hlt : maxI64 < 256 ^ 8 := by decide
  rw [getI64, hc, Option.bind_some, beBytes, if_pos (length_encode _ _), decode_encode, Nat.mod_eq_of_lt (by omega)]

theorem getI64_congr {s s' : Store} {key : Bytes} (h : s'.contents key = s.contents key) :
    getI64 s' key = getI64 s key := by
  rw [getI64, getI64, h]

theorem maxI64_lt_maxU64 : maxI64 < maxU64 := by decide

theorem mem_heights {lo hi g : Nat} : g ∈ heights lo hi ↔ lo ≤ g ∧ g ≤ hi := by
  rw [heights, mem_range'_1]
  omega

theorem compare_meta_row (hx : x.head? = some tagMeta) (k : StoreKey) (r : Nat) : compare x (rowKey k r) = .lt := by
  cases x with
  | nil => cases hx
  | cons b x =>
    obtain rfl := Option.some.inj hx
    rfl

/-- **A historical read is the newest version, or else the live value.** -/
theorem get_eq_newest {n H : Nat} (hs : Shaped s n) (hn : n ≤ maxI64) (hH : H ≤ maxI64) (live : Contents)
    (k : StoreKey) :
    ArchiveAtBackend.get ⟨live, s, k.store, H⟩ k.key = (newest (versions s k) H).getD (live k.key) := by
  have hU := maxI64_lt_maxU64
  unfold ArchiveAtBackend.get
  cases hseek : s.entriesFrom (rowKey k H) with
  | nil =>
    have hnone : newest (versions s k) H = none := by
      refine Versions.newest_eq_none.2 fun r hr => versions_eq_none.2 ?_
      exact entriesFrom_nil hseek ((le_rowKey_iff k (by omega) (by omega)).2 hr)
    have hmissed : valueAt s k H = .notCovered := by
      rw [valueAt, scanFrom_eq, hseek]
      rfl
    rw [hmissed, hnone]
    rfl
  | cons e rest =>
    obtain ⟨key, v⟩ := e
    obtain ⟨hstored, hle, hgap⟩ := entriesFrom_cons hseek
    obtain ⟨l, r, rfl, hr⟩ : ∃ l r, key = rowKey l r ∧ r ≤ n := by
      rcases hs key v hstored with hmeta | hrow
      · rw [Std.OrientedCmp.gt_of_lt (compare_meta_row hmeta k H)] at hle
        cases hle
      · exact hrow
    by_cases hlk : l = k
    · subst hlk
      have hrH : r ≤ H := (le_rowKey_iff l (by omega) (by omega)).1 hle
      have hfound : valueAt s l H = decValue v := by
        rw [valueAt, scanFrom_eq, hseek]
        exact if_pos ⟨by rw [length_rowKey, length_rowKey], by
          rw [take_rowKey, length_rowKey, ← length_rowKey l r, take_rowKey]⟩
      have hnewest : newest (versions s l) H = some (decoded v) := by
        refine Versions.newest_of_last hrH (by rw [versions, hstored]; rfl) fun g hg hgH => ?_
        refine versions_eq_none.2 (hgap _ ?_ ?_)
        · exact (le_rowKey_iff l (by omega) (by omega)).2 hgH
        · exact (lt_rowKey_iff l (by omega) (by omega)).2 hg
      have hcovered : decValue v ≠ .notCovered := by
        rw [decValue.eq_def]
        split <;> simp
      rw [hfound, hnewest, Option.getD_some, decoded]
      cases hdec : decValue v with
      | notCovered => exact absurd hdec hcovered
      | deleted => rfl
      | value v => rfl
    · -- the first row from the seek key on belongs to another key, so no row of `k` follows
      have hmissed : valueAt s k H = .notCovered := by
        rw [valueAt, scanFrom_eq, hseek]
        refine if_neg fun hboth => hlk ?_
        have htake := hboth.2
        rw [take_rowKey, ← hboth.1, take_rowKey] at htake
        exact groupKey_injective htake
      have hnone : newest (versions s k) H = none := by
        refine Versions.newest_eq_none.2 fun g hg => versions_eq_none.2 ?_
        have hseekle : (compare (rowKey k H) (rowKey k g)).isLE :=
          (le_rowKey_iff k (by omega) (by omega)).2 hg
        cases hcmp : compare (rowKey k g) (rowKey l r) with
        | lt => exact hgap _ hseekle hcmp
        | eq => exact absurd (eq_of_between hle (by rw [Std.LawfulEqOrd.eq_of_compare hcmp, Std.ReflOrd.compare_self]; rfl)) hlk
        | gt => exact absurd (eq_of_between hle (by rw [Std.OrientedCmp.gt_iff_lt.1 hcmp]; rfl)) hlk
      rw [hmissed, hnone]
      rfl

/-! ## Coverage reset -/

theorem contents_deleted {keys : List Bytes} (h : x ∈ keys ∨ s.contents x = none) :
    (s.writeAll (keys.map delete)).contents x = none := by
  rcases s.contents_writeAll_cases (keys.map delete) x with ⟨op, hop, -, hc⟩ | ⟨hnot, hc⟩
  · obtain ⟨key, -, rfl⟩ := mem_map.1 hop
    exact hc
  · rcases h with hx | hx
    · exact absurd rfl (hnot (delete x) (mem_map_of_mem hx))
    · rw [hc, hx]

/-- What the wipe deletes in one chunk. -/
def wiped (rows : List (Bytes × Bytes)) : List Bytes := (rows.filter (·.1 ≠ metaWiping)).map (·.1)

theorem wipe_succ (fuel : Nat) (cur : Bytes) (s : Store) :
    wipe (fuel + 1) cur s =
      match ((s.entriesFrom cur).take wipeChunk).getLast? with
      | none => s
      | some last => wipe fuel (cursorAfter last.1)
          (s.writeAll ((wiped ((s.entriesFrom cur).take wipeChunk)).map delete)) := by
  rw [wipe]
  simp only [scanFrom_eq, wiped, map_map]
  rfl

theorem contents_wipe_of_none (h : s.contents x = none) (fuel : Nat) (cur : Bytes) :
    (wipe fuel cur s).contents x = none := by
  induction fuel generalizing cur s with
  | zero => exact h
  | succ fuel ih =>
    rw [wipe_succ]
    split
    · exact h
    · exact ih (contents_deleted (.inr h)) _

/-- A chunk, its last row, and what follows. -/
theorem chunk_split {l : List (Bytes × Bytes)} {m : Nat} {last : Bytes × Bytes} (h : (l.take m).getLast? = some last) :
    ∃ front, l.take m = front ++ [last] ∧ l = front ++ last :: l.drop m := by
  obtain ⟨front, hfront⟩ := List.getLast?_eq_some_iff.1 h
  refine ⟨front, hfront, ?_⟩
  conv_lhs => rw [← take_append_drop m l, hfront]
  simp

/-- The rows of a chunk stand at or before its last one. -/
theorem le_last_of_mem {cur : Bytes} {front rest : List (Bytes × Bytes)} {last : Bytes × Bytes}
    (h : s.entriesFrom cur = front ++ last :: rest) {e : Bytes × Bytes} (he : e ∈ front ++ [last]) :
    (compare e.1 last.1).isLE := by
  have hsorted := entriesFrom_sorted s cur
  rw [h] at hsorted
  rcases mem_append.1 he with he | he
  · rw [(pairwise_append.1 hsorted).2.2 e he last mem_cons_self]
    rfl
  · rw [mem_singleton.1 he, Std.ReflOrd.compare_self]
    rfl

theorem contents_wipe {fuel : Nat} {cur : Bytes} (hfuel : (s.entriesFrom cur).length < fuel)
    (hcur : (compare cur x).isLE) (hx : x ≠ metaWiping) : (wipe fuel cur s).contents x = none := by
  induction fuel generalizing cur s with
  | zero => omega
  | succ fuel ih =>
    rw [wipe_succ]
    cases hlast : ((s.entriesFrom cur).take wipeChunk).getLast? with
    | none =>
      have hnil := (take_eq_nil_iff.1 (List.getLast?_eq_none_iff.1 hlast)).resolve_left (by decide)
      exact entriesFrom_nil hnil hcur
    | some last =>
      obtain ⟨front, hfront, hall⟩ := chunk_split hlast
      rw [hfront]
      by_cases hpast : (compare (cursorAfter last.1) x).isLE
      · refine ih ?_ hpast
        have hkeys : ∀ op ∈ (wiped (front ++ [last])).map delete, compare op.key (cursorAfter last.1) = .lt := by
          intro op hop
          obtain ⟨key, hkey, rfl⟩ := mem_map.1 hop
          obtain ⟨row, hrow, rfl⟩ := mem_map.1 hkey
          exact lt_cursorAfter_iff.2 (le_last_of_mem hall (mem_of_mem_filter hrow))
        have hlen := congrArg List.length hall
        rw [entriesFrom_writeAll hkeys, entriesFrom_append hall]
        rw [length_append, length_cons] at hlen
        omega
      · -- a row up to the last one of the chunk is in the chunk
        refine contents_wipe_of_none (contents_deleted ?_) _ _
        cases hc : s.contents x with
        | none => exact .inr rfl
        | some v =>
          have hmem : (x, v) ∈ s.entriesFrom cur := mem_entriesFrom.2 ⟨hc, hcur⟩
          rw [hall, append_cons, mem_append] at hmem
          rcases hmem with hmem | hmem
          · exact .inl (mem_map.2 ⟨(x, v), mem_filter.2 ⟨hmem, by simpa using hx⟩, rfl⟩)
          · rw [← entriesFrom_append hall] at hmem
            exact absurd (mem_entriesFrom.1 hmem).2 hpast

def resetRows (height : Nat) : List WriteOp :=
  [put metaFormat formatVersion, put metaBase (beBytes height), put metaHead (beBytes height)]

theorem resetCoverage_eq (s : Store) {height : Nat} (h : height ≤ maxI64) :
    resetCoverage s height = .ok ((∅ : Store).writeAll (resetRows height)) := by
  have hlt : maxI64 < 256 ^ 8 := by decide
  have hdec : decode (beBytes height) = height := by
    rw [beBytes, decode_encode, Nat.mod_eq_of_lt (by omega)]
  have hmarker : (s.write (put metaWiping (beBytes height))).contents metaWiping = some (beBytes height) := by
    rw [contents_write_apply]
    exact if_pos rfl
  have hlen : (beBytes height).length = 8 := length_encode _ _
  rw [resetCoverage, finishReset, hmarker]
  simp only [hlen, hdec, if_true]
  refine congrArg Except.ok (ext_contents (funext fun x => ?_))
  generalize s.write (put metaWiping (beBytes height)) = marked
  have hwiped : x ≠ metaWiping → (wipe (marked.size + 1) [] marked).contents x = none := by
    refine contents_wipe (Nat.lt_succ_of_le ?_) (by cases x <;> rfl)
    rw [entriesFrom, ← Std.ExtTreeMap.length_toList]
    exact length_filter_le _ _
  simp only [resetRows, writeAll, cons_append, nil_append, foldl_cons, foldl_nil, contents_write_apply, put, delete]
  by_cases hx : x = metaWiping
  · have hhead : metaHead ≠ metaWiping := by decide
    have hbase : metaBase ≠ metaWiping := by decide
    have hformat : metaFormat ≠ metaWiping := by decide
    simp only [hx, if_neg hhead, if_neg hbase, if_neg hformat, if_true]
    rfl
  · simp only [hwiped hx, if_neg (Ne.symm hx)]
    rfl

end Archive

end TronGoblin
