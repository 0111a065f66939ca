import TronGoblin.Chainbase.Session
import TronGoblin.Chainbase.SnapshotScan
import TronGoblin.Lib.Listing

/-!
# Scans through sessions

`scan_all`, `scan_from` and `scan_prefix` of a `SessionBackend` (`tron-chainbase/src/session.rs`): the scan of the
parent, with the pending writes put over it in a `BTreeMap`.

* `Agrees`: scans return what `get` does, in ascending order of keys.
* `take_overlaid`: a bounded scan of the parent that makes up for the pending deletes is enough.
* `Nested`: sessions over sessions; `scans_agree` for all of them.
-/

namespace TronGoblin

open List SessionBackend Store
open Kv (applyAll lastWrite)
open Listing (Lists Sorted)

def usizeMax : Nat := 0xffffffffffffffff

/-- The scans of a backend agree with its gets: all live pairs, the first so many from a key on, and those whose key
begins with some bytes. -/
structure Agrees (r : Reads) : Prop where
  all : Lists r.get (fun _ => True) r.scanAll
  «from» : ∀ start limit, ∃ l, Lists r.get (fun k => (compare start k).isLE) l ∧ r.scanFrom start limit = l.take limit
  pre : ∀ pre, Lists r.get (fun k => pre.isPrefixOf k = true) (r.scanPrefix pre)

namespace Store

/-- A `BTreeMap` collected from rows. -/
def ofRows (rows : List (Bytes × Bytes)) : Store := writeAll ∅ (rows.map fun e => ⟨e.1, some e.2⟩)

end Store

variable (rows : List (Bytes × Bytes))

/-- Pending writes over the rows of a scan. -/
def overlaid (ov : List WriteOp) : List (Bytes × Bytes) :=
  ((ofRows rows).writeAll ov).toList

namespace SessionBackend

variable (o : HashOrder) (parent : Reads) (s : SessionBackend)

def scanAll : List (Bytes × Bytes) := overlaid parent.scanAll (o.iter s.pending)

def scanFrom (start : Bytes) (limit : Nat) : List (Bytes × Bytes) :=
  if limit = 0 then []
  else if s.dirty = false then parent.scanFrom start limit
  else
    let ov := (o.iter s.pending).filter fun w => (compare start w.key).isLE
    -- as many rows more as there are deletes
    let deletes := ov.countP (·.value.isNone)
    (overlaid (parent.scanFrom start (min (limit + deletes) usizeMax)) ov).take limit

def scanPrefix (pre : Bytes) : List (Bytes × Bytes) :=
  if s.dirty = false then parent.scanPrefix pre
  else overlaid (parent.scanPrefix pre) ((o.iter s.pending).filter fun w => pre.isPrefixOf w.key)

/-- All reads of the session; `contains` is the default one. -/
def reads : Reads where
  get := s.get parent.get
  contains k := (s.get parent.get k).isSome
  scanAll := s.scanAll o parent
  scanFrom := s.scanFrom o parent
  scanPrefix := s.scanPrefix o parent

end SessionBackend

/-- The reads of sessions over sessions, to any depth; each one may be iterated in another order.  What a scan returns
is a `Vec`, so a parent never has more than `usize::MAX` pairs. -/
inductive Nested (parent : Reads) : Reads → Prop
  | parent : Nested parent parent
  | session {r : Reads} (h : Nested parent r) (fits : r.scanAll.length ≤ usizeMax) (o : HashOrder)
      (s : SessionBackend) : Nested parent (s.reads o r)

/-! ## Rows -/

variable (m : Store)

theorem mem_toList_iff (k v : Bytes) : (k, v) ∈ m.toList ↔ m.contents k = some v :=
  Std.ExtTreeMap.mem_toList_iff_getElem?_eq_some

theorem sorted_toList : Sorted m.toList := Std.ExtTreeMap.ordered_keys_toList

theorem lists_toList : Lists m.contents (fun _ => True) m.toList :=
  ⟨sorted_toList m, fun k v => by rw [mem_toList_iff, and_true]⟩

theorem contents_ofRows {rows : List (Bytes × Bytes)} (h : Sorted rows) (k v : Bytes) :
    (ofRows rows).contents k = some v ↔ (k, v) ∈ rows := by
  have hnodup : ((rows.map fun e => (⟨e.1, some e.2⟩ : WriteOp)).map (·.key)).Nodup := by
    rw [map_map]
    exact h.keys_nodup
  have hempty : (∅ : Store).contents k = none := Std.ExtTreeMap.getElem?_empty
  rw [ofRows, contents_writeAll, Kv.applyAll_apply, hempty]
  constructor
  · intro hv
    obtain ⟨w, hw⟩ : ∃ w, lastWrite (rows.map fun e => (⟨e.1, some e.2⟩ : WriteOp)) k = some w := by
      cases hl : lastWrite (rows.map fun e => (⟨e.1, some e.2⟩ : WriteOp)) k with
      | none =>
        rw [hl] at hv
        cases hv
      | some w => exact ⟨w, rfl⟩
    rw [hw] at hv
    cases (hv : w = some v)
    obtain ⟨e, he, heq⟩ := mem_map.1 ((Kv.mem_iff_lastWrite hnodup ⟨k, some v⟩).2 hw)
    cases heq
    exact he
  · intro hmem
    rw [(Kv.mem_iff_lastWrite hnodup ⟨k, some v⟩).1 (mem_map.2 ⟨(k, v), hmem, rfl⟩)]
    rfl

theorem sorted_overlaid (ov : List WriteOp) : Sorted (overlaid rows ov) :=
  sorted_toList _

theorem mem_overlaid (ov : List WriteOp) (k v : Bytes) :
    (k, v) ∈ overlaid rows ov ↔ applyAll ov (ofRows rows).contents k = some v := by
  rw [overlaid, mem_toList_iff, contents_writeAll]

theorem lastWrite_filter (ws : List WriteOp) (p : Bytes → Bool) (k : Bytes) :
    lastWrite (ws.filter fun w => p w.key) k = if p k then lastWrite ws k else none := by
  induction ws with
  | nil => simp
  | cons w ws ih =>
    by_cases hw : p w.key
    · rw [filter_cons_of_pos (by simpa using hw), lastWrite, lastWrite, ih]
      by_cases hk : w.key = k
      · subst hk
        simp [if_pos hw]
      · split <;> simp
    · rw [filter_cons_of_neg (by simpa using hw), ih, lastWrite]
      split
      · next hpk =>
        rw [if_neg fun hk => hw (by rw [hk]; exact hpk), Option.or_none]
      · rfl

/-- **Rows of some keys, with the pending writes to those keys over them.** -/
theorem lists_overlaid {get : Contents} {p : Bytes → Bool} {rows : List (Bytes × Bytes)}
    (h : Lists get (fun k => p k = true) rows) (ov : List WriteOp) :
    Lists (applyAll ov get) (fun k => p k = true) (overlaid rows (ov.filter fun w => p w.key)) := by
  refine ⟨sorted_overlaid _ _, fun k v => ?_⟩
  rw [mem_overlaid, Kv.applyAll_apply, Kv.applyAll_apply, lastWrite_filter]
  have hrows : (ofRows rows).contents k = if p k then get k else none := by
    ext v
    rw [contents_ofRows h.sorted, h.mem]
    by_cases hp : p k <;> simp [hp]
  rw [hrows]
  by_cases hp : p k <;> simp [hp]

/-! ## A bounded scan -/

section Bounded

variable {L : List (Bytes × Bytes)} {ov : List WriteOp}

theorem length_deleted_le (hL : Sorted L) (ov : List WriteOp) :
    (L.filter fun e => decide ((⟨e.1, none⟩ : WriteOp) ∈ ov)).length ≤ ov.countP (·.value.isNone) := by
  have hsub : ((L.filter fun e => decide ((⟨e.1, none⟩ : WriteOp) ∈ ov)).map Prod.fst) ⊆
      (ov.filter (·.value.isNone)).map (·.key) := by
    intro k hk
    obtain ⟨e, he, rfl⟩ := mem_map.1 hk
    exact mem_map.2 ⟨⟨e.1, none⟩, mem_filter.2 ⟨of_decide_eq_true (mem_filter.1 he).2, rfl⟩, rfl⟩
  have hle := ((hL.filter _).keys_nodup.subperm hsub).length_le
  rw [length_map, length_map] at hle
  rw [countP_eq_length_filter]
  exact hle

/-- A row whose key is not deleted is still there, perhaps with another value. -/
theorem key_overlaid (hL : Sorted L) (hov : (ov.map (·.key)).Nodup) {e : Bytes × Bytes} (he : e ∈ L)
    (hkept : (⟨e.1, none⟩ : WriteOp) ∉ ov) : ∃ v, (e.1, v) ∈ overlaid L ov := by
  have hhas := (contents_ofRows hL e.1 e.2).2 he
  cases hl : lastWrite ov e.1 with
  | none => exact ⟨e.2, by rw [mem_overlaid, Kv.applyAll_apply, hl, hhas]; rfl⟩
  | some w =>
    cases w with
    | none => exact absurd ((Kv.mem_iff_lastWrite hov ⟨e.1, none⟩).2 hl) hkept
    | some v => exact ⟨v, by rw [mem_overlaid, Kv.applyAll_apply, hl]; rfl⟩

/-- **As many rows more as there are deletes are enough.** -/
theorem take_overlaid (hL : Sorted L) (hov : (ov.map (·.key)).Nodup) (limit : Nat) :
    (overlaid (L.take (limit + ov.countP (·.value.isNone))) ov).take limit = (overlaid L ov).take limit := by
  generalize hn : limit + ov.countP (·.value.isNone) = n
  by_cases hall : L.length ≤ n
  · rw [take_of_length_le hall]
  · -- up to the first row that was not fetched, both maps are the same
    let p : Bytes → Bool := fun k => (L.drop n).all fun e => compare k e.1 = .lt
    have hp : ∀ k, p k = true ↔ ∀ e ∈ L.drop n, compare k e.1 = .lt := fun k => by simp [p]
    have hF : Sorted (L.take n) := hL.take n
    have hfetched : ∀ e ∈ L.take n, p e.1 = true := by
      intro e he
      rw [← take_append_drop n L] at hL
      exact (hp e.1).2 ((pairwise_append.1 hL).2.2 e he)
    have hbelow : Listing.Below p :=
      fun a b hab hb => (hp a).2 fun e he => Std.TransCmp.lt_trans hab ((hp b).1 hb e he)
    have hmem : ∀ k v, p k = true → ((k, v) ∈ L.take n ↔ (k, v) ∈ L) := by
      intro k v hk
      refine ⟨mem_of_mem_take, fun h => ?_⟩
      rw [← take_append_drop n L] at h
      refine (mem_append.1 h).resolve_right fun hd => ?_
      have hlt := (hp k).1 hk _ hd
      rw [Std.ReflOrd.compare_self] at hlt
      cases hlt
    have hsame : (overlaid (L.take n) ov).filter (fun e => p e.1) = (overlaid L ov).filter fun e => p e.1 := by
      refine Sorted.eq_of_mem_iff ((sorted_overlaid _ _).filter _) ((sorted_overlaid _ _).filter _) fun ⟨k, v⟩ => ?_
      rw [mem_filter, mem_filter, mem_overlaid, mem_overlaid]
      refine and_congr_left fun hk => ?_
      have hcontents : (ofRows (L.take n)).contents k = (ofRows L).contents k := by
        ext v
        rw [contents_ofRows hF, contents_ofRows hL, hmem k v hk]
      rw [Kv.applyAll_apply, Kv.applyAll_apply, hcontents]
    refine Listing.take_eq_take (sorted_overlaid _ _) (sorted_overlaid _ _) hbelow hsame ?_
    -- count the fetched rows that are not deleted
    have hkeys : (((L.take n).filter fun e => !decide ((⟨e.1, none⟩ : WriteOp) ∈ ov)).map Prod.fst) ⊆
        ((overlaid (L.take n) ov).filter fun e => p e.1).map Prod.fst := by
      intro k hk
      obtain ⟨e, he, rfl⟩ := mem_map.1 hk
      obtain ⟨he, hkept⟩ := mem_filter.1 he
      obtain ⟨v, hv⟩ := key_overlaid hF hov he (by simpa using hkept)
      exact mem_map.2 ⟨(e.1, v), mem_filter.2 ⟨hv, hfetched e he⟩, rfl⟩
    have hcount := ((hF.filter _).keys_nodup.subperm hkeys).length_le
    have hdeleted := length_deleted_le hF ov
    have hparts := length_eq_length_filter_add (l := L.take n) fun e => decide ((⟨e.1, none⟩ : WriteOp) ∈ ov)
    rw [length_map, length_map] at hcount
    rw [length_take] at hparts
    omega

end Bounded

/-! ## Sessions -/

section Sessions

variable {parent : Reads} (hp : Agrees parent) (hfits : parent.scanAll.length ≤ usizeMax) (o : HashOrder)
  (s : SessionBackend)

theorem get_eq_iter : s.get parent.get = applyAll (o.iter s.pending) parent.get := by
  rw [get_eq_applyAll]
  exact (Kv.applyAll_perm (o.perm _) s.nodup parent.get).symm

theorem nodup_iter : ((o.iter s.pending).map (·.key)).Nodup := ((o.perm s.pending).map _).nodup_iff.2 s.nodup

theorem get_clean (h : s.dirty = false) : s.get parent.get = parent.get := by
  rw [get_eq_applyAll, s.clean h, Kv.applyAll_nil]

include hp

theorem scanAll_lists : Lists (s.get parent.get) (fun _ => True) (s.scanAll o parent) := by
  have hall : Lists parent.get (fun _ => (true : Bool) = true) parent.scanAll := by
    exact ⟨hp.all.sorted, fun k v => (hp.all.mem k v).trans (by simp)⟩
  have h := lists_overlaid (p := fun _ => true) hall (o.iter s.pending)
  rw [filter_true, ← get_eq_iter] at h
  exact ⟨h.sorted, fun k v => (h.mem k v).trans (by simp)⟩

theorem scanPrefix_lists (pre : Bytes) :
    Lists (s.get parent.get) (fun k => pre.isPrefixOf k = true) (s.scanPrefix o parent pre) := by
  unfold scanPrefix
  split
  · next hclean =>
    rw [get_clean s hclean]
    exact hp.pre pre
  · rw [get_eq_iter o]
    exact lists_overlaid (hp.pre pre) (o.iter s.pending)

include hfits

theorem scanFrom_lists (start : Bytes) (limit : Nat) :
    ∃ l, Lists (s.get parent.get) (fun k => (compare start k).isLE) l ∧ s.scanFrom o parent start limit = l.take limit := by
  unfold scanFrom
  split
  · next hlimit =>
    have h := (scanAll_lists hp o s).filter fun k => (compare start k).isLE
    exact ⟨_, ⟨h.sorted, fun k v => by rw [h.mem, true_and]⟩, by rw [hlimit, take_zero]⟩
  · split
    · next hclean =>
      rw [get_clean s hclean]
      exact hp.«from» start limit
    · dsimp only
      generalize hov : (o.iter s.pending).filter (fun w => (compare start w.key).isLE) = ov
      obtain ⟨l, hl, hscan⟩ := hp.«from» start (min (limit + ov.countP (·.value.isNone)) usizeMax)
      refine ⟨overlaid l ov, ?_, ?_⟩
      · rw [get_eq_iter o, ← hov]
        exact lists_overlaid hl (o.iter s.pending)
      · -- the parent has no more rows than it was asked for, where the sum saturates
        have hlen : l.length ≤ usizeMax := by
          have hsub : l ⊆ parent.scanAll := fun ⟨k, v⟩ he => (hp.all.mem k v).2 ⟨((hl.mem k v).1 he).1, trivial⟩
          exact Nat.le_trans (hl.sorted.nodup.subperm hsub).length_le hfits
        have htake : l.take (min (limit + ov.countP (·.value.isNone)) usizeMax) =
            l.take (limit + ov.countP (·.value.isNone)) := by
          rw [take_eq_take_iff]
          omega
        rw [hscan, htake]
        refine take_overlaid hl.sorted ?_ limit
        rw [← hov]
        exact (nodup_iter o s).sublist (filter_sublist.map _)

theorem agrees_session : Agrees (s.reads o parent) where
  all := scanAll_lists hp o s
  «from» := scanFrom_lists hp hfits o s
  pre := scanPrefix_lists hp o s

end Sessions

/-- **Scans agree with reads.**  Over a parent whose scans agree with its gets, the scans of sessions nested to any
depth agree with theirs. -/
theorem scans_agree {parent r : Reads} (hp : Agrees parent) (h : Nested parent r) : Agrees r := by
  induction h with
  | parent => exact hp
  | session _ fits o s ih => exact agrees_session ih fits o s

theorem agrees_store : Agrees m.reads where
  all := lists_toList m
  «from» start limit := by
    have h := (lists_toList m).filter fun k => (compare start k).isLE
    exact ⟨_, ⟨h.sorted, fun k v => (h.mem k v).trans (by rw [true_and]; rfl)⟩, rfl⟩
  pre pre := by
    have h := (lists_toList m).filter fun k => pre.isPrefixOf k
    exact ⟨h.sorted, fun k v => (h.mem k v).trans (by rw [true_and]; rfl)⟩

/-- A session that deletes, over one that writes, over a map. -/
theorem scans_agree_twice :
    let parent := (writeAll ∅ [⟨[1], some [10]⟩, ⟨[3], some [30]⟩]).reads
    let written := (new.put [2] [20]).reads .inserted parent
    let deleted := (new.delete [1]).reads .inserted written
    Agrees deleted ∧ deleted.scanFrom [] 1 = [([2], [20])] := by
  intro parent written deleted
  have hparent : parent.scanAll.length ≤ usizeMax := by decide +kernel
  have hwritten : written.scanAll.length ≤ usizeMax := by decide +kernel
  refine ⟨?_, by decide +kernel⟩
  exact scans_agree (agrees_store _) (.session (.session .parent hparent .inserted _) hwritten .inserted _)

end TronGoblin
