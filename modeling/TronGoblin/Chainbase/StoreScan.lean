import TronGoblin.Chainbase.SnapshotScan
import TronGoblin.Lib.LexOrder

/-!
# Scans that go on where the last one stopped

A long scan of a store is made in chunks: `scan_from` at a cursor, and then again at the last key
followed by a zero byte (`tron-chainbase/src/backend.rs`).

* `entriesFrom`: what is stored at or after a cursor, in order; a chunk is its beginning.
* `entriesFrom_cons`: the first entry, that nothing is stored before it, and what the next cursor sees.
* `entriesFrom_append`: the same for a whole chunk.
* `entriesFrom_writeAll`: writes before the cursor are not seen.
-/

namespace TronGoblin

open List

namespace Store

def entriesFrom (s : Store) (cur : Bytes) : List (Bytes × Bytes) :=
  s.toList.filter fun e => (compare cur e.1).isLE

def cursorAfter (key : Bytes) : Bytes := key ++ [0]

variable {s : Store} {cur : Bytes}

theorem cursorAfter_le_iff {key x : Bytes} : (compare (cursorAfter key) x).isLE ↔ compare key x = .lt :=
  LexOrder.compare_concat_zero key x

theorem lt_cursorAfter_iff {key x : Bytes} : compare x (cursorAfter key) = .lt ↔ (compare x key).isLE := by
  rw [← LexOrder.not_isLE_iff, cursorAfter_le_iff, ← LexOrder.not_isLE_iff, not_not]

theorem scanFrom_eq (s : Store) (cur : Bytes) (limit : Nat) :
    s.reads.scanFrom cur limit = (s.entriesFrom cur).take limit := rfl

theorem mem_entriesFrom {e : Bytes × Bytes} :
    e ∈ s.entriesFrom cur ↔ s.contents e.1 = some e.2 ∧ (compare cur e.1).isLE := by
  rw [entriesFrom, mem_filter, Std.ExtTreeMap.mem_toList_iff_getElem?_eq_some]
  rfl

theorem entriesFrom_sorted (s : Store) (cur : Bytes) : (s.entriesFrom cur).Pairwise fun a b => compare a.1 b.1 = .lt :=
  (Std.ExtTreeMap.ordered_keys_toList).filter _

theorem entriesFrom_nodup (s : Store) (cur : Bytes) : (s.entriesFrom cur).Nodup :=
  (entriesFrom_sorted s cur).imp fun {a b} hlt heq => by
    subst b
    simp at hlt

theorem entriesFrom_cursorAfter (s : Store) (key : Bytes) :
    s.entriesFrom (cursorAfter key) = s.toList.filter fun e => compare key e.1 = .lt := by
  refine filter_congr fun e _ => ?_
  rw [Bool.eq_iff_iff, decide_eq_true_iff]
  exact cursorAfter_le_iff

theorem entriesFrom_nil (h : s.entriesFrom cur = []) {x : Bytes} (hx : (compare cur x).isLE) : s.contents x = none := by
  cases hc : s.contents x with
  | none => rfl
  | some v =>
    have hmem : (x, v) ∈ s.entriesFrom cur := mem_entriesFrom.2 ⟨hc, hx⟩
    rw [h] at hmem
    cases hmem

section Cons

variable {e : Bytes × Bytes} {rest : List (Bytes × Bytes)}

theorem entriesFrom_cons (h : s.entriesFrom cur = e :: rest) :
    s.contents e.1 = some e.2 ∧ (compare cur e.1).isLE ∧
      ∀ x, (compare cur x).isLE → compare x e.1 = .lt → s.contents x = none := by
  have hmem : e ∈ s.entriesFrom cur := by rw [h]; exact mem_cons_self
  obtain ⟨hstored, hle⟩ := mem_entriesFrom.1 hmem
  refine ⟨hstored, hle, fun x hcur hlt => ?_⟩
  cases hc : s.contents x with
  | none => rfl
  | some v =>
    -- `x` is seen too, and it is neither the first entry nor a later one
    have hx : (x, v) ∈ s.entriesFrom cur := mem_entriesFrom.2 ⟨hc, hcur⟩
    have hsorted := entriesFrom_sorted s cur
    rw [h] at hx hsorted
    rcases mem_cons.1 hx with heq | hlater
    · rw [← heq, Std.ReflOrd.compare_self] at hlt
      cases hlt
    · have hgt := Std.OrientedCmp.gt_of_lt ((pairwise_cons.1 hsorted).1 _ hlater)
      rw [hlt] at hgt
      cases hgt

theorem entriesFrom_next (h : s.entriesFrom cur = e :: rest) : s.entriesFrom (cursorAfter e.1) = rest := by
  have hsorted := entriesFrom_sorted s cur
  have hle := (entriesFrom_cons h).2.1
  rw [h, pairwise_cons] at hsorted
  have hself : decide (compare e.1 e.1 = .lt) = false := by
    rw [Std.ReflOrd.compare_self]
    rfl
  calc s.entriesFrom (cursorAfter e.1)
      = s.toList.filter fun x => compare e.1 x.1 = .lt := entriesFrom_cursorAfter s e.1
    _ = (s.entriesFrom cur).filter fun x => compare e.1 x.1 = .lt := by
      rw [entriesFrom, filter_filter]
      refine filter_congr fun x _ => ?_
      rw [Bool.eq_iff_iff, Bool.and_eq_true, decide_eq_true_iff]
      exact ⟨fun hlt => ⟨hlt, Std.TransCmp.isLE_trans hle (by rw [hlt]; rfl)⟩, fun hboth => hboth.1⟩
    _ = rest := by
      rw [h, filter_cons, hself]
      exact filter_eq_self.2 fun x hx => decide_eq_true (hsorted.1 x hx)

end Cons

/-- A chunk: what is stored up to its last key, and what the next cursor sees. -/
theorem entriesFrom_append {chunk rest : List (Bytes × Bytes)} {last : Bytes × Bytes}
    (h : s.entriesFrom cur = chunk ++ last :: rest) :
    s.entriesFrom (cursorAfter last.1) = rest := by
  induction chunk generalizing cur with
  | nil => exact entriesFrom_next h
  | cons e chunk ih => exact ih (entriesFrom_next h)

theorem entriesFrom_writeAll {ops : List WriteOp} (h : ∀ op ∈ ops, compare op.key cur = .lt) :
    (s.writeAll ops).entriesFrom cur = s.entriesFrom cur := by
  have hmem : ∀ e, e ∈ (s.writeAll ops).entriesFrom cur ↔ e ∈ s.entriesFrom cur := by
    intro e
    rw [mem_entriesFrom, mem_entriesFrom, contents_writeAll]
    refine and_congr_left fun hle => ?_
    rw [Kv.applyAll_of_not_mem fun op hop heq => ?_]
    have hgt := Std.OrientedCmp.gt_of_lt (h op hop)
    rw [heq] at hgt
    rw [hgt] at hle
    cases hle
  have hperm : ((s.writeAll ops).entriesFrom cur).Perm (s.entriesFrom cur) :=
    (perm_ext_iff_of_nodup (entriesFrom_nodup _ _) (entriesFrom_nodup _ _)).2 hmem
  refine hperm.eq_of_pairwise ?_ (entriesFrom_sorted _ _) (entriesFrom_sorted _ _)
  exact fun a b _ _ hab hba => (Std.OrientedCmp.not_lt_of_lt hab hba).elim

end Store

end TronGoblin
