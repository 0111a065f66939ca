import TronGoblin.Lib.KvMap

/-!
# Stores on disk

A store on disk is a base map and the log of the write calls made to it since, each of which is
atomic.  A crash loses a suffix of the log, never a call below the store's durable mark; a sync moves
the mark to the end of the log.

* `Survives d m`: `m` can be the store's contents after a crash.
* `WrittenSince` / `DurableSince`: a write was made after a position of the log, and is below the mark.
* `survives_of_untouched`: a key that no un-synced call touches has its current value after every
  crash.
-/

namespace Kv

open List

variable {κ ν : Type}

structure Durable (κ ν : Type) where
  base : Map κ ν
  /-- The write calls made so far, oldest first. -/
  log : List (List (Write κ ν))
  /-- The calls before this position survive every crash. -/
  mark : Nat
  mark_le : mark ≤ log.length

namespace Durable

variable (m : Map κ ν)

/-- A store that holds `m`, all of it durable. -/
def ofMap : Durable κ ν := ⟨m, [], 0, Nat.le_refl _⟩

/-- An un-synced write call. -/
def append (d : Durable κ ν) (ws : List (Write κ ν)) : Durable κ ν where
  base := d.base
  log := d.log ++ [ws]
  mark := d.mark
  mark_le := by rw [length_append]; exact Nat.le_add_right_of_le d.mark_le

/-- Everything written so far becomes durable. -/
def sync (d : Durable κ ν) : Durable κ ν := ⟨d.base, d.log, d.log.length, Nat.le_refl _⟩

/-- The calls a crash may lose. -/
def tail (d : Durable κ ν) : List (List (Write κ ν)) := d.log.drop d.mark

/-- The write was made after the first `n` calls. -/
def WrittenSince (d : Durable κ ν) (n : Nat) (w : Write κ ν) : Prop := ∃ ws ∈ d.log.drop n, w ∈ ws

/-- The write was made after the first `n` calls and survives every crash. -/
def DurableSince (d : Durable κ ν) (n : Nat) (w : Write κ ν) : Prop :=
  ∃ ws ∈ (d.log.take d.mark).drop n, w ∈ ws

variable {d : Durable κ ν} {w : Write κ ν} {n : Nat}

theorem durableSince_append (ws : List (Write κ ν)) (h : d.DurableSince n w) : (d.append ws).DurableSince n w := by
  obtain ⟨us, hus, hw⟩ := h
  refine ⟨us, ?_, hw⟩
  show us ∈ ((d.log ++ [ws]).take d.mark).drop n
  rwa [take_append_of_le_length d.mark_le]

theorem durableSince_sync (h : d.WrittenSince n w) : d.sync.DurableSince n w := by
  obtain ⟨us, hus, hw⟩ := h
  refine ⟨us, ?_, hw⟩
  show us ∈ (d.log.take d.log.length).drop n
  rwa [take_length]

theorem writtenSince_of_durable (h : d.DurableSince n w) : d.WrittenSince n w := by
  obtain ⟨us, hus, hw⟩ := h
  rw [drop_take] at hus
  exact ⟨us, mem_of_mem_take hus, hw⟩

theorem durableSince_append_sync (hn : n ≤ d.log.length) {ws : List (Write κ ν)} (hw : w ∈ ws) :
    (d.append ws).sync.DurableSince n w := by
  refine durableSince_sync ⟨ws, ?_, hw⟩
  show ws ∈ (d.log ++ [ws]).drop n
  rw [drop_append_of_le_length hn]
  exact mem_append_right _ (mem_singleton.2 rfl)

/-- Key `k` is written by a call that a crash may lose. -/
def Unsynced (d : Durable κ ν) (k : κ) : Prop := ∃ ws ∈ d.tail, ∃ w ∈ ws, w.key = k

/-- One un-synced call for each write. -/
def appendEach (d : Durable κ ν) (ws : List (Write κ ν)) : Durable κ ν :=
  ws.foldl (fun d w => d.append [w]) d

theorem appendEach_append (d : Durable κ ν) (us ws : List (Write κ ν)) :
    d.appendEach (us ++ ws) = (d.appendEach us).appendEach ws := foldl_append

variable [DecidableEq κ]

/-- What a read returns. -/
def contents (d : Durable κ ν) : Map κ ν := applyAll d.log.flatten d.base

/-- The possible contents after a crash. -/
def Survives (d : Durable κ ν) (m : Map κ ν) : Prop :=
  ∃ n, d.mark ≤ n ∧ m = applyAll (d.log.take n).flatten d.base

omit [DecidableEq κ] in
theorem tail_append (d : Durable κ ν) (ws : List (Write κ ν)) : (d.append ws).tail = d.tail ++ [ws] := by
  simp [tail, append, drop_append_of_le_length d.mark_le]

omit [DecidableEq κ] in
@[simp] theorem tail_sync (d : Durable κ ν) : d.sync.tail = [] := drop_length ..

omit [DecidableEq κ] in
theorem unsynced_append {ws : List (Write κ ν)} {k : κ} :
    (d.append ws).Unsynced k ↔ d.Unsynced k ∨ ∃ w ∈ ws, w.key = k := by
  simp only [Unsynced, tail_append, mem_append, mem_singleton]
  constructor
  · rintro ⟨us, hu | rfl, hw⟩
    · exact Or.inl ⟨us, hu, hw⟩
    · exact Or.inr hw
  · rintro (⟨us, hu, hw⟩ | hw)
    · exact ⟨us, Or.inl hu, hw⟩
    · exact ⟨ws, Or.inr rfl, hw⟩

omit [DecidableEq κ] in
@[simp] theorem not_unsynced_sync (d : Durable κ ν) (k : κ) : ¬d.sync.Unsynced k := by
  simp [Unsynced]

omit [DecidableEq κ] in
@[simp] theorem not_unsynced_ofMap (k : κ) : ¬(ofMap m).Unsynced k := by
  simp [Unsynced, tail, ofMap]

@[simp] theorem contents_ofMap : (ofMap m).contents = m := rfl

theorem contents_append (d : Durable κ ν) (ws : List (Write κ ν)) :
    (d.append ws).contents = applyAll ws d.contents := by
  simp [contents, append, flatten_append, applyAll_append]

theorem contents_appendEach (d : Durable κ ν) (ws : List (Write κ ν)) :
    (d.appendEach ws).contents = applyAll ws d.contents := by
  induction ws generalizing d with
  | nil => rfl
  | cons w ws ih => exact (ih (d.append [w])).trans (by rw [contents_append]; rfl)

@[simp] theorem contents_sync (d : Durable κ ν) : d.sync.contents = d.contents := rfl

theorem survives_contents (d : Durable κ ν) : d.Survives d.contents :=
  ⟨d.log.length, d.mark_le, by rw [take_length]; rfl⟩

theorem survives_of_untouched {m : Map κ ν} (h : d.Survives m) {k : κ} (hk : ¬d.Unsynced k) : m k = d.contents k := by
  obtain ⟨n, hn, rfl⟩ := h
  have hsplit : d.log.flatten = (d.log.take n).flatten ++ (d.log.drop n).flatten := by
    rw [← flatten_append, take_append_drop]
  rw [contents, hsplit, applyAll_append]
  refine (applyAll_of_not_mem (fun w hw hwk => hk ?_) _).symm
  obtain ⟨ws, hws, hw⟩ := mem_flatten.1 hw
  -- what is dropped at `n` was dropped at the mark already
  have hmem : ws ∈ d.tail := by
    rw [← Nat.add_sub_cancel' hn, ← drop_drop] at hws
    exact mem_of_mem_drop hws
  exact ⟨ws, hmem, w, hw, hwk⟩

theorem survives_eq {m : Map κ ν} (h : d.Survives m) (hk : ∀ k, ¬d.Unsynced k) : m = d.contents :=
  funext fun k => survives_of_untouched h (hk k)

end Durable

end Kv
