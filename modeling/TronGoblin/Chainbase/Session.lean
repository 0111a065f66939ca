import TronGoblin.Chainbase.Backend

/-!
# Sessions

Model of `SessionBackend` (`tron-chainbase/src/session.rs`): an overlay of pending writes over a
parent store.  The overlay is a hash map, so the order in which it is drained is not fixed: every
drain takes a `HashOrder`, and nothing below depends on which one.

* `get_write`: reading through the session is reading the parent with the pending writes applied.
* `applyAll_drained`: flushing a drained session gives the parent exactly what the session showed.
-/

namespace TronGoblin

open List Kv
open Kv (applyAll lastWrite preimages)

/-- The iteration order of a hash map: some order of its entries. -/
structure HashOrder where
  iter : List WriteOp → List WriteOp
  perm : ∀ ws, (iter ws).Perm ws

def HashOrder.inserted : HashOrder := ⟨id, List.Perm.refl⟩

/-- A session over some parent; `pending` has one entry for each key written. -/
structure SessionBackend where
  pending : List WriteOp
  dirty : Bool
  nodup : (pending.map (·.key)).Nodup
  clean : dirty = false → pending = []

namespace SessionBackend

def new : SessionBackend := ⟨[], false, nodup_nil, fun _ => rfl⟩

variable (s : SessionBackend) (w : WriteOp)

/-- Replace the pending entry of a key, as `put` and `delete` do. -/
def insert : SessionBackend where
  pending := s.pending.filter (fun u => u.key ≠ w.key) ++ [w]
  dirty := true
  nodup := by
    rw [map_append, map_singleton]
    refine List.Nodup.append ?_ (nodup_singleton _) fun k hk hk' => ?_
    · exact s.nodup.sublist (filter_sublist.map _)
    · obtain ⟨u, hu, rfl⟩ := mem_map.1 hk
      exact of_decide_eq_true (mem_filter.1 hu).2 (mem_singleton.1 hk')
  clean := nofun

def put (key value : Bytes) : SessionBackend := s.insert ⟨key, some value⟩

def delete (key : Bytes) : SessionBackend := s.insert ⟨key, none⟩

def write : SessionBackend :=
  match w.value with
  | some v => s.put w.key v
  | none => s.delete w.key

variable (parent : Contents)

/-- Read a key, falling through to the parent; a clean session does not look at its overlay. -/
def get (s : SessionBackend) (key : Bytes) : Option Bytes :=
  if s.dirty = false then parent key
  else match s.pending.find? fun u => u.key = key with
    | some u => u.value
    | none => parent key

/-- Take the pending writes, and read the parent's value of every key; the overlay is left empty. -/
def drainPendingWithUndo (o : HashOrder) (parent : Contents) (s : SessionBackend) :
    List WriteOp × List (Bytes × Option Bytes) :=
  (o.iter s.pending, (o.iter s.pending).map fun w => (w.key, parent w.key))

/-! ## What a session shows -/

theorem get_eq_applyAll (s : SessionBackend) : s.get parent = applyAll s.pending parent := by
  funext k
  unfold get
  split
  · rename_i hclean
    rw [s.clean hclean, applyAll_nil]
  · rw [applyAll_apply]
    cases hf : s.pending.find? fun u => u.key = k with
    | none =>
      have hnone : lastWrite s.pending k = none := by
        refine lastWrite_eq_none.2 fun u hu => ?_
        simpa using List.find?_eq_none.1 hf u hu
      rw [hnone, Option.getD_none]
    | some u =>
      have hfound := List.find?_some hf
      have hk : u.key = k := by simpa using hfound
      subst hk
      rw [(mem_iff_lastWrite s.nodup u).1 (mem_of_find?_eq_some hf), Option.getD_some]

theorem write_eq_insert : s.write w = s.insert w := by
  obtain ⟨k, v⟩ := w
  cases v <;> rfl

/-- A write to the session is a write to what it shows. -/
theorem get_write (s : SessionBackend) (w : WriteOp) : (s.write w).get parent = Map.write (s.get parent) w := by
  rw [write_eq_insert]
  rw [get_eq_applyAll, get_eq_applyAll]
  show applyAll (s.pending.filter _ ++ [w]) parent = _
  rw [applyAll_append]
  show Map.write (applyAll _ parent) w = _
  funext k
  unfold Map.write
  by_cases hk : k = w.key
  · subst hk
    rw [Function.update_self, Function.update_self]
  · rw [Function.update_of_ne hk, Function.update_of_ne hk, applyAll_apply, applyAll_apply]
    congr 1
    -- the dropped entries are those of the written key
    induction s.pending with
    | nil => rfl
    | cons u us ih =>
      by_cases hu : u.key = w.key
      · rw [filter_cons_of_neg (by simpa using hu), ih, lastWrite, if_neg, Option.or_none]
        exact fun hku => hk (hku.symm.trans hu)
      · rw [filter_cons_of_pos (by simpa using hu), lastWrite, lastWrite, ih]

theorem applyAll_drained (o : HashOrder) (parent : Contents) (s : SessionBackend) :
    applyAll (s.drainPendingWithUndo o parent).1 parent = s.get parent := by
  rw [get_eq_applyAll]
  exact applyAll_perm (o.perm _) s.nodup parent

end SessionBackend

end TronGoblin
