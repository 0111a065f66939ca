import Mathlib.Data.List.FinRange
import Mathlib.Data.List.Induction
import TronGoblin.Chainbase.Backend

/-!
# Pending overlays

Model of `PendingOverlay` (`tron-chainbase/src/pending_overlay.rs`): the write-set of one block over a
store whose own copy of it is still being written.  The overlay is split into shards by the hash of
the key; `hash` below is that hash, and may be any function.

* `get_replaceWith`, `scanAll_replaceWith`: reads and scans through an overlay see the store with the
  write-set applied.
-/

namespace TronGoblin

open Function

open Kv (applyAll lastWrite)

def shardCount : Nat := 16

/-- An overlay: the pending value of each key, shard by shard. -/
structure PendingOverlay where
  shards : Fin shardCount → Bytes → Option (Option Bytes)
  populated : Bool

namespace PendingOverlay

def new : PendingOverlay := ⟨fun _ _ => none, false⟩

def stage (hash : Bytes → Fin shardCount) (shards : Fin shardCount → Bytes → Option (Option Bytes))
    (w : WriteOp) : Fin shardCount → Bytes → Option (Option Bytes) :=
  update shards (hash w.key) (update (shards (hash w.key)) w.key (some w.value))

def replaceWith (hash : Bytes → Fin shardCount) (ops : List WriteOp) : PendingOverlay :=
  ⟨ops.foldl (stage hash) (fun _ _ => none), !ops.isEmpty⟩

def clear : PendingOverlay := new

def get (hash : Bytes → Fin shardCount) (o : PendingOverlay) (parent : Contents) (key : Bytes) : Option Bytes :=
  if o.populated = false then parent key
  else match o.shards (hash key) key with
    | some v => v
    | none => parent key

/-- The parent's contents with the entries of all shards merged in. -/
def scanAll (o : PendingOverlay) (parent : Contents) : Contents :=
  (List.finRange shardCount).foldl (fun m i key => (o.shards i key).getD (m key)) parent

variable {hash : Bytes → Fin shardCount} (ops : List WriteOp)

/-- A staged write-set holds, in the shard of each key, the key's last write. -/
theorem staged_apply (i : Fin shardCount) (k : Bytes) :
    (ops.foldl (stage hash) (fun _ _ => none)) i k = if hash k = i then lastWrite ops k else none := by
  induction ops using List.reverseRecOn with
  | nil => simp
  | append_singleton ws w ih =>
    rw [List.foldl_concat, Kv.lastWrite_append]
    show update (ws.foldl (stage hash) _) (hash w.key) (update _ w.key _) i k = _
    by_cases hi : i = hash w.key
    · subst hi
      rw [update_self]
      by_cases hk : k = w.key
      · subst hk
        rw [update_self, if_pos rfl]
        simp [lastWrite]
      · rw [update_of_ne hk, ih]
        simp [lastWrite, Ne.symm hk]
    · rw [update_of_ne hi, ih]
      by_cases hk : hash k = i
      · have hne : w.key ≠ k := fun h => hi (by rw [← hk, h])
        simp [lastWrite, hk, hne]
      · simp [hk]

variable (parent : Contents)

theorem get_new : new.get hash parent = parent := rfl

theorem scanAll_new : new.scanAll parent = parent := by
  unfold scanAll
  have hid : (fun (m : Contents) (i : Fin shardCount) key => (new.shards i key).getD (m key)) = fun m _ => m := rfl
  rw [hid, List.foldl_fixed]

theorem get_replaceWith : (replaceWith hash ops).get hash parent = applyAll ops parent := by
  funext k
  unfold get
  split
  · rename_i hempty
    have hnil : ops = [] := List.isEmpty_iff.1 (by simpa [replaceWith] using hempty)
    rw [hnil]; rfl
  · rw [Kv.applyAll_apply]
    show (match (ops.foldl (stage hash) _) (hash k) k with | some v => v | none => parent k) = _
    rw [staged_apply, if_pos rfl]
    cases lastWrite ops k <;> rfl

theorem foldl_shards (shards : Fin shardCount → Bytes → Option (Option Bytes))
    (h : ∀ i k, hash k ≠ i → shards i k = none) (ids : List (Fin shardCount)) (m : Contents) (k : Bytes) :
    ids.foldl (fun m i key => (shards i key).getD (m key)) m k =
      if hash k ∈ ids then (shards (hash k) k).getD (m k) else m k := by
  induction ids generalizing m with
  | nil => rfl
  | cons i ids ih =>
    rw [List.foldl_cons, ih]
    by_cases hi : hash k = i
    · subst hi
      cases shards (hash k) k <;> simp
    · rw [h i k hi]
      simp [hi]

theorem scanAll_replaceWith : (replaceWith hash ops).scanAll parent = applyAll ops parent := by
  funext k
  unfold scanAll
  rw [@foldl_shards hash _ (fun i k hi => ?_), if_pos (List.mem_finRange _), Kv.applyAll_apply]
  · show ((ops.foldl (stage hash) _) (hash k) k).getD _ = _
    rw [staged_apply, if_pos rfl]
  · show (ops.foldl (stage hash) _) i k = none
    rw [staged_apply, if_neg hi]

end PendingOverlay

end TronGoblin
