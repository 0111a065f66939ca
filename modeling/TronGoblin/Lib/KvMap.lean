import Mathlib.Logic.Function.Basic
import Mathlib.Data.List.Basic
import Mathlib.Data.List.Nodup

/-!
# Key–value maps and write logs

A store is a total map from keys to optional values; a write replaces the value of one key and
a write log is a list of writes, oldest first.

* `lastWrite ws k`: the value the log leaves under `k`, if the log mentions `k` at all.
* `applyAll_apply`: applying a log is reading its last write, with the old map as default.
  Every other fact about logs below is a consequence of this equation.
* `applyAll_perm`: the order of a log without repeated keys does not matter.
* `applyAll_preimages`: a log is undone by the values its keys had before it.
* `applyAll_covering`: a log that is replayed over any map which agrees with the target outside
  the log's keys yields the target, whatever part of the log had reached that map before.
-/

namespace Kv

open List

variable {κ ν : Type}

abbrev Map (κ ν : Type) := κ → Option ν

/-- One write: `some v` stores `v` under the key, `none` deletes the key. -/
structure Write (κ ν : Type) where
  key : κ
  value : Option ν
  deriving DecidableEq

variable [DecidableEq κ] (m : Map κ ν)

def Map.write (w : Write κ ν) : Map κ ν := Function.update m w.key w.value

/-- Perform the writes of a log in order. -/
def applyAll (ws : List (Write κ ν)) (m : Map κ ν) : Map κ ν := ws.foldl Map.write m

/-- The last value a log writes to a key. -/
def lastWrite : List (Write κ ν) → κ → Option (Option ν)
  | [], _ => none
  | w :: ws, k => (lastWrite ws k).or (if w.key = k then some w.value else none)

@[simp] theorem applyAll_nil : applyAll [] m = m := rfl

theorem applyAll_cons (w : Write κ ν) (ws : List (Write κ ν)) (m : Map κ ν) :
    applyAll (w :: ws) m = applyAll ws (m.write w) := rfl

theorem applyAll_append (us ws : List (Write κ ν)) (m : Map κ ν) :
    applyAll (us ++ ws) m = applyAll ws (applyAll us m) :=
  foldl_append

@[simp] theorem lastWrite_nil (k : κ) : lastWrite ([] : List (Write κ ν)) k = none := rfl

theorem lastWrite_append (us ws : List (Write κ ν)) (k : κ) :
    lastWrite (us ++ ws) k = (lastWrite ws k).or (lastWrite us k) := by
  induction us with
  | nil => simp
  | cons u us ih => simp [cons_append, lastWrite, ih, Option.or_assoc]

variable {ws : List (Write κ ν)} {k : κ}

theorem lastWrite_eq_none : lastWrite ws k = none ↔ ∀ w ∈ ws, w.key ≠ k := by
  induction ws with
  | nil => simp
  | cons w ws ih => simp [lastWrite, ih, and_comm]

theorem exists_mem_of_lastWrite {v : Option ν} (h : lastWrite ws k = some v) : ∃ w ∈ ws, w.key = k ∧ w.value = v := by
  induction ws with
  | nil => cases h
  | cons w ws ih =>
    rw [lastWrite, Option.or_eq_some_iff] at h
    rcases h with h | ⟨_, h⟩
    · obtain ⟨u, hu, hk⟩ := ih h
      exact ⟨u, mem_cons_of_mem _ hu, hk⟩
    · split at h
      · rename_i hk
        exact ⟨w, mem_cons_self .., hk, Option.some.inj h⟩
      · cases h

theorem applyAll_apply (ws : List (Write κ ν)) (m : Map κ ν) (k : κ) :
    applyAll ws m k = (lastWrite ws k).getD (m k) := by
  induction ws generalizing m with
  | nil => rfl
  | cons w ws ih =>
    rw [applyAll_cons, ih, lastWrite]
    rcases lastWrite ws k with _ | v
    · by_cases h : w.key = k
      · simp [Map.write, h]
      · simp [Map.write, h, Function.update_of_ne (Ne.symm h)]
    · rfl

theorem applyAll_of_not_mem (h : ∀ w ∈ ws, w.key ≠ k) (m : Map κ ν) : applyAll ws m k = m k := by
  rw [applyAll_apply, lastWrite_eq_none.2 h, Option.getD_none]

theorem mem_iff_lastWrite (h : (ws.map (·.key)).Nodup) (w : Write κ ν) :
    w ∈ ws ↔ lastWrite ws w.key = some w.value := by
  refine ⟨fun hw => ?_, fun hl => ?_⟩
  · cases hl : lastWrite ws w.key with
    | none => exact absurd rfl (lastWrite_eq_none.1 hl w hw)
    | some v =>
      obtain ⟨u, hu, hk, rfl⟩ := exists_mem_of_lastWrite hl
      rw [inj_on_of_nodup_map h hu hw hk]
  · obtain ⟨u, hu, hk, hv⟩ := exists_mem_of_lastWrite hl
    cases w
    cases u
    cases hk
    cases hv
    exact hu

theorem applyAll_perm {us ws : List (Write κ ν)} (hp : us.Perm ws) (h : (ws.map (·.key)).Nodup)
    (m : Map κ ν) : applyAll us m = applyAll ws m := by
  have hu : (us.map (·.key)).Nodup := (hp.map _).nodup_iff.2 h
  have hlast : ∀ k, lastWrite us k = lastWrite ws k := by
    intro k
    ext v
    have hmem := (mem_iff_lastWrite hu ⟨k, v⟩).symm.trans
      ((hp.mem_iff).trans (mem_iff_lastWrite h ⟨k, v⟩))
    exact hmem
  funext k
  rw [applyAll_apply, applyAll_apply, hlast]

theorem applyAll_absorb {us ws : List (Write κ ν)} (h : ∀ u ∈ us, lastWrite ws u.key ≠ none)
    (m : Map κ ν) : applyAll ws (applyAll us m) = applyAll ws m := by
  funext k
  rw [applyAll_apply ws, applyAll_apply ws]
  cases hk : lastWrite ws k with
  | some v => rfl
  | none =>
    refine applyAll_of_not_mem (fun u hu huk => h u hu ?_) m
    rw [huk, hk]

/-- The writes that put back the values a log's keys have in `m`. -/
def preimages (ws : List (Write κ ν)) : List (Write κ ν) :=
  ws.map fun w => ⟨w.key, m w.key⟩

/-- A log replayed over a map that agrees with `m` outside the log's keys, each key ending with
`m`'s value, yields `m`. -/
theorem applyAll_covering {m m' : Map κ ν} (hin : ∀ k v, lastWrite ws k = some v → v = m k)
    (hout : ∀ k, lastWrite ws k = none → m' k = m k) : applyAll ws m' = m := by
  funext k
  rw [applyAll_apply]
  cases h : lastWrite ws k with
  | none => exact hout k h
  | some v => exact hin k v h

/-- **Undo.** Writing back the pre-images of a log restores the map it was applied to. -/
theorem applyAll_preimages (ws : List (Write κ ν)) (m : Map κ ν) : applyAll (preimages m ws) (applyAll ws m) = m := by
  refine applyAll_covering (fun k v h => ?_) fun k h => ?_
  · obtain ⟨u, hu, rfl, rfl⟩ := exists_mem_of_lastWrite h
    obtain ⟨w, _, rfl⟩ := mem_map.1 hu
    rfl
  · refine applyAll_of_not_mem (fun w hw => ?_) m
    exact lastWrite_eq_none.1 h ⟨w.key, m w.key⟩ (mem_map.2 ⟨w, hw, rfl⟩)

end Kv
