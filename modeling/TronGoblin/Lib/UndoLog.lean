import Mathlib.Logic.Function.Basic

/-!
# Undo logs

A log of reversing entries, the newest first.  A scope remembers the length of the log when it is entered,
and is undone by unwinding the log to that length.

* `unwindTo`: pop entries down to a length and reverse each one; `unwindTo_append` is what it does when
  the entries above that length are known.
* `putBack`: an entry with the earlier value of one key.
-/

namespace UndoLog

variable {E W : Type}

/-- Reverse all entries, the newest first. -/
def undo (reverse : E → W → W) (log : List E) (w : W) : W := log.foldl (fun w e => reverse e w) w

/-- Pop and reverse entries until the log has the given length. -/
def unwindTo (reverse : E → W → W) (start : Nat) : List E → W → List E × W
  | [], w => ([], w)
  | e :: log, w => if start ≤ log.length then unwindTo reverse start log (reverse e w) else (e :: log, w)

variable {reverse : E → W → W} {w : W}

@[simp] theorem undo_nil : undo reverse [] w = w := rfl

@[simp] theorem undo_cons (e : E) (log : List E) :
    undo reverse (e :: log) w = undo reverse log (reverse e w) := rfl

theorem undo_append (new old : List E) : undo reverse (new ++ old) w = undo reverse old (undo reverse new w) := by
  simp [undo, List.foldl_append]

theorem unwindTo_self (log : List E) : unwindTo reverse log.length log w = (log, w) := by
  cases log with
  | nil => rfl
  | cons e log => rw [unwindTo, if_neg (by simp)]

theorem unwindTo_append (new old : List E) :
    unwindTo reverse old.length (new ++ old) w = (old, undo reverse new w) := by
  induction new generalizing w with
  | nil => exact unwindTo_self old
  | cons e new ih =>
    rw [List.cons_append, unwindTo, if_pos (by simp), ih, undo_cons]

/-! ## Earlier values -/

variable {K V : Type} [DecidableEq K]

def putBack (e : K × V) (f : K → V) : K → V := Function.update f e.1 e.2

theorem putBack_update (f : K → V) (k : K) (v : V) : putBack (k, f k) (Function.update f k v) = f := by
  simp [putBack]

/-- Whatever is written to a logged key is undone. -/
theorem undo_putBack_update {log : List (K × V)} {k : K} (hk : k ∈ log.map Prod.fst) (f : K → V) (v : V) :
    undo putBack log (Function.update f k v) = undo putBack log f := by
  induction log generalizing f with
  | nil => cases hk
  | cons e log ih =>
    rw [undo_cons, undo_cons]
    by_cases he : k = e.1
    · subst he
      simp [putBack]
    · have hk' : k ∈ log.map Prod.fst := by simpa [he] using hk
      rw [putBack, Function.update_comm he, ih hk']
      rfl

end UndoLog
