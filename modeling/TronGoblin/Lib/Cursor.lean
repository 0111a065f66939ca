import Mathlib.Data.List.Basic

/-!
# Reading a byte string with a cursor

* `Reader`: reads a byte string from a position on, or fails.
* `Parses p w a`: `p` reads `a` off the bytes `w`, wherever they stand, and fails if the string ends inside them.
* `Parses.bind`, `Parses.many`: readers one after another.
* `Parses.run_eq`: a whole string, and the ones that are cut short.
-/

namespace Cursor

open List

abbrev Reader (ε : Type) := ReaderT (List UInt8) (StateT Nat (Except ε))

variable {ε α β : Type}

/-- The next `n` bytes; an error is told the position, `n` and how many bytes are left. -/
def take (short : Nat → Nat → Nat → ε) (n : Nat) : Reader ε (List UInt8) := fun src c =>
  if src.length < c + n then .error (short c n (src.length - c)) else .ok ((src.drop c).take n, c + n)

/-- A byte string after its length, which stands in `k` bytes. -/
def sized (short : Nat → Nat → Nat → ε) (num : List UInt8 → Nat) (k : Nat) : Reader ε (List UInt8) := do
  let n ← take short k
  take short (num n)

/-- What stands after a flag, if the flag says that there is something. -/
def optional (p : Reader ε α) (bad : UInt8 → ε) (flag : UInt8) : Reader ε (Option α) :=
  if flag = 1 then some <$> p else if flag = 0 then pure none else throw (bad flag)

def many (p : Reader ε α) : Nat → Reader ε (List α)
  | 0 => pure []
  | n + 1 => do
    let a ← p
    let rest ← many p n
    return a :: rest

def run (p : Reader ε α) (src : List UInt8) : Except ε α := (p src 0).map (·.1)

/-- A byte string with its length before it. -/
def putSized (len : Nat → List UInt8) (bs : List UInt8) : List UInt8 := len bs.length ++ bs

/-- `p` reads `a` off `w`, and fails if the string ends inside `w`. -/
structure Parses (p : Reader ε α) (w : List UInt8) (a : α) : Prop where
  whole : ∀ before after, p (before ++ (w ++ after)) before.length = .ok (a, before.length + w.length)
  short : ∀ before w', w' <+: w → w' ≠ w → ∃ e, p (before ++ w') before.length = .error e

namespace Parses

variable {p : Reader ε α} {w w' : List UInt8} {a : α} {short : Nat → Nat → Nat → ε} {bad : UInt8 → ε}

protected theorem pure (a : α) : Parses (pure a : Reader ε α) [] a where
  whole _ _ := rfl
  short _ _ hpre hne := absurd (prefix_nil.1 hpre) hne

/-- **Readers compose.**  A string that ends inside what both read ends inside the part of one of them. -/
protected theorem bind {f : α → Reader ε β} {b : β} (hp : Parses p w a) (hf : Parses (f a) w' b) :
    Parses (p >>= f) (w ++ w') b where
  whole before after := by
    have hrest := hf.whole (before ++ w) after
    rw [length_append, append_assoc, Nat.add_assoc] at hrest
    show (p _ _ >>= fun r => f r.1 _ r.2) = _
    rw [append_assoc, hp.whole before (w' ++ after), length_append]
    exact hrest
  short before v hpre hne := by
    show ∃ e, (p _ _ >>= fun r => f r.1 _ r.2) = .error e
    by_cases hw : w <+: v
    · obtain ⟨v, rfl⟩ := hw
      obtain ⟨e, he⟩ := hf.short (before ++ w) v ((prefix_append_right_inj w).1 hpre) fun h => hne (h ▸ rfl)
      rw [length_append, append_assoc] at he
      exact ⟨e, by rw [hp.whole before v]; exact he⟩
    · have hv := Or.resolve_left ( prefix_or_prefix_of_prefix (prefix_append w w') hpre) hw
      obtain ⟨e, he⟩ := hp.short before v hv fun h => hw (h ▸ prefix_rfl)
      exact ⟨e, by rw [he]; rfl⟩

protected theorem map (f : α → β) (h : Parses p w a) : Parses (f <$> p) w (f a) := by
  have hbind : Parses (p >>= fun a => pure (f a)) (w ++ []) (f a) := h.bind (.pure (f a))
  rwa [append_nil, bind_pure_comp] at hbind

protected theorem take {n : Nat} (hn : w.length = n) : Parses (take short n) w w where
  whole before after := by simp [take, ← hn]
  short before v hpre hne := by
    have hlt : v.length < w.length := Nat.lt_of_le_of_ne hpre.length_le fun h => hne (hpre.eq_of_length h)
    exact ⟨_, if_pos (by rw [length_append]; omega)⟩

protected theorem sized {num : List UInt8 → Nat} {len : Nat → List UInt8} {k : Nat}
    (hlen : (len w.length).length = k) (hnum : num (len w.length) = w.length) :
    Parses (sized short num k) (putSized len w) w :=
  (Parses.take hlen).bind (.take hnum.symm)

theorem optional_some (h : Parses p w a) : Parses (optional p bad 1) w (some a) := h.map some

theorem optional_none : Parses (optional p bad 0) [] none := .pure none

protected theorem many {enc : α → List UInt8} {l : List α} (h : ∀ a ∈ l, Parses p (enc a) a) :
    Parses (many p l.length) (l.flatMap enc) l := by
  induction l with
  | nil => exact .pure []
  | cons a l ih =>
    have hrest := ih fun b hb => h b (mem_cons_of_mem a hb)
    refine (h a mem_cons_self).bind ?_
    rw [bind_pure_comp]
    exact hrest.map (a :: ·)

/-- **What is read back whole is read from no part of it.** -/
theorem run_eq (h : Parses p w a) : run p w = .ok a ∧ ∀ w', w' <+: w → w' ≠ w → ∃ e, run p w' = .error e := by
  have hwhole := h.whole [] []
  rw [append_nil] at hwhole
  refine ⟨congrArg (Except.map Prod.fst) hwhole, fun w' hpre hne => ?_⟩
  obtain ⟨e, he⟩ := h.short [] w' hpre hne
  exact ⟨e, congrArg (Except.map Prod.fst) he⟩

end Parses

end Cursor
