import TronGoblin.Index.ArchivePass

/-!
# A retention pass on its own

Without other writers a pass comes to its end: every scan consumes rows, and a flush only writes behind
the cursor.

* `Lone`: what holds of the store and the pass since the base was moved.
* `lone_step`: one step keeps it and leaves less to do; `lone_run`: the pass ends.
* `pruneBelow_spec`: what `prune_below` leaves: the versions above the floor, and the value at the floor
  for every key that had an older version.
-/

namespace TronGoblin.Archive

open Store (cursorAfter)
open Versions (Serves)

/-- How many steps are left at most. -/
def todo (s : Store) (p : Prune) : Nat :=
  match p.phase with
  | .start => 2 * (s.entriesFrom p.pass.cur).length + 3
  | .scan => 2 * (s.entriesFrom p.pass.cur).length + 2
  | .flush ended => if ended then 2 else 2 * (s.entriesFrom p.pass.cur).length + 3
  | .commit => 1
  | .done => 0

/-- **A pass with the floor `c` over the store `s₁`.** -/
structure Lone (s₁ : Store) (c n : Nat) (hist : Nat → StoreKey → Option Bytes) (s : Store) (p : Prune) :
    Prop where
  shaped : Shaped s n
  serves : ∀ k, Serves (versions s k) c n fun g => hist g k
  others : ∀ x, x.head? = some tagMeta → s.contents x = s₁.contents x
  above : ∀ k g, c < g → versions s k g = versions s₁ k g
  low : ∀ k r, r ≤ c → versions s₁ k r ≠ none → ∃ r', r' ≤ c ∧ versions s k r' ≠ none
  inv : p.phase ≠ .done → p.phase ≠ .start ∧ Pass.Inv s c (hist c) p.pass
  scanned : p.phase.ended → s.entriesFrom p.pass.cur = []
  finished : p.phase = .done → ∀ k r, r ≤ c → versions s k r ≠ none → versions s k c ≠ none

section Lone

variable {s₁ s s' : Store} {c n : Nat} {hist : Nat → StoreKey → Option Bytes} {p p' : Prune}

theorem Lone.swept (h : Lone s₁ c n hist s p) (hc : c < maxU64) (hcn : c ≤ n) (hswept : Swept c (hist c) s s')
    (hinv : p'.phase ≠ .done → p'.phase ≠ .start ∧ Pass.Inv s' c (hist c) p'.pass)
    (hscanned : p'.phase.ended → s'.entriesFrom p'.pass.cur = [])
    (hfinished : p'.phase = .done → ∀ k r, r ≤ c → versions s' k r ≠ none → versions s' k c ≠ none) :
    Lone s₁ c n hist s' p' where
  shaped := hswept.shaped h.shaped hcn
  serves k := hswept.serves hc hcn (h.serves k)
  others x hx := (hswept.contents hx).trans (h.others x hx)
  above k g hg := by
    rcases hswept.versions hc k with hsame | ⟨-, habove⟩
    · rw [hsame, h.above k g hg]
    · rw [habove g hg, h.above k g hg]
  low k r hr hv := by
    obtain ⟨r', hr', hv'⟩ := h.low k r hr hv
    rcases hswept.versions hc k with hsame | ⟨hpin, -⟩
    · exact ⟨r', hr', by rwa [hsame]⟩
    · exact ⟨c, le_rfl, by simp [hpin]⟩
  inv := hinv
  scanned := hscanned
  finished := hfinished

theorem lone_scan (h : Lone s₁ c n hist s p) (hn : n ≤ maxI64) (hcn : c ≤ n) (hp : p.phase = .scan) :
    Lone s₁ c n hist (passStep c s p).1 (passStep c s p).2 ∧ todo (passStep c s p).1 (passStep c s p).2 < todo s p := by
  have hU := maxI64_lt_maxU64
  have hpass := (h.inv (by simp [hp])).2
  have hanchor := anchored_of_serves hcn h.serves
  obtain ⟨hsame, hinv, hnext, hended, hless⟩ := passStep_scan h.shaped hn hanchor (hcn.trans hn) hp hpass
  rw [hsame]
  constructor
  · refine h.swept (by omega) hcn (.refl c (hist c) s) (fun _ => ⟨?_, hinv⟩) hended fun hdone => ?_
    · rcases hnext with hnext | ⟨ended, hnext⟩ | hnext <;> simp [hnext]
    · rcases hnext with hnext | ⟨ended, hnext⟩ | hnext <;> simp [hnext] at hdone
  · simp only [todo, hp]
    rcases hnext with hnext | ⟨ended, hnext⟩ | hnext
    · have hlt := hless.resolve_left (by simp [hnext])
      simp only [hnext]
      omega
    · have hlt := hless.resolve_left (by simp [hnext])
      simp only [hnext]
      split <;> omega
    · simp only [hnext]
      omega

/-- A flush writes behind the cursor. -/
theorem entriesFrom_flush (h : Pass.Inv s c (hist c) p.pass) :
    (s.writeAll p.pass.ops).entriesFrom p.pass.cur = s.entriesFrom p.pass.cur :=
  Store.entriesFrom_writeAll fun op hop => (h.legal op hop).2

theorem lone_step (h : Lone s₁ c n hist s p) (hn : n ≤ maxI64) (hcn : c ≤ n) (hp : p.phase ≠ .done) :
    Lone s₁ c n hist (passStep c s p).1 (passStep c s p).2 ∧ todo (passStep c s p).1 (passStep c s p).2 < todo s p := by
  have hU := maxI64_lt_maxU64
  obtain ⟨hstart, hinv⟩ := h.inv hp
  have hwrite : Swept c (hist c) s (s.writeAll p.pass.ops) :=
    ⟨p.pass.ops, fun op hop => (hinv.legal op hop).1, hinv.touched, rfl⟩
  have hscan := entriesFrom_flush hinv
  cases hphase : p.phase with
  | start => exact absurd hphase hstart
  | done => exact absurd hphase hp
  | scan => exact lone_scan h hn hcn hphase
  | flush ended =>
    have hended := h.scanned
    simp only [passStep, todo, hphase]
    refine ⟨h.swept (by omega) hcn hwrite (fun _ => ⟨?_, hinv.flush⟩) (fun hcommit => ?_) fun hdone => ?_, ?_⟩
    · cases ended <;> simp
    · cases ended with
      | false => cases hcommit
      | true => exact hscan.trans (hended (by rw [hphase]; rfl))
    · cases ended <;> simp at hdone
    · cases ended with
      | false =>
        simp only [hscan, Bool.false_eq_true, if_false]
        omega
      | true => simp
  | commit =>
    have hnil := h.scanned (by rw [hphase]; rfl)
    simp only [passStep, todo, hphase]
    refine ⟨h.swept (by omega) hcn hwrite (fun hne => absurd rfl hne) (fun hcommit => by cases hcommit)
      fun _ k r hr hv => ?_, Nat.zero_lt_one⟩
    -- nothing is stored from the cursor on, so every older version has been passed
    have hpin : Pinned s c (hist c) p.pass.ops k := by
      rcases versions_writeAll_cases s p.pass.ops k r with ⟨op, hop, hkey, -⟩ | ⟨-, hsame⟩
      · exact hinv.touched op hop k r hkey
      · have hv' : versions s k r ≠ none := hsame ▸ hv
        refine hinv.swept k r hr ?_ hv'
        rw [← LexOrder.not_isLE_iff]
        exact fun hle => hv' (versions_eq_none.2 (Store.entriesFrom_nil hnil hle))
    rw [show versions (s.writeAll p.pass.ops) k c = some (hist c k) from hpin]
    exact Option.some_ne_none _

theorem lone_run (hn : n ≤ maxI64) (hcn : c ≤ n) (fuel : Nat) (h : Lone s₁ c n hist s p) (hfuel : todo s p ≤ fuel) :
    Lone s₁ c n hist (passRun c fuel (s, p)).1 (passRun c fuel (s, p)).2 ∧ (passRun c fuel (s, p)).2.phase = .done := by
  induction fuel generalizing s p with
  | zero =>
    refine ⟨h, ?_⟩
    cases hphase : p.phase with
    | done => exact hphase
    | start => simp [todo, hphase] at hfuel
    | scan => simp [todo, hphase] at hfuel
    | commit => simp [todo, hphase] at hfuel
    | flush ended => cases ended <;> simp [todo, hphase] at hfuel
  | succ fuel ih =>
    rw [passRun]
    by_cases hdone : p.phase = .done
    · have hsame : passStep c s p = (s, p) := by rw [passStep, hdone]
      rw [hsame]
      exact ih h (by simp [todo, hdone])
    · obtain ⟨hstep, hless⟩ := lone_step h hn hcn hdone
      exact ih hstep (Nat.le_of_lt_succ (hless.trans_le hfuel))

end Lone

/-! ## The whole pass -/

variable {s : Store}

theorem passRun_of_done {c : Nat} {p : Prune} (h : p.phase = .done) (fuel : Nat) : passRun c fuel (s, p) = (s, p) := by
  induction fuel with
  | zero => rfl
  | succ fuel ih =>
    have hstep : passStep c s p = (s, p) := by rw [passStep, h]
    rw [passRun, hstep]
    exact ih

theorem pruneBelow_noop {b c : Nat} (hb : baseHeight s = some b) (hcb : c ≤ b) : pruneBelow s c = s := by
  rw [pruneBelow, passRun, passStep]
  simp only [Prune.begin, hb, Option.getD_some, if_pos hcb]
  rw [passRun_of_done rfl]

structure Retained (s s' : Store) (c n : Nat) (hist : Nat → StoreKey → Option Bytes) : Prop where
  baseAt : baseHeight s' = some c
  others : ∀ x, x.head? = some tagMeta → x ≠ metaBase → s'.contents x = s.contents x
  shaped : Shaped s' n
  above : ∀ k g, c < g → versions s' k g = versions s k g
  value : ∀ k w, versions s' k c = some w → w = hist c k
  kept : ∀ k r, r ≤ c → versions s k r ≠ none ∨ versions s' k r ≠ none → versions s' k c ≠ none

theorem pruneBelow_spec {b c n : Nat} {hist : Nat → StoreKey → Option Bytes} (hs : Shaped s n) (hn : n ≤ maxI64)
    (hb : baseHeight s = some b) (hbc : b < c) (hcn : c ≤ n)
    (hserves : ∀ k, Serves (versions s k) c n fun g => hist g k) : Retained s (pruneBelow s c) c n hist := by
  have hmeta : ∀ op ∈ [put metaBase (beBytes c)], op.key.head? = some tagMeta := by
    intro op hop
    obtain rfl := List.mem_singleton.1 hop
    rfl
  have hversions : versions (s.write (put metaBase (beBytes c))) = versions s :=
    versions_writeAll_of_tag (s := s) hmeta
  have hfirst : pruneBelow s c = (passRun c (2 * s.size + 7)
      (s.write (put metaBase (beBytes c)), ⟨.scan, Prune.begin.pass⟩)).1 := by
    rw [pruneBelow, passRun, passStep]
    simp [Prune.begin, hb, Option.getD_some, if_neg (Nat.not_le_of_lt hbc)]
  have hstart : Lone (s.write (put metaBase (beBytes c))) c n hist (s.write (put metaBase (beBytes c)))
      ⟨.scan, Prune.begin.pass⟩ := by
    refine ⟨?_, ?_, fun x _ => rfl, fun k g _ => rfl, fun k r hr hv => ⟨r, hr, hv⟩,
      fun _ => ⟨by simp, .begin _ _ _⟩, by simp [Phase.ended], by simp⟩
    · exact Shaped.writeAll (s := s) hs fun op hop _ => .inl (hmeta op hop)
    · rw [hversions]
      exact hserves
  have hsize : ((s.write (put metaBase (beBytes c))).entriesFrom [tagRow]).length ≤ s.size := by
    have hbehind : ∀ op ∈ [put metaBase (beBytes c)], compare op.key [tagRow] = .lt := by
      intro op hop
      obtain rfl := List.mem_singleton.1 hop
      rw [put_key]
      decide
    have hsame : (s.write (put metaBase (beBytes c))).entriesFrom [tagRow] = s.entriesFrom [tagRow] :=
      Store.entriesFrom_writeAll hbehind
    rw [hsame, Store.entriesFrom, ← Std.ExtTreeMap.length_toList]
    exact List.length_filter_le _ _
  have hfuel : todo (s.write (put metaBase (beBytes c))) ⟨.scan, Prune.begin.pass⟩ ≤ 2 * s.size + 7 := by
    simp only [todo, Prune.begin]
    omega
  obtain ⟨hlone, hdone⟩ := lone_run hn hcn (2 * s.size + 7) hstart hfuel
  rw [← hfirst] at hlone
  have hcI := hcn.trans hn
  refine ⟨?_, fun x hx hne => ?_, hlone.shaped, fun k g hg => ?_, fun k w hw => ?_, fun k r hr hv => ?_⟩
  · refine getI64_of_put hcI ((hlone.others _ (head?_metaKey _)).trans ?_)
    rw [Store.contents_write_apply]
    exact if_pos rfl
  · rw [hlone.others x hx, Store.contents_write_apply, put_key, if_neg (Ne.symm hne)]
  · rw [hlone.above k g hg, hversions]
  · exact (hlone.serves k).eq_of_last hcn le_rfl hw (by omega)
  · rcases hv with hv | hv
    · obtain ⟨r', hr', hv'⟩ := hlone.low k r hr (by rwa [hversions])
      exact hlone.finished hdone k r' hr' hv'
    · exact hlone.finished hdone k r hr hv

end TronGoblin.Archive
