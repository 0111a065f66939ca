import TronGoblin.Index.ArchiveCapture
import TronGoblin.Index.ArchivePass

/-!
# Pruning while blocks are applied

The retention timer runs `prune_below` off the apply path (`tron-node/src/runtime.rs`), so blocks are
captured between its write batches, and a crash may cut the pass short.

* `Moment`, `step`: the chain, the archive and the pass; one step of the pass, one block, or a crash.
* `Exact`: every historical read in the reported coverage is right.
* `PinsRight`: each key that a block writes has a row at the coverage base, or had the same value there
  as right before the block.
* `exact_iff_pinsRight`: every moment of a run is exact if and only if every block is captured with
  right pins: a block that finds no row at the base pins its own pre-image there, which the base moved
  by the pass makes wrong.
-/

namespace TronGoblin.Archive

open List Option Function History
open History (after Each)
open Versions (newest Serves)

structure Moment where
  head : Nat
  /-- The canonical state after each block. -/
  hist : Nat → State
  archive : Store
  prune : Prune

open Moment

inductive Act
  | pass
  | block (ws : WriteSet)
  | crash

namespace Moment

def live (m : Moment) (store : StoreId) : Contents := fun key => m.hist m.head ⟨store, key⟩

def read (m : Moment) (k : StoreKey) (H : Nat) : Option Bytes :=
  ArchiveAtBackend.get ⟨m.live k.store, m.archive, k.store, H⟩ k.key

/-- Every read in the reported coverage is right. -/
def Exact (m : Moment) : Prop :=
  ∀ base top, coverage m.archive = some (base, top) → ∀ H, base ≤ H → H ≤ top → ∀ k, m.read k H = m.hist H k

/-- The block finds a row at the coverage base for each key it writes, or its pre-image is the value
there. -/
def PinsRight (m : Moment) (ws : WriteSet) : Prop :=
  ∀ base, baseHeight m.archive = some base → ∀ w ∈ ws.writes,
    m.archive.contents (rowKey w.key base) ≠ none ∨ m.read w.key base = m.hist m.head w.key

/-- The next head block is applied and captured. -/
def applied (src : Sources) (m : Moment) (ws : WriteSet) : Moment where
  head := m.head + 1
  hist := update m.hist (m.head + 1) (ws.applyTo (m.hist m.head))
  archive :=
    match onBlockApplied src m.archive (m.head + 1) (some (ws.deltas (m.hist m.head))) with
    | .ok s => s
    | .error _ => m.archive
  prune := m.prune

/-- One step of the pass, one block, or a crash, which drops what the pass holds in memory. -/
def step (src : Sources) (floor : Nat) (m : Moment) : Act → Moment
  | .pass => { m with archive := (passStep floor m.archive m.prune).1, prune := (passStep floor m.archive m.prune).2 }
  | .block ws => m.applied src ws
  | .crash => { m with prune := ⟨.done, Prune.begin.pass⟩ }

/-- An archive with exact coverage, and a pass that has not begun. -/
structure Opening (m : Moment) (base : Nat) : Prop where
  covered : coverage m.archive = some (base, m.head)
  base_le : base ≤ m.head
  shaped : Shaped m.archive m.head
  exact : m.Exact
  begun : m.prune = .begin

end Moment

/-! ## What holds at every moment -/

/-- The coverage, and reads that are right. -/
structure Covers (s : Store) (base n : Nat) (hist : Nat → State) : Prop where
  baseAt : baseHeight s = some base
  headAt : head s = some n
  base_le : base ≤ n
  bound : n ≤ maxI64
  shaped : Shaped s n
  serves : ∀ k, Serves (versions s k) base n fun g => hist g k

theorem Covers.coverage {s : Store} {base n : Nat} {hist : Nat → State} (h : Covers s base n hist) :
    Archive.coverage s = some (base, n) := by
  rw [Archive.coverage, h.baseAt, h.headAt]

section Covers

variable {m : Moment} {base : Nat}

theorem Covers.read (h : Covers m.archive base m.head m.hist) (k : StoreKey) {H : Nat} (hH : H ≤ m.head) :
    m.read k H = (newest (versions m.archive k) H).getD (m.hist m.head k) :=
  get_eq_newest h.shaped h.bound (hH.trans h.bound) _ k

theorem Covers.exact (h : Covers m.archive base m.head m.hist) : m.Exact := by
  intro b top hcov H hb hH k
  rw [h.coverage] at hcov
  cases hcov
  rw [h.read k hH]
  exact h.serves k H hb hH

theorem Moment.Opening.covers (h : m.Opening base) (hbound : m.head ≤ maxI64) :
    Covers m.archive base m.head m.hist := by
  have hcov := h.covered
  rw [coverage] at hcov
  split at hcov
  · next b top hb htop =>
    cases hcov
    refine ⟨hb, htop, h.base_le, hbound, h.shaped, fun k H hH hHn => ?_⟩
    have hread := h.exact _ _ h.covered H hH hHn k
    rwa [read, get_eq_newest h.shaped hbound (hHn.trans hbound)] at hread
  · cases hcov

/-- The pass, as far as it has come. -/
def Underway (floor : Nat) (m : Moment) (base : Nat) : Prop :=
  m.prune = .begin ∨ m.prune.phase = .done ∨
    base = floor ∧ m.prune.phase ≠ .start ∧ Pass.Inv m.archive floor (m.hist floor) m.prune.pass

/-- **What holds at every moment of an exact run.** -/
def Ok (floor : Nat) (m : Moment) : Prop :=
  floor ≤ m.head ∧ ∃ base, Covers m.archive base m.head m.hist ∧ Underway floor m base

end Covers

/-! ## A block -/

/-- The next head block goes straight to the capture. -/
theorem applied_archive (src : Sources) {m : Moment} {base : Nat} (h : Covers m.archive base m.head m.hist)
    (ws : WriteSet) :
    (m.applied src ws).archive = captured m.archive base m.head (m.head + 1) (ws.deltas (m.hist m.head)) := by
  have hprepare : prepare src m.archive (m.head + 1) (ws.deltas (m.hist m.head)) = .ok m.archive := by
    rw [prepare, h.headAt]
    simp
  have hres : onBlockApplied src m.archive (m.head + 1) (some (ws.deltas (m.hist m.head))) =
      .ok (captured m.archive base m.head (m.head + 1) (ws.deltas (m.hist m.head))) := by
    rw [onBlockApplied, hprepare, h.headAt]
    show Except.ok (captured m.archive ((baseHeight m.archive).getD _) m.head _ _) = _
    rw [h.baseAt]
    rfl
  rw [applied, hres]

section Block

variable {src : Sources} {m : Moment} {base : Nat} {ws : WriteSet}

theorem hist_applied (m : Moment) (ws : WriteSet) {g : Nat} (hg : g ≤ m.head) :
    (m.applied src ws).hist g = m.hist g := update_of_ne (by omega) _ _

theorem hist_applied_head (m : Moment) (ws : WriteSet) :
    (m.applied src ws).hist (m.head + 1) = ws.applyTo (m.hist m.head) := update_self _ _ _

/-- What does not depend on the pins. -/
theorem applied_frame (src : Sources) (ws : WriteSet) (h : Covers m.archive base m.head m.hist)
    (hbound : m.head + 1 ≤ maxI64) :
    baseHeight (m.applied src ws).archive = some base ∧ head (m.applied src ws).archive = some (m.head + 1) ∧
      Shaped (m.applied src ws).archive (m.head + 1) := by
  rw [applied_archive src h ws]
  refine ⟨baseHeight_captured.trans h.baseAt, head_captured hbound _, ?_⟩
  exact h.shaped.captured (by have := h.base_le; omega) (by omega)

section

variable (h : Covers m.archive base m.head m.hist)
include h

variable (hbound : m.head + 1 ≤ maxI64)
include hbound

/-- A key that the block writes is read right afterwards, if its pin is. -/
theorem serves_written {w : Kv.Write StoreKey Bytes} (hw : w ∈ ws.writes)
    (hpin : versions m.archive w.key base = none → m.hist base w.key = m.hist m.head w.key) :
    Serves (versions (m.applied src ws).archive w.key) base (m.head + 1)
      fun g => (m.applied src ws).hist g w.key := by
  have hU := maxI64_lt_maxU64
  have hbase := h.base_le
  have hlt : base < m.head + 1 := by omega
  obtain ⟨hnew, hpinned, hrest⟩ :=
    versions_capture m.archive (m.hist m.head) m.head hlt (by omega) hw
  rw [applied_archive src h ws]
  -- first the pin at the base, then the version of the block
  have hpinnedServes : Serves (update (versions m.archive w.key) base
      (some ((versions m.archive w.key base).getD (m.hist m.head w.key)))) base m.head fun g => m.hist g w.key := by
    refine (h.serves w.key).repin hbase (fun g hg => update_of_ne (by omega) _ _) ?_
    rw [update_self]
    cases hold : versions m.archive w.key base with
    | none => rw [getD_none, hpin hold]
    | some v =>
      exact congrArg some ((h.serves w.key).eq_of_last hbase le_rfl hold (by omega))
  refine hpinnedServes.push (by simp) (fun g hg => ?_) ?_ fun g hg => ?_
  · rcases eq_or_ne g base with rfl | hne
    · rw [hpinned, update_self]
    · rw [hrest g (by omega) hne, update_of_ne hne]
  · rw [hnew, hist_applied_head, WriteSet.applyTo_of_mem hw]
  · rw [hist_applied m ws hg]

theorem serves_unwritten {k : StoreKey} (hk : ∀ w ∈ ws.writes, w.key ≠ k) :
    Serves (versions (m.applied src ws).archive k) base (m.head + 1)
      fun g => (m.applied src ws).hist g k := by
  have hU := maxI64_lt_maxU64
  have hbase := h.base_le
  rw [applied_archive src h ws, versions_capture_of_ne (by omega) (by omega) hk]
  refine (h.serves k).idle hbase (h.shaped.versions_eq_none (by omega) (by omega) k) (fun g hg => ?_) ?_
  · rw [hist_applied m ws hg]
  · rw [hist_applied_head, WriteSet.applyTo_of_not_mem hk]

theorem covers_applied (hpins : m.PinsRight ws) :
    Covers (m.applied src ws).archive base (m.applied src ws).head (m.applied src ws).hist := by
  obtain ⟨hbase, hhead, hshaped⟩ := applied_frame src ws h hbound
  refine ⟨hbase, hhead, h.base_le.trans (Nat.le_succ _), hbound, hshaped, fun k => ?_⟩
  by_cases hk : ∃ w ∈ ws.writes, w.key = k
  · obtain ⟨w, hw, rfl⟩ := hk
    refine serves_written h hbound hw fun habsent => ?_
    have hread := (hpins base h.baseAt w hw).resolve_left fun hrow => hrow (versions_eq_none.1 habsent)
    rw [h.read w.key h.base_le, h.serves w.key base le_rfl h.base_le] at hread
    exact hread
  · exact serves_unwritten h hbound fun w hw hkey => hk ⟨w, hw, hkey⟩

theorem pinsRight_of_exact (hexact : (m.applied src ws).Exact) : m.PinsRight ws := by
  intro b hb w hw
  rw [h.baseAt] at hb
  obtain rfl := some.inj hb
  refine Classical.or_iff_not_imp_left.2 fun hrow => ?_
  have hU := maxI64_lt_maxU64
  have hbase := h.base_le
  have habsent : versions m.archive w.key base = none := versions_eq_none.2 (not_not.1 hrow)
  obtain ⟨hbaseAt, hheadAt, hshaped⟩ := applied_frame src ws h hbound
  have hcov : coverage (m.applied src ws).archive = some (base, m.head + 1) := by
    rw [coverage, hbaseAt, hheadAt]
  -- the block has pinned its pre-image, which is what is read now
  have hpinned : newest (versions (m.applied src ws).archive w.key) base = some (m.hist m.head w.key) := by
    apply Versions.newest_of_some
    have hlt : base < m.head + 1 := by omega
    rw [applied_archive src h ws, (versions_capture m.archive (m.hist m.head) m.head hlt (by omega) hw).2.1,
      habsent, getD_none]
  have hread := hexact base (m.head + 1) hcov base le_rfl (by omega) w.key
  rw [Moment.read, get_eq_newest hshaped hbound (by omega), hpinned, getD_some, hist_applied m ws hbase] at hread
  rw [h.read w.key hbase, h.serves w.key base le_rfl hbase]
  exact hread.symm

theorem inv_applied (hpins : m.PinsRight ws) (hinv : Pass.Inv m.archive base (m.hist base) m.prune.pass) :
    Pass.Inv (m.applied src ws).archive base ((m.applied src ws).hist base) m.prune.pass := by
  have hU := maxI64_lt_maxU64
  have hbase := h.base_le
  have hlt : base < m.head + 1 := by omega
  rw [hist_applied m ws hbase, applied_archive src h ws]
  refine hinv.foreign (by omega) (fun k r hr => ?_) fun k => ?_
  · by_cases hk : ∃ w ∈ ws.writes, w.key = k
    · obtain ⟨w, hw, rfl⟩ := hk
      exact (versions_capture m.archive (m.hist m.head) m.head hlt (by omega) hw).2.2 r (by omega) (by omega)
    · rw [versions_capture_of_ne (by omega) (by omega) fun w hw hkey => hk ⟨w, hw, hkey⟩]
  · by_cases hk : ∃ w ∈ ws.writes, w.key = k
    · obtain ⟨w, hw, rfl⟩ := hk
      rw [(versions_capture m.archive (m.hist m.head) m.head hlt (by omega) hw).2.1]
      cases hold : versions m.archive w.key base with
      | some v => exact .inl rfl
      | none =>
        have hread := (hpins base h.baseAt w hw).resolve_left fun hrow => hrow (versions_eq_none.1 hold)
        rw [h.read w.key hbase, h.serves w.key base le_rfl hbase] at hread
        exact .inr ⟨congrArg some hread.symm, rfl⟩
    · rw [versions_capture_of_ne (by omega) (by omega) fun w hw hkey => hk ⟨w, hw, hkey⟩]
      exact .inl rfl

end

theorem ok_block {floor : Nat} (h : Ok floor m) (hbound : m.head + 1 ≤ maxI64) (hpins : m.PinsRight ws) :
    Ok floor (m.applied src ws) := by
  obtain ⟨hfloor, base, hcov, hway⟩ := h
  refine ⟨hfloor.trans (Nat.le_succ _), base, covers_applied hcov hbound hpins, ?_⟩
  rcases hway with hbegin | hdone | ⟨rfl, hphase, hinv⟩
  · exact .inl hbegin
  · exact .inr (.inl hdone)
  · exact .inr (.inr ⟨rfl, hphase, inv_applied hcov hbound hpins hinv⟩)

end Block

/-! ## A step of the pass -/

section Pass

variable {src : Sources} {floor : Nat} {m : Moment}

/-- The base moves to the floor before any row is deleted. -/
theorem covers_rebased {base : Nat} (h : Covers m.archive base m.head m.hist) (hle : base ≤ floor)
    (hfloor : floor ≤ m.head) :
    Covers (m.archive.write (put metaBase (beBytes floor))) floor m.head m.hist ∧
      versions (m.archive.write (put metaBase (beBytes floor))) = versions m.archive := by
  have hmeta : ∀ op ∈ [put metaBase (beBytes floor)], op.key.head? = some tagMeta := by
    intro op hop
    obtain rfl := mem_singleton.1 hop
    rfl
  have hversions : versions (m.archive.write (put metaBase (beBytes floor))) = versions m.archive :=
    versions_writeAll_of_tag (s := m.archive) hmeta
  refine ⟨⟨?_, ?_, hfloor, h.bound, ?_, fun k => ?_⟩, hversions⟩
  · refine getI64_of_put (hfloor.trans h.bound) ?_
    rw [Store.contents_write_apply]
    exact if_pos rfl
  · refine (getI64_congr ?_).trans h.headAt
    rw [Store.contents_write_apply]
    exact if_neg (by rw [put_key]; decide)
  · exact Shaped.writeAll (s := m.archive) h.shaped fun op hop _ => .inl (hmeta op hop)
  · rw [hversions]
    exact (h.serves k).mono hle

theorem covers_swept {base : Nat} {s' : Store} (h : Covers m.archive base m.head m.hist)
    (hswept : Swept base (m.hist base) m.archive s') : Covers s' base m.head m.hist := by
  have hU := maxI64_lt_maxU64
  have hbase := h.base_le
  have hbound := h.bound
  refine ⟨?_, ?_, hbase, hbound, hswept.shaped h.shaped hbase, fun k => hswept.serves (by omega) hbase (h.serves k)⟩
  · exact (getI64_congr (hswept.contents rfl)).trans h.baseAt
  · exact (getI64_congr (hswept.contents rfl)).trans h.headAt

theorem ok_pass (h : Ok floor m) : Ok floor (m.step src floor .pass) := by
  obtain ⟨hfloor, base, hcov, hway⟩ := h
  rcases hway with hbegin | hdone | ⟨rfl, hphase, hinv⟩
  · rw [step, hbegin]
    simp only [passStep, Prune.begin, hcov.baseAt, getD_some]
    split
    · exact ⟨hfloor, base, hcov, .inr (.inl rfl)⟩
    · next hlt =>
      obtain ⟨hcov', hversions⟩ := covers_rebased hcov (by omega) hfloor
      exact ⟨hfloor, floor, hcov', .inr (.inr ⟨rfl, by simp, Pass.Inv.begin _ _ _⟩)⟩
  · rw [step, passStep, hdone]
    exact ⟨hfloor, base, hcov, .inr (.inl hdone)⟩
  · have hanchor := anchored_of_serves hcov.base_le hcov.serves
    obtain ⟨hswept, hinv'⟩ := passStep_inv hcov.shaped hcov.bound hanchor
      (hcov.base_le.trans hcov.bound) (.inr ⟨hphase, hinv⟩) hphase
    have hcov' := covers_swept hcov hswept
    refine ⟨hfloor, base, hcov', ?_⟩
    rcases hinv' with hdone | ⟨hne, hpass⟩
    · exact .inr (.inl hdone)
    · exact .inr (.inr ⟨rfl, hne, hpass⟩)

theorem ok_crash (h : Ok floor m) : Ok floor (m.step src floor .crash) := by
  obtain ⟨hfloor, base, hcov, -⟩ := h
  exact ⟨hfloor, base, hcov, .inr (.inl rfl)⟩

end Pass

/-! ## Runs -/

/-- The blocks are captured with right pins. -/
def RightPins (m : Moment) (a : Act) : Prop := ∀ ws, a = .block ws → m.PinsRight ws

section Runs

variable {src : Sources} {floor : Nat} {m₀ : Moment}

theorem head_step_le (m : Moment) (a : Act) : (m.step src floor a).head ≤ m.head + 1 := by
  cases a with
  | pass => exact Nat.le_succ _
  | block ws => exact le_rfl
  | crash => exact Nat.le_succ _

theorem ok_step {m : Moment} {a : Act} (h : Ok floor m) (hbound : m.head + 1 ≤ maxI64) (hpins : RightPins m a) :
    Ok floor (m.step src floor a) := by
  cases a with
  | pass => exact ok_pass h
  | block ws => exact ok_block h hbound (hpins ws rfl)
  | crash => exact ok_crash h

theorem head_run_le (src : Sources) (floor : Nat) (m₀ : Moment) (acts : List Act) :
    (after (step src floor) m₀ acts).head ≤ m₀.head + acts.length := by
  induction acts using List.reverseRecOn with
  | nil => exact le_rfl
  | append_singleton acts a ih =>
    rw [after_concat, length_append, length_singleton]
    exact (head_step_le _ a).trans (Nat.succ_le_succ ih)

theorem ok_run (h₀ : Ok floor m₀) {acts : List Act} (hbound : m₀.head + acts.length ≤ maxI64)
    (hpins : Each (step src floor) m₀ RightPins acts) : Ok floor (after (step src floor) m₀ acts) := by
  induction acts using List.reverseRecOn with
  | nil => exact h₀
  | append_singleton acts a ih =>
    rw [length_append, length_singleton] at hbound
    obtain ⟨hacts, ha⟩ := hpins.of_concat
    rw [after_concat]
    have hhead := head_run_le src floor m₀ acts
    exact ok_step (ih (by omega) hacts) (by omega) ha

theorem Moment.Opening.ok {base : Nat} (h : m₀.Opening base) (hfloor : floor ≤ m₀.head)
    (hbound : m₀.head ≤ maxI64) : Ok floor m₀ :=
  ⟨hfloor, base, h.covers hbound, .inl h.begun⟩

theorem Ok.exact {m : Moment} (h : Ok floor m) : m.Exact := by
  obtain ⟨-, base, hcov, -⟩ := h
  exact hcov.exact

theorem rightPins_of_exact (h₀ : Ok floor m₀) {acts : List Act} (hbound : m₀.head + acts.length ≤ maxI64)
    (hexact : ∀ part, part <+: acts → (after (step src floor) m₀ part).Exact) :
    Each (step src floor) m₀ RightPins acts := by
  induction acts using List.reverseRecOn with
  | nil => exact each_nil _
  | append_singleton acts a ih =>
    rw [length_append, length_singleton] at hbound
    have hacts := ih (by omega) fun part hpart => hexact part (hpart.trans (prefix_append _ _))
    refine hacts.concat ?_
    rintro ws rfl
    obtain ⟨-, base, hcov, -⟩ := ok_run h₀ (by omega) hacts
    have hhead := head_run_le src floor m₀ acts
    have hlast : ((after (step src floor) m₀ acts).applied src ws).Exact := by
      have hall := hexact (acts ++ [.block ws]) (prefix_refl _)
      rwa [after_concat] at hall
    exact pinsRight_of_exact hcov (by omega) hlast

/-- **Every moment of a pass is exact if and only if every block finds its keys pinned at the base, or
unchanged since.** -/
theorem exact_iff_pinsRight (src : Sources) {base : Nat} (h₀ : m₀.Opening base) (hfloor : floor ≤ m₀.head)
    (acts : List Act) (hbound : m₀.head + acts.length ≤ maxI64) :
    (∀ part, part <+: acts → (after (step src floor) m₀ part).Exact) ↔ Each (step src floor) m₀ RightPins acts := by
  have hok := h₀.ok hfloor (by omega)
  constructor
  · exact rightPins_of_exact hok hbound
  · intro hpins part hpart
    obtain ⟨rest, rfl⟩ := hpart
    rw [length_append] at hbound
    refine (ok_run hok (by omega) fun earlier a later heq => ?_).exact
    exact hpins earlier a (later ++ rest) (by rw [heq, append_assoc]; rfl)

end Runs

/-! ## A key that is not pinned yet -/

namespace Unpinned

/-- Neither an undo log nor live stores: the next head block needs none. -/
def sources : Sources := ⟨none, fun _ => none⟩

def key : StoreKey := ⟨.accounts, [0x41]⟩

def idle : WriteSet := ⟨[], nodup_nil⟩

def writing (v : UInt8) : WriteSet := ⟨[⟨key, some [v]⟩], nodup_singleton _⟩

/-- Coverage starts at height 0, in a state without keys. -/
def genesis : Moment := ⟨0, fun _ _ => none, (∅ : Store).writeAll (resetRows 0), .begin⟩

/-- After a block that writes nothing and a block that writes the key. -/
def opened : Moment := after (step sources 0) genesis [.block idle, .block (writing 1)]

theorem genesis_ok : Ok 0 genesis := by
  have hmeta : ∀ op ∈ resetRows 0, op.key.head? = some tagMeta := by decide
  refine ⟨le_rfl, 0, ⟨by decide +kernel, by decide +kernel, le_rfl, by decide, ?_, fun k => ?_⟩, .inl rfl⟩
  · exact Shaped.writeAll (fun x v hx => by cases hx) fun op hop _ => .inl (hmeta op hop)
  · exact (Versions.Records.start fun r => rfl).serves

/-- Both blocks find the key without any row. -/
theorem rightPins_opened : Each (step sources 0) genesis RightPins [.block idle, .block (writing 1)] := by
  refine Each.cons ?_ (Each.cons ?_ (each_nil _))
  · rintro ws ⟨⟩ b - w hw
    cases hw
  · rintro ws ⟨⟩ b hb w hw
    obtain rfl := mem_singleton.1 hw
    obtain rfl := some.inj hb
    exact .inr (by decide +kernel)

theorem opened_ok : Ok 0 opened := ok_run genesis_ok (by decide) rightPins_opened

theorem opened_opening : opened.Opening 0 := by
  obtain ⟨-, base, hcov, -⟩ := opened_ok
  have hbase : baseHeight opened.archive = some 0 := by decide +kernel
  rw [hcov.baseAt] at hbase
  obtain rfl := some.inj hbase
  exact ⟨hcov.coverage, hcov.base_le, hcov.shaped, hcov.exact, rfl⟩

/-- The key is written again when the pass has pinned it. -/
def rewritten : List Act := [.pass, .pass, .pass, .block (writing 2)]

theorem rightPins_rewritten : Each (step sources 1) opened RightPins rewritten := by
  have hpass : ∀ m, RightPins m .pass := fun m ws h => by cases h
  refine .cons (hpass _) (.cons (hpass _) (.cons (hpass _) (.cons ?_ (each_nil _))))
  rintro ws ⟨⟩ b hb w hw
  obtain rfl := mem_singleton.1 hw
  obtain rfl : 1 = b := some.inj hb
  exact .inl (by decide +kernel)

theorem exact_iff_pinsRight_rewritten : opened.Opening 0 ∧
    ∀ part, part <+: rewritten → (after (step sources 1) opened part).Exact :=
  ⟨opened_opening, (exact_iff_pinsRight sources opened_opening (by decide) rewritten (by decide)).2 rightPins_rewritten⟩

/-- **The base moves to height 1, the key is written again, and height 1 reads as height 2.** -/
theorem capture_pins_later_value : opened.Opening 0 ∧
    ¬ ∀ part, part <+: [.pass, .block (writing 2)] → (after (step sources 1) opened part).Exact := by
  refine ⟨opened_opening, fun h => ?_⟩
  have hexact := h _ (prefix_refl _) 1 3 (by decide +kernel) 1 le_rfl (by decide) key
  revert hexact
  decide +kernel

end Unpinned

end TronGoblin.Archive
