import TronGoblin.Index.ArchiveCapture
import TronGoblin.Index.ArchiveRetention
import TronGoblin.Lib.Checked

/-!
# The archive follows the chain

* `Tracks`: the versions of every key record its values from the base to some height, and the key list
  of every height above the base names the rows written there.
* `Placing`: rows for the changes from one height to another, with pins for the keys that had no row.
  Both the capture of a block and the repair of a gap are such rows; `Tracks.place` is the argument.
* `Tracks.unwind`: orphaned heights are taken back exactly.
* `Tracks.prune`: old versions are dropped.
* `tracks_reset`: coverage starts again.
-/

namespace TronGoblin.Archive

open List Option Store
open Versions (Records Serves)

/-- The key list of the height `g`: every row written at `g` is in it, and what else is in it are pins at
the base of keys without other rows below `g`, or rows that are not read any more. -/
def RingOk (s : Store) (b g : Nat) (bytes : Bytes) : Prop :=
  ∃ ring : List (StoreKey × Nat), decodeKeyList bytes = some (ring.map fun e => rowKey e.1 e.2) ∧
    (∀ e ∈ ring, e.2 ≤ maxI64) ∧
    (∀ k, versions s k g ≠ none → (k, g) ∈ ring) ∧
    ∀ e ∈ ring, e.2 = g ∨ e.2 < b ∨ e.2 = b ∧ ∀ r, r < g → r ≠ b → versions s e.1 r = none

structure Tracks (s : Store) (b n solidified : Nat) (hist : Nat → State) : Prop where
  baseAt : baseHeight s = some b
  base_le : b ≤ n
  bound : n ≤ maxI64
  shaped : Shaped s maxI64
  records : ∀ k, Records (versions s k) b n fun g => hist g k
  rings : ∀ g bytes, b < g → g ≤ n → s.contents (metaKeysAt g) = some bytes → RingOk s b g bytes
  future : ∀ g, n < g → g ≤ maxI64 → s.contents (metaKeysAt g) = none
  /-- The base is final, or no height up to it can be unwound. -/
  settled : b ≤ solidified ∨ ∀ g, g ≤ b → s.contents (metaKeysAt g) = none

section Tracks

variable {s s' : Store} {b n solidified : Nat} {hist hist' : Nat → State}

section

variable (h : Tracks s b n solidified hist)
include h

theorem Tracks.shaped_head : Shaped s n := by
  intro x v hx
  rcases h.shaped x v hx with hmeta | ⟨k, r, rfl, hr⟩
  · exact .inl hmeta
  · refine .inr ⟨k, r, rfl, ?_⟩
    rcases Nat.lt_or_ge r b with hlt | hge
    · exact hlt.le.trans h.base_le
    · have hv : versions s k r = some (decoded v) := by
        rw [versions, hx]
        rfl
      exact ((h.records k).value r _ hge hv).1

/-- A chain that agrees from the base on. -/
theorem Tracks.congr (heq : ∀ g, b ≤ g → g ≤ n → hist' g = hist g) : Tracks s b n solidified hist' := by
  refine { h with records := fun k => ?_ }
  have hk := h.records k
  refine ⟨fun r w hbr hr => ?_, fun H hbH hHn hf => ?_, hk.based⟩
  · obtain ⟨hrn, hw⟩ := hk.value r w hbr hr
    exact ⟨hrn, by rw [hw, heq r hbr hrn]⟩
  · rw [heq _ (Nat.le_succ_of_le hbH) hHn, heq H hbH hHn.le]
    exact hk.steady H hbH hHn hf

theorem Tracks.solidify {later : Nat} (hle : solidified ≤ later) : Tracks s b n later hist :=
  { h with settled := h.settled.imp_left fun hb => hb.trans hle }

end

/-! ## New rows -/

/-- Rows for the changes from the height `n` to the height `n'`. -/
structure Placing (s : Store) (b n n' : Nat) (hist : Nat → State) (placed : List Placed) : Prop where
  entry : ∀ p ∈ placed, ∃ k r, p.2 = put (rowKey k r) (encValue (hist r k)) ∧ n < p.1 ∧ p.1 ≤ n' ∧
    (r = p.1 ∨ r = b ∧ versions s k b = none)
  change : ∀ k g, n ≤ g → g < n' → hist (g + 1) k ≠ hist g k → ∃ p ∈ placed, p.2.key = rowKey k (g + 1)
  pinned : ∀ p ∈ placed, ∀ k r, p.2.key = rowKey k r → versions s k b ≠ none ∨ ∃ q ∈ placed, q.2.key = rowKey k b
  /-- A key is pinned by its first write. -/
  first : ∀ p ∈ placed, ∀ k, p.2.key = rowKey k b → ∀ q ∈ placed, ∀ r, q.2.key = rowKey k r → r = b ∨ p.1 ≤ r

section Placing

variable {n' : Nat} {placed : List Placed}

section

variable (hp : Placing s b n n' hist placed)
include hp

theorem Placing.tag {op : WriteOp} (hop : op ∈ placed.map (·.2)) : op.key.head? = some tagRow := by
  obtain ⟨p, hmem, rfl⟩ := mem_map.1 hop
  obtain ⟨k, r, hput, -⟩ := hp.entry p hmem
  rw [hput]
  rfl

variable (hb : b ≤ n)
include hb

/-- A version afterwards is an old one, or the right one of a new row. -/
theorem Placing.versions_cases (hn' : n' ≤ maxI64) (k : StoreKey) (r : Nat) :
    (∃ p ∈ placed, p.2.key = rowKey k r ∧ versions (s.writeAll (placed.map (·.2))) k r = some (hist r k) ∧
        n < p.1 ∧ p.1 ≤ n' ∧ (r = p.1 ∨ r = b ∧ versions s k b = none)) ∨
      (∀ p ∈ placed, p.2.key ≠ rowKey k r) ∧ versions (s.writeAll (placed.map (·.2))) k r = versions s k r := by
  have hU := maxI64_lt_maxU64
  rcases versions_writeAll_cases s (placed.map (·.2)) k r with ⟨op, hop, hkey, hv⟩ | ⟨hnot, hv⟩
  · obtain ⟨p, hmem, rfl⟩ := mem_map.1 hop
    obtain ⟨l, r', hput, hlow, hhigh, hwhere⟩ := hp.entry p hmem
    have hkey' : rowKey k r = rowKey l r' := by rw [← hkey, hput, put_key]
    have hr' : r' < maxU64 := by
      rcases hwhere with rfl | ⟨rfl, -⟩ <;> omega
    obtain ⟨rfl, rfl⟩ := rowKey_inj hkey' hr'
    refine .inl ⟨p, hmem, hkey, ?_, hlow, hhigh, hwhere⟩
    rw [hv, hput, put_value, map_some, decoded_encValue]
  · exact .inr ⟨fun p hmem => hnot p.2 (mem_map_of_mem hmem), hv⟩

theorem Placing.records (hnn : n ≤ n') (hn' : n' ≤ maxI64) {k : StoreKey}
    (h : Records (versions s k) b n fun g => hist g k) :
    Records (versions (s.writeAll (placed.map (·.2))) k) b n' fun g => hist g k := by
  have hcases := hp.versions_cases hb hn' k
  refine h.extend hnn (fun g _ _ => rfl) (fun g hg => ?_) (fun g w hbg hw => ?_) (fun g _ hng hgn hnone => ?_)
    fun g hg => ?_
  · rcases hcases g with ⟨p, -, -, -, hlow, hhigh, rfl | ⟨rfl, -⟩⟩ | ⟨-, hsame⟩
    · -- a row above the height followed would be new
      cases hold : versions s k p.1 with
      | none => exact absurd hold hg
      | some w =>
        have hle := (h.value p.1 w (by omega) hold).1
        omega
    · exact .inr rfl
    · exact .inl hsame
  · rcases hcases g with ⟨p, -, -, hv, hlow, hhigh, hwhere⟩ | ⟨-, hsame⟩
    · rw [hv] at hw
      refine .inr ⟨?_, (some.inj hw).symm⟩
      rcases hwhere with rfl | ⟨rfl, -⟩ <;> omega
    · exact .inl (hsame ▸ hw)
  · by_contra hne
    obtain ⟨p, hmem, hkey⟩ := hp.change k g hng hgn hne
    rcases hcases (g + 1) with ⟨-, -, -, hv, -⟩ | ⟨hnot, -⟩
    · rw [hv] at hnone
      cases hnone
    · exact hnot p hmem hkey
  · rcases hcases b with ⟨-, -, -, hv, -⟩ | ⟨hnot, hsame⟩
    · rw [hv]
      exact some_ne_none _
    · rw [hsame]
      rcases hcases g with ⟨p, hmem, hkey, -⟩ | ⟨-, hold⟩
      · rcases hp.pinned p hmem k g hkey with hold | ⟨q, hq, hqkey⟩
        · exact hold
        · exact absurd hqkey (hnot q hq)
      · exact h.based g (hold ▸ hg)

theorem Placing.ring (hn' : n' ≤ maxI64) {g : Nat} (hg : n < g)
    (hbased : ∀ k r, versions s k r ≠ none → versions s k b ≠ none) (hfresh : ∀ k, versions s k g = none)
    (hshort : ∀ p ∈ placed, p.2.key.length < 2 ^ 16) (hcount : (ringOf placed g).length < 2 ^ 32) :
    RingOk (s.writeAll (placed.map (·.2))) b g (encodeKeyList (ringOf placed g)) := by
  have hU := maxI64_lt_maxU64
  have hcases := hp.versions_cases hb hn'
  -- the rows that the keys stand for
  have hrows : ∀ ps : List Placed, (∀ p ∈ ps, p ∈ placed) → ∃ ring : List (StoreKey × Nat),
      ps.map (·.2.key) = ring.map (fun e => rowKey e.1 e.2) ∧
        ∀ e ∈ ring, ∃ p ∈ ps, p.2.key = rowKey e.1 e.2 ∧ (e.2 = p.1 ∨ e.2 = b ∧ versions s e.1 b = none) := by
    intro ps hps
    induction ps with
    | nil => exact ⟨[], rfl, by simp⟩
    | cons p ps ih =>
      obtain ⟨ring, hring, hmem⟩ := ih fun q hq => hps q (mem_cons_of_mem _ hq)
      obtain ⟨k, r, hput, -, -, hwhere⟩ := hp.entry p (hps p mem_cons_self)
      have hkey : p.2.key = rowKey k r := by rw [hput, put_key]
      refine ⟨(k, r) :: ring, by rw [map_cons, map_cons, hring, hkey], fun e he => ?_⟩
      rcases mem_cons.1 he with rfl | he
      · exact ⟨p, mem_cons_self, hkey, hwhere⟩
      · obtain ⟨q, hq, hrest⟩ := hmem e he
        exact ⟨q, mem_cons_of_mem _ hq, hrest⟩
  obtain ⟨ring, hring, hmem⟩ := hrows (placed.filter (·.1 = g)) fun p hp => mem_of_mem_filter hp
  have hheight : ∀ e ∈ ring, e.2 = g ∨ e.2 = b ∧ versions s e.1 b = none := by
    intro e he
    obtain ⟨p, hpg, -, hwhere⟩ := hmem e he
    have hpg' : p.1 = g := by simpa using (mem_filter.1 hpg).2
    rwa [hpg'] at hwhere
  have hgU : ∀ p ∈ placed.filter (·.1 = g), g ≤ n' := by
    intro p hpg
    obtain ⟨-, -, -, -, hhigh, -⟩ := hp.entry p (mem_of_mem_filter hpg)
    have hpg' : p.1 = g := by simpa using (mem_filter.1 hpg).2
    omega
  refine ⟨ring, ?_, fun e he => ?_, fun k hk => ?_, fun e he => ?_⟩
  · rw [decodeKeyList_encodeKeyList hcount, ringOf, hring]
    intro key hkey
    obtain ⟨p, hpg, rfl⟩ := mem_map.1 hkey
    exact hshort p (mem_of_mem_filter hpg)
  · obtain ⟨p, hpg, -⟩ := hmem e he
    have hle := hgU p hpg
    rcases hheight e he with heq | ⟨heq, -⟩ <;> omega
  · rcases hcases k g with ⟨p, hpmem, hkey, -, -, hhigh, hwhere⟩ | ⟨-, hsame⟩
    · have hpg : p.1 = g := by
        rcases hwhere with heq | ⟨heq, -⟩ <;> omega
      have hin : p ∈ placed.filter (·.1 = g) := mem_filter.2 ⟨hpmem, by simpa using hpg⟩
      have hkeyin : p.2.key ∈ ring.map fun e => rowKey e.1 e.2 := hring ▸ mem_map_of_mem hin
      obtain ⟨e, he, heq⟩ := mem_map.1 hkeyin
      have hgU' := hgU p hin
      obtain ⟨rfl, hr⟩ := rowKey_inj (heq.trans hkey) (by omega)
      rw [← hr]
      exact he
    · exact absurd (hfresh k) (hsame ▸ hk)
  · rcases hheight e he with heq | ⟨heq, habsent⟩
    · exact .inl heq
    · refine .inr (.inr ⟨heq, fun r hr hne => ?_⟩)
      obtain ⟨p, hpg, hkey, -⟩ := hmem e he
      rw [heq] at hkey
      have hpg' : p.1 = g := by simpa using (mem_filter.1 hpg).2
      rcases hcases e.1 r with ⟨q, hq, hqkey, -⟩ | ⟨-, hsame⟩
      · rcases hp.first p (mem_of_mem_filter hpg) e.1 hkey q hq r hqkey with hrb | hle
        · exact absurd hrb hne
        · omega
      · rw [hsame]
        by_contra hv
        exact hbased e.1 r hv habsent

end

theorem Tracks.place (h : Tracks s b n solidified hist) (hp : Placing s b n n' hist placed) (hnn : n ≤ n')
    (hn' : n' ≤ maxI64) (hversions : versions s' = versions (s.writeAll (placed.map (·.2))))
    (hbase : baseHeight s' = baseHeight s) (hshaped : Shaped s' maxI64)
    (hrings : ∀ g bytes, g ≤ maxI64 → s'.contents (metaKeysAt g) = some bytes →
      n < g ∧ g ≤ n' ∧ bytes = encodeKeyList (ringOf placed g) ∨ s.contents (metaKeysAt g) = some bytes)
    (hshort : ∀ p ∈ placed, p.2.key.length < 2 ^ 16) (hcount : ∀ g, (ringOf placed g).length < 2 ^ 32) :
    Tracks s' b n' solidified hist := by
  have hU := maxI64_lt_maxU64
  have hb := h.base_le
  have hcases := hp.versions_cases hb hn'
  refine ⟨hbase.trans h.baseAt, hb.trans hnn, hn', hshaped, fun k => ?_, fun g bytes hbg hgn hring => ?_,
    fun g hg hgI => ?_, ?_⟩
  · rw [hversions]
    exact hp.records hb hnn hn' (h.records k)
  · rcases hrings g bytes (hgn.trans hn') hring with ⟨hng, -, rfl⟩ | hold
    · have hok := hp.ring hb hn' hng (fun k r => (h.records k).based r)
        (fun k => h.shaped_head.versions_eq_none hng (by omega) k) hshort (hcount g)
      rw [RingOk, hversions]
      exact hok
    · -- an older key list: its rows are where they were
      rcases Nat.lt_or_ge n g with hng | hgn'
      · rw [h.future g hng (hgn.trans hn')] at hold
        cases hold
      · obtain ⟨ring, hdec, hbound, hall, hwhere⟩ := h.rings g bytes hbg hgn' hold
        refine ⟨ring, hdec, hbound, fun k hk => hall k ?_, fun e he => ?_⟩
        · rw [hversions] at hk
          rcases hcases k g with ⟨p, -, -, -, hlow, -, heq | ⟨heq, -⟩⟩ | ⟨-, hsame⟩
          · omega
          · omega
          · rwa [hsame] at hk
        · refine (hwhere e he).imp_right fun hrest => hrest.imp_right fun hpin => ⟨hpin.1, fun r hr hne => ?_⟩
          rw [hversions]
          rcases hcases e.1 r with ⟨p, -, -, -, hlow, -, heq | ⟨heq, -⟩⟩ | ⟨-, hsame⟩
          · omega
          · exact absurd heq hne
          · rw [hsame]
            exact hpin.2 r hr hne
  · cases hring : s'.contents (metaKeysAt g) with
    | none => rfl
    | some bytes =>
      rcases hrings g bytes hgI hring with ⟨-, hle, -⟩ | hold
      · omega
      · rw [h.future g (by omega) hgI] at hold
        cases hold
  · refine h.settled.imp_right fun hnone g hg => ?_
    cases hring : s'.contents (metaKeysAt g) with
    | none => rfl
    | some bytes =>
      rcases hrings g bytes (by have := h.bound; omega) hring with ⟨hng, -⟩ | hold
      · omega
      · rw [hnone g hg] at hold
        cases hold

end Placing

/-! ## A captured block -/

/-- The row keys are short enough for a length of two bytes, and not too many for a count of four. -/
def WriteSet.Short (ws : WriteSet) : Prop :=
  (∀ w ∈ ws.writes, (rowKey w.key 0).length < 2 ^ 16) ∧ ws.writes.length < 2 ^ 31

theorem length_rowKey_eq (k : StoreKey) (g g' : Nat) : (rowKey k g).length = (rowKey k g').length := by
  rw [length_rowKey, length_rowKey]

section

variable (h : Tracks s b n solidified hist)
include h

/-- The value of a key without a row at the base has not changed since. -/
theorem Tracks.unchanged {k : StoreKey} (hk : versions s k b = none) {g : Nat} (hbg : b ≤ g) (hgn : g ≤ n)
    : hist g k = hist b k := by
  refine (h.records k).eq_of_gap le_rfl hbg hgn fun r _ _ => ?_
  by_contra hv
  exact (h.records k).based r hv hk

theorem Tracks.placing_capture {ws : WriteSet} (hnext : hist (n + 1) = ws.applyTo (hist n)) (hn : n + 1 ≤ maxI64) :
    Placing s b n (n + 1) hist (captureRows s b (n + 1) (ws.deltas (hist n))) := by
  have hU := maxI64_lt_maxU64
  have hb := h.base_le
  refine ⟨fun p hp => ?_, fun k g hng hgn hne => ?_, fun p hp k r hkey => ?_, fun p hp k hkey q hq r hqkey => ?_⟩
  · obtain ⟨w, hw, rfl | ⟨habsent, rfl⟩⟩ := mem_captureRows.1 hp
    · refine ⟨w.key, n + 1, ?_, Nat.lt_succ_self n, le_rfl, .inl rfl⟩
      rw [hnext, WriteSet.applyTo_of_mem hw]
    · have hnone := versions_eq_none.2 habsent
      refine ⟨w.key, b, ?_, Nat.lt_succ_self n, le_rfl, .inr ⟨rfl, hnone⟩⟩
      rw [h.unchanged hnone hb le_rfl]
  · obtain rfl : g = n := by omega
    have hk : ∃ w ∈ ws.writes, w.key = k := by
      by_contra hnot
      refine hne ?_
      rw [hnext, WriteSet.applyTo_of_not_mem fun w hw hkey => hnot ⟨w, hw, hkey⟩]
    obtain ⟨w, hw, rfl⟩ := hk
    exact ⟨_, mem_captureRows.2 ⟨w, hw, .inl rfl⟩, rfl⟩
  · obtain ⟨w, hw, hwp⟩ := mem_captureRows.1 hp
    have hwk : w.key = k := by
      rcases hwp with rfl | ⟨-, rfl⟩
      · exact (rowKey_inj hkey.symm (by omega)).1.symm
      · exact (rowKey_inj hkey.symm (by omega)).1.symm
    subst hwk
    by_cases hv : versions s w.key b = none
    · exact .inr ⟨_, mem_captureRows.2 ⟨w, hw, .inr ⟨versions_eq_none.1 hv, rfl⟩⟩, rfl⟩
    · exact .inl hv
  · have hpn : p.1 = n + 1 := by
      obtain ⟨w, -, rfl | ⟨-, rfl⟩⟩ := mem_captureRows.1 hp <;> rfl
    obtain ⟨w, -, rfl | ⟨-, rfl⟩⟩ := mem_captureRows.1 hq
    · exact .inr (by rw [hpn, (rowKey_inj hqkey.symm (by omega)).2])
    · exact .inl (rowKey_inj hqkey.symm (by omega)).2

end

theorem length_captureRows (s : Store) (base height : Nat) (deltas : List DeltaRef) :
    (captureRows s base height deltas).length ≤ 2 * deltas.length := by
  induction deltas with
  | nil => exact Nat.zero_le _
  | cons d deltas ih =>
    have hpin : (pinAt s base d.key height d.before).length ≤ 1 := by
      rw [pinAt]
      split <;> simp
    rw [captureRows, flatMap_cons, ← captureRows, length_append, length_cons, length_cons]
    omega

theorem Tracks.capture (h : Tracks s b n solidified hist) {ws : WriteSet} (prev : Nat)
    (hnext : hist (n + 1) = ws.applyTo (hist n)) (hshort : ws.Short) (hn : n + 1 ≤ maxI64) :
    Tracks (captured s b prev (n + 1) (ws.deltas (hist n))) b (n + 1) solidified hist := by
  have hb := h.base_le
  have hring : ringOf (captureRows s b (n + 1) (ws.deltas (hist n))) (n + 1) =
      (captureRows s b (n + 1) (ws.deltas (hist n))).map (·.2.key) := by
    rw [ringOf, filter_eq_self.2]
    intro p hp
    obtain ⟨w, -, rfl | ⟨-, rfl⟩⟩ := mem_captureRows.1 hp <;> simp
  refine h.place (h.placing_capture hnext hn) (Nat.le_succ n) hn (versions_captured _) baseHeight_captured
    ((h.shaped_head.captured (by omega) (by omega)).mono hn) (fun g bytes hg hbytes => ?_) (fun p hp => ?_) fun g => ?_
  · rcases ring_captured hn hg with ⟨rfl, hc⟩ | ⟨-, hc | hc⟩
    · rw [hbytes, ← hring] at hc
      exact .inl ⟨Nat.lt_succ_self n, le_rfl, Option.some.inj hc⟩
    · simp [hbytes] at hc
    · exact .inr (hc.symm.trans hbytes)
  · obtain ⟨w, hw, rfl | ⟨-, rfl⟩⟩ := mem_captureRows.1 hp
    · rw [put_key, length_rowKey_eq w.key _ 0]
      exact hshort.1 w hw
    · rw [put_key, length_rowKey_eq w.key _ 0]
      exact hshort.1 w hw
  · have hlen := length_captureRows s b (n + 1) (ws.deltas (hist n))
    have hdeltas : (ws.deltas (hist n)).length = ws.writes.length := length_map _
    have hfilter := length_filter_le (fun p : Placed => decide (p.1 = g))
      (captureRows s b (n + 1) (ws.deltas (hist n)))
    have hcount := hshort.2
    rw [ringOf, length_map]
    omega

/-! ## Coverage starts -/

variable {height : Nat}

/-- A store without version rows and key lists. -/
theorem tracks_start (hbase : baseHeight s = some height) (hstart : height ≤ maxI64) (hshaped : Shaped s maxI64)
    (hversions : ∀ k r, versions s k r = none) (hrings : ∀ g, s.contents (metaKeysAt g) = none) :
    Tracks s height height solidified hist :=
  ⟨hbase, le_rfl, hstart, hshaped, fun k => .start (hversions k), fun g bytes _ _ hring =>
    absurd ((hrings g).symm.trans hring) (some_ne_none bytes).symm, fun g _ _ => hrings g,
    .inr fun g _ => hrings g⟩

theorem resetRows_tag (height : Nat) : ∀ op ∈ resetRows height, op.key.head? = some tagMeta := by
  intro op hop
  simp only [resetRows, mem_cons, not_mem_nil, or_false] at hop
  rcases hop with rfl | rfl | rfl <;> rfl

theorem head_reset (h : height ≤ maxI64) : head ((∅ : Store).writeAll (resetRows height)) = some height := by
  refine getI64_of_put h ?_
  simp only [resetRows, writeAll, foldl_cons, foldl_nil, contents_write_apply, put]
  rw [if_pos trivial]

theorem tracks_reset (h : height ≤ maxI64) :
    Tracks ((∅ : Store).writeAll (resetRows height)) height height solidified hist := by
  have hempty : ∀ x, (∅ : Store).contents x = none := fun x => rfl
  refine tracks_start ?_ h (Shaped.writeAll (fun x v hx => by rw [hempty] at hx; cases hx) fun op hop _ =>
    .inl (resetRows_tag height op hop)) (fun k r => ?_) fun g => ?_
  · refine getI64_of_put h ?_
    simp only [resetRows, writeAll, foldl_cons, foldl_nil, contents_write_apply, put]
    rw [if_neg (by decide), if_pos trivial]
  · rw [versions_writeAll_of_tag (resetRows_tag height)]
    rfl
  · rw [contents_writeAll_of_not_mem fun op hop => ?_, hempty]
    simp only [resetRows, mem_cons, not_mem_nil, or_false] at hop
    rcases hop with rfl | rfl | rfl <;> exact (metaKeysAt_ne g (by decide)).symm

/-! ## Reorgs -/

theorem unwindRing_eq_ok {g : Nat} {ops : List WriteOp} : unwindRing s g = .ok ops ↔
    ∃ bytes keys, s.contents (metaKeysAt g) = some bytes ∧ decodeKeyList bytes = some keys ∧
      ops = keys.map delete ++ [delete (metaKeysAt g)] := by
  rw [unwindRing]
  constructor
  · intro h
    split at h
    · cases h
    · next bytes hring =>
      split at h
      · cases h
      · next keys hdec => exact ⟨bytes, keys, hring, hdec, (Except.ok.inj h).symm⟩
  · rintro ⟨bytes, keys, hring, hdec, rfl⟩
    rw [hring]
    simp [hdec]

variable {a : Nat}

/-- An unwind that succeeds has found every key list, and deleted what is in them. -/
theorem unwindTo_eq_ok (h : unwindTo s a n = .ok s') :
    ∃ ops, s' = s.writeAll (ops ++ [put metaHead (beBytes a)]) ∧
      (∀ g, a < g → g ≤ n → ∃ bytes keys, s.contents (metaKeysAt g) = some bytes ∧
        decodeKeyList bytes = some keys ∧ (∀ key ∈ keys, delete key ∈ ops) ∧ delete (metaKeysAt g) ∈ ops) ∧
      ∀ op ∈ ops, ∃ g, a < g ∧ g ≤ n ∧ (op = delete (metaKeysAt g) ∨ ∃ bytes keys key,
        s.contents (metaKeysAt g) = some bytes ∧ decodeKeyList bytes = some keys ∧ key ∈ keys ∧ op = delete key) := by
  simp only [unwindTo, Checked.bind_eq_ok, Checked.pure_eq_ok] at h
  obtain ⟨lists, hlists, rfl⟩ := h
  obtain ⟨hfound, horigin⟩ := Checked.mem_of_mapM hlists
  refine ⟨lists.flatten, rfl, fun g hag hgn => ?_, fun op hop => ?_⟩
  · obtain ⟨ops, hmem, hops⟩ := hfound g (mem_reverse.2 (mem_heights.2 ⟨hag, hgn⟩))
    obtain ⟨bytes, keys, hring, hdec, rfl⟩ := unwindRing_eq_ok.1 hops
    refine ⟨bytes, keys, hring, hdec, fun key hkey => ?_, ?_⟩
    · exact mem_flatten.2 ⟨_, hmem, mem_append_left _ (mem_map_of_mem hkey)⟩
    · exact mem_flatten.2 ⟨_, hmem, mem_append_right _ (mem_singleton_self _)⟩
  · obtain ⟨ops, hmem, hop⟩ := mem_flatten.1 hop
    obtain ⟨g, hg, hops⟩ := horigin ops hmem
    obtain ⟨hag, hgn⟩ := mem_heights.1 (mem_reverse.1 hg)
    obtain ⟨bytes, keys, hring, hdec, rfl⟩ := unwindRing_eq_ok.1 hops
    refine ⟨g, hag, hgn, ?_⟩
    rcases mem_append.1 hop with hop | hop
    · obtain ⟨key, hkey, rfl⟩ := mem_map.1 hop
      exact .inr ⟨bytes, keys, key, hring, hdec, hkey, rfl⟩
    · exact .inl (mem_singleton.1 hop)

section

variable (h : Tracks s b n solidified hist)
include h

/-- What an unwind leaves of the versions: those in no key list that was taken back. -/
theorem Tracks.versions_unwound (hba : b ≤ a) (hok : unwindTo s a n = .ok s') (k : StoreKey) (r : Nat) :
    versions s' k r = versions s k r ∧ (a < r → versions s k r = none) ∨
      versions s' k r = none ∧ (a < r ∨ r < b ∨ r = b ∧ ∀ g, g ≤ a → g ≠ b → versions s k g = none) := by
  have hU := maxI64_lt_maxU64
  obtain ⟨ops, rfl, hfound, horigin⟩ := unwindTo_eq_ok hok
  rcases versions_writeAll_cases s (ops ++ [put metaHead (beBytes a)]) k r with ⟨op, hop, hkey, hv⟩ | ⟨hnot, hv⟩
  · rcases mem_append.1 hop with hop | hop
    · obtain ⟨g, hag, hgn, rfl | ⟨bytes, keys, key, hring, hdec, hkeys, rfl⟩⟩ := horigin op hop
      · exact absurd hkey (tag_ne (head?_rowKey k r) (head?_metaKey _)).symm
      · refine .inr ⟨hv, ?_⟩
        obtain ⟨ring, hdec', hbound, -, hwhere⟩ := h.rings g bytes (by omega) hgn hring
        rw [hdec, some.injEq] at hdec'
        rw [hdec'] at hkeys
        obtain ⟨e, he, heq⟩ := mem_map.1 hkeys
        have hbe := hbound e he
        obtain ⟨rfl, rfl⟩ := rowKey_inj (hkey.symm.trans heq.symm) (by omega)
        rcases hwhere e he with heq | hlt | ⟨heq, hnone⟩
        · exact .inl (by omega)
        · exact .inr (.inl hlt)
        · exact .inr (.inr ⟨heq, fun g' hg' hne => hnone g' (by omega) hne⟩)
    · rw [mem_singleton.1 hop] at hkey
      exact absurd hkey (tag_ne (head?_rowKey k r) (head?_metaKey _)).symm
  · refine .inl ⟨hv, fun har => ?_⟩
    -- a row that is written above `a` is in its key list
    by_contra hne
    rcases Nat.lt_or_ge n r with hnr | hrn
    · cases hold : versions s k r with
      | none => exact hne hold
      | some w =>
        have hle := ((h.records k).value r w (by omega) hold).1
        omega
    · obtain ⟨bytes, keys, hring, hdec, hdel, -⟩ := hfound r har hrn
      obtain ⟨ring, hdec', -, hall, -⟩ := h.rings r bytes (by omega) hrn hring
      rw [hdec, some.injEq] at hdec'
      have hin : rowKey k r ∈ keys := by
        rw [hdec']
        exact mem_map.2 ⟨(k, r), hall k hne, rfl⟩
      exact hnot _ (mem_append_left _ (hdel _ hin)) rfl

theorem Tracks.unwind (han : a < n) (hsol : solidified ≤ a) (hok : unwindTo s a n = .ok s')
    : Tracks s' b a solidified hist ∧ head s' = some a := by
  have hU := maxI64_lt_maxU64
  have hn := h.bound
  obtain ⟨ops, hs', hfound, horigin⟩ := unwindTo_eq_ok hok
  have hba : b ≤ a := by
    rcases h.settled with hb | hnone
    · exact hb.trans hsol
    · by_contra hlt
      obtain ⟨bytes, keys, hring, -⟩ := hfound (a + 1) (Nat.lt_succ_self a) han
      rw [hnone (a + 1) (by omega)] at hring
      cases hring
  have hversions := h.versions_unwound hba hok
  have hold : ∀ k r, versions s' k r ≠ none → versions s' k r = versions s k r ∧ r ≤ a := by
    intro k r hv
    rcases hversions k r with ⟨hsame, habove⟩ | ⟨hnone, -⟩
    · exact ⟨hsame, Nat.le_of_not_lt fun har => hv (hsame.trans (habove har))⟩
    · exact absurd hnone hv
  have hkeep : ∀ k r, b < r → r ≤ a → versions s' k r = versions s k r := by
    intro k r hbr hra
    rcases hversions k r with ⟨hsame, -⟩ | ⟨-, har | hrb | ⟨heq, -⟩⟩
    · exact hsame
    · omega
    · omega
    · omega
  have hring : ∀ g bytes, g ≤ maxI64 → s'.contents (metaKeysAt g) = some bytes →
      s.contents (metaKeysAt g) = some bytes ∧ (g ≤ a ∨ n < g) := by
    intro g bytes hg hbytes
    rw [hs'] at hbytes
    rcases s.contents_writeAll_cases (ops ++ [put metaHead (beBytes a)]) (metaKeysAt g) with
      ⟨op, hop, hkey, hc⟩ | ⟨hnot, hc⟩
    · rw [hc] at hbytes
      rcases mem_append.1 hop with hop | hop
      · obtain ⟨g', -, -, rfl | ⟨-, -, key, -, -, -, rfl⟩⟩ := horigin op hop <;> cases hbytes
      · rw [mem_singleton.1 hop] at hkey
        exact absurd hkey.symm (metaKeysAt_ne g (by decide))
    · refine ⟨by rw [← hc]; exact hbytes, ?_⟩
      by_contra hmid
      obtain ⟨-, -, -, -, -, hdel⟩ := hfound g (by omega) (by omega)
      exact hnot _ (mem_append_left _ hdel) rfl
  refine ⟨⟨?_, hba, by omega, ?_, fun k => ?_, fun g bytes hbg hga hbytes => ?_, fun g hag hgI => ?_, ?_⟩, ?_⟩
  · refine (getI64_congr ?_).trans h.baseAt
    rw [hs']
    refine contents_writeAll_of_not_mem fun op hop hkey => ?_
    rcases mem_append.1 hop with hop | hop
    · obtain ⟨g, hag, hgn, rfl | ⟨bytes, keys, key, hbytes, hdec, hkeys, rfl⟩⟩ := horigin op hop
      · exact metaKeysAt_ne g (by decide) hkey
      · obtain ⟨ring, hdec', -⟩ := h.rings g bytes (by omega) hgn hbytes
        rw [hdec, some.injEq] at hdec'
        rw [hdec'] at hkeys
        obtain ⟨e, -, heq⟩ := mem_map.1 hkeys
        exact metaKey_ne_rowKey _ _ _ (hkey.symm.trans heq.symm)
    · rw [mem_singleton.1 hop] at hkey
      exact absurd hkey (by rw [put_key]; decide)
  · rw [hs']
    refine h.shaped.writeAll fun op hop hne => ?_
    rcases mem_append.1 hop with hop | hop
    · obtain ⟨g, -, -, rfl | ⟨-, -, key, -, -, -, rfl⟩⟩ := horigin op hop <;> exact absurd rfl hne
    · rw [mem_singleton.1 hop]
      exact .inl rfl
  · refine (h.records k).restrict han.le (hkeep k) (fun r har => ?_) (fun r w hr => ?_) fun r hr => ?_
    · rcases hversions k r with ⟨hsame, habove⟩ | ⟨hnone, -⟩
      · exact hsame.trans (habove har)
      · exact hnone
    · rw [← (hold k r (by simp [hr])).1, hr]
    · -- a pin goes only with all other rows of its key
      obtain ⟨hsame, hra⟩ := hold k r hr
      have hbr := (h.records k).based r (hsame ▸ hr)
      rcases hversions k b with ⟨hsameb, -⟩ | ⟨hnone, hab | hbb | ⟨-, hothers⟩⟩
      · rwa [hsameb]
      · omega
      · omega
      · rcases eq_or_ne r b with rfl | hne
        · exact hr
        · exact absurd (hothers r hra hne) (hsame ▸ hr)
  · obtain ⟨ring, hdec, hbound, hall, hwhere⟩ := h.rings g bytes hbg (by omega) (hring g bytes (by omega) hbytes).1
    refine ⟨ring, hdec, hbound, fun k hk => hall k ((hold k g hk).1 ▸ hk), fun e he => ?_⟩
    refine (hwhere e he).imp_right fun hrest => hrest.imp_right fun hpin => ⟨hpin.1, fun r hr hne => ?_⟩
    by_contra hv
    exact hv ((hold e.1 r hv).1.trans (hpin.2 r hr hne))
  · cases hbytes : s'.contents (metaKeysAt g) with
    | none => rfl
    | some bytes =>
      obtain ⟨hbefore, hga | hng⟩ := hring g bytes hgI hbytes
      · omega
      · rw [h.future g hng hgI] at hbefore
        cases hbefore
  · refine h.settled.imp_right fun hnone g hg => ?_
    cases hbytes : s'.contents (metaKeysAt g) with
    | none => rfl
    | some bytes =>
      have hbefore := (hring g bytes (by omega) hbytes).1
      rw [hnone g hg] at hbefore
      cases hbefore
  · refine getI64_of_put (by omega) ?_
    rw [hs', writeAll_append, writeAll_singleton, contents_write_apply]
    exact if_pos rfl

end

theorem Tracks.prune (h : Tracks s b n solidified hist) {c : Nat} (hbc : b < c) (hcn : c ≤ n) (hsol : c ≤ solidified) :
    Tracks (pruneBelow s c) c n solidified hist ∧ head (pruneBelow s c) = head s := by
  have hn := h.bound
  have hret := pruneBelow_spec h.shaped_head hn h.baseAt hbc hcn fun k => (h.records k).serves.mono hbc.le
  have hring : ∀ g, (pruneBelow s c).contents (metaKeysAt g) = s.contents (metaKeysAt g) := fun g =>
    hret.others _ (head?_metaKey _) (metaKeysAt_ne g (by decide))
  refine ⟨⟨hret.baseAt, hcn, hn, hret.shaped.mono hn, fun k => ?_, fun g bytes hcg hgn hbytes => ?_,
    fun g hng hgI => ?_, .inl hsol⟩, getI64_congr (hret.others _ (head?_metaKey _) (by decide))⟩
  · refine (h.records k).rebase hbc.le hcn (hret.above k) (hret.value k) fun r hr => ?_
    rcases Nat.lt_or_ge c r with hcr | hrc
    · rw [hret.above k r hcr] at hr
      exact hret.kept k b hbc.le (.inl ((h.records k).based r hr))
    · exact hret.kept k r hrc (.inr hr)
  · rw [hring] at hbytes
    obtain ⟨ring, hdec, hbound, hall, hwhere⟩ := h.rings g bytes (by omega) hgn hbytes
    refine ⟨ring, hdec, hbound, fun k hk => hall k (hret.above k g hcg ▸ hk), fun e he => ?_⟩
    rcases hwhere e he with heq | hlt | ⟨heq, -⟩
    · exact .inl heq
    · exact .inr (.inl (by omega))
    · exact .inr (.inl (by omega))
  · rw [hring]
    exact h.future g hng hgI

end Tracks

end TronGoblin.Archive
