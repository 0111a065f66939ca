import TronGoblin.Index.ArchiveReads

/-!
# What a captured block leaves in the archive

* `WriteSet`: the writes of a block, one for each key; `deltas` adds the values before.
* `mem_captureRows`: the rows of a block: a version for each write, and a pin at the base for each key
  that has no row there.
* `versions_capture`, `versions_capture_of_ne`: the versions after the block.
* `head_captured`, `baseHeight_captured`, `ring_captured`: the head moves, the base stays, and a key list
  is added.
-/

namespace TronGoblin.Archive

open List

/-- The contents of all stores. -/
abbrev State := Kv.Map StoreKey Bytes

structure WriteSet where
  writes : List (Kv.Write StoreKey Bytes)
  distinct : (writes.map (·.key)).Nodup

namespace WriteSet

def applyTo (ws : WriteSet) (state : State) : State := Kv.applyAll ws.writes state

/-- The captured write-set, with the values before the block. -/
def deltas (ws : WriteSet) (state : State) : List DeltaRef :=
  ws.writes.map fun w => ⟨w.key, state w.key, w.value⟩

theorem applyTo_of_mem {ws : WriteSet} {w : Kv.Write StoreKey Bytes} (h : w ∈ ws.writes) (state : State) :
    ws.applyTo state w.key = w.value := by
  rw [applyTo, Kv.applyAll_apply, (Kv.mem_iff_lastWrite ws.distinct w).1 h]
  rfl

theorem applyTo_of_not_mem {ws : WriteSet} {k : StoreKey} (h : ∀ w ∈ ws.writes, w.key ≠ k) (state : State) :
    ws.applyTo state k = state k := by
  rw [applyTo, Kv.applyAll_of_not_mem h]

end WriteSet

section Capture

variable {s : Store} {ws : WriteSet} {state : State} {base height prev : Nat}

theorem mem_captureRows {p : Placed} :
    p ∈ captureRows s base height (ws.deltas state) ↔ ∃ w ∈ ws.writes,
      p = (height, put (rowKey w.key height) (encValue w.value)) ∨ s.contents (rowKey w.key base) = none ∧
          p = (height, put (rowKey w.key base) (encValue (state w.key))) := by
  simp only [captureRows, WriteSet.deltas, mem_flatMap, mem_map, pinAt]
  constructor
  · rintro ⟨d, ⟨w, hw, rfl⟩, hp⟩
    refine ⟨w, hw, ?_⟩
    rcases mem_cons.1 hp with rfl | hpin
    · exact .inl rfl
    · split at hpin
      · next habsent => exact .inr ⟨habsent, mem_singleton.1 hpin⟩
      · cases hpin
  · rintro ⟨w, hw, rfl | ⟨habsent, rfl⟩⟩
    · exact ⟨_, ⟨w, hw, rfl⟩, mem_cons_self⟩
    · refine ⟨_, ⟨w, hw, rfl⟩, mem_cons_of_mem _ ?_⟩
      rw [if_pos habsent]
      exact mem_singleton_self _

theorem tag_captureRows {op : WriteOp}
    (h : op ∈ (captureRows s base height (ws.deltas state)).map (·.2)) : op.key.head? = some tagRow := by
  obtain ⟨p, hp, rfl⟩ := mem_map.1 h
  obtain ⟨w, -, rfl | ⟨-, rfl⟩⟩ := mem_captureRows.1 hp <;> rfl

def captured (s : Store) (base prev height : Nat) (deltas : List DeltaRef) : Store :=
  s.writeAll (captureOps s base prev height deltas)

theorem versions_captured (deltas : List DeltaRef) : versions (captured s base prev height deltas) =
    versions (s.writeAll ((captureRows s base height deltas).map (·.2))) := by
  rw [captured, captureOps, append_assoc, Store.writeAll_append]
  refine versions_writeAll_of_tag fun op hop => ?_
  simp only [cons_append, mem_cons, mem_append, mem_map, not_mem_nil, or_false] at hop
  rcases hop with rfl | ⟨g, -, rfl⟩ | rfl <;> rfl

theorem versions_capture_cases (s : Store) (ws : WriteSet) (state : State) (prev : Nat) (hb : base < maxU64) (hh : height < maxU64) (k : StoreKey) (r : Nat) :
    (∃ w ∈ ws.writes, w.key = k ∧
      (r = height ∧ versions (captured s base prev height (ws.deltas state)) k r = some w.value ∨
        r = base ∧ versions s k base = none ∧
          versions (captured s base prev height (ws.deltas state)) k r = some (state k))) ∨
      (r = height → ∀ w ∈ ws.writes, w.key ≠ k) ∧
      (r = base → versions s k base = none → ∀ w ∈ ws.writes, w.key ≠ k) ∧
        versions (captured s base prev height (ws.deltas state)) k r = versions s k r := by
  rw [versions_captured]
  rcases versions_writeAll_cases s ((captureRows s base height (ws.deltas state)).map (·.2)) k r with
    ⟨op, hop, hkey, hv⟩ | ⟨hnot, hv⟩
  · obtain ⟨p, hp, rfl⟩ := mem_map.1 hop
    obtain ⟨w, hw, rfl | ⟨habsent, rfl⟩⟩ := mem_captureRows.1 hp
    · obtain ⟨rfl, rfl⟩ := rowKey_inj hkey.symm hh
      exact .inl ⟨w, hw, rfl, .inl ⟨rfl, by simpa using hv⟩⟩
    · obtain ⟨rfl, rfl⟩ := rowKey_inj hkey.symm hb
      exact .inl ⟨w, hw, rfl, .inr ⟨rfl, versions_eq_none.2 habsent, by simpa using hv⟩⟩
  · refine .inr ⟨?_, ?_, hv⟩
    · rintro rfl w hw rfl
      exact hnot _ (mem_map_of_mem (mem_captureRows.2 ⟨w, hw, .inl rfl⟩)) rfl
    · rintro rfl habsent w hw rfl
      exact hnot _ (mem_map_of_mem (mem_captureRows.2 ⟨w, hw, .inr ⟨versions_eq_none.1 habsent, rfl⟩⟩)) rfl

theorem versions_capture (s : Store) (state : State) (prev : Nat) (hbh : base < height) (hh : height < maxU64)
    {w : Kv.Write StoreKey Bytes} (hw : w ∈ ws.writes) :
    versions (captured s base prev height (ws.deltas state)) w.key height = some w.value ∧
      versions (captured s base prev height (ws.deltas state)) w.key base =
        some ((versions s w.key base).getD (state w.key)) ∧
      ∀ r, r ≠ height → r ≠ base →
        versions (captured s base prev height (ws.deltas state)) w.key r = versions s w.key r := by
  have hunique : ∀ u ∈ ws.writes, u.key = w.key → u = w := fun u hu hkey =>
    inj_on_of_nodup_map ws.distinct hu hw hkey
  have hcases := versions_capture_cases s ws state prev (hbh.trans hh) hh w.key
  refine ⟨?_, ?_, fun r hrh hrb => ?_⟩
  · rcases hcases height with ⟨u, hu, hkey, ⟨-, hv⟩ | ⟨heq, -⟩⟩ | ⟨hnot, -⟩
    · rwa [hunique u hu hkey] at hv
    · omega
    · exact absurd rfl (hnot rfl w hw)
  · rcases hcases base with ⟨u, -, -, ⟨heq, -⟩ | ⟨-, habsent, hv⟩⟩ | ⟨-, hnot, hv⟩
    · omega
    · rw [hv, habsent]
      rfl
    · cases hold : versions s w.key base with
      | none => exact absurd rfl (hnot rfl hold w hw)
      | some v => rw [hv, hold, Option.getD_some]
  · rcases hcases r with ⟨u, -, -, ⟨heq, -⟩ | ⟨heq, -⟩⟩ | ⟨-, -, hv⟩
    · exact absurd heq hrh
    · exact absurd heq hrb
    · exact hv

theorem versions_capture_of_ne (hb : base < maxU64) (hh : height < maxU64) {k : StoreKey}
    (hk : ∀ w ∈ ws.writes, w.key ≠ k) :
    versions (captured s base prev height (ws.deltas state)) k = versions s k := by
  funext r
  rcases versions_capture_cases s ws state prev hb hh k r with ⟨w, hw, hkey, -⟩ | ⟨-, -, hv⟩
  · exact absurd hkey (hk w hw)
  · exact hv

theorem mem_captureOps {deltas : List DeltaRef} {op : WriteOp} :
    op ∈ captureOps s base prev height deltas ↔ (∃ p ∈ captureRows s base height deltas, p.2 = op) ∨
        op = put (metaKeysAt height) (encodeKeyList ((captureRows s base height deltas).map (·.2.key))) ∨
        (∃ g ∈ expired prev height, delete (metaKeysAt g) = op) ∨ op = put metaHead (beBytes height) := by
  simp [captureOps, append_assoc, cons_append, mem_append, mem_cons, mem_map, not_mem_nil, or_false]

theorem head_captured (hh : height ≤ maxI64) (deltas : List DeltaRef) :
    head (captured s base prev height deltas) = some height := by
  refine getI64_of_put hh ?_
  rw [captured, captureOps, Store.writeAll_append, Store.writeAll_singleton, Store.contents_write_apply]
  exact if_pos rfl

theorem baseHeight_captured : baseHeight (captured s base prev height (ws.deltas state)) = baseHeight s := by
  refine getI64_congr (Store.contents_writeAll_of_not_mem fun op hop hkey => ?_)
  rcases mem_captureOps.1 hop with ⟨p, hp, rfl⟩ | rfl | ⟨g, -, rfl⟩ | rfl
  · exact tag_ne (tag_captureRows (mem_map_of_mem hp)) (head?_metaKey _) hkey
  · exact metaKeysAt_ne height (by decide) hkey
  · exact metaKeysAt_ne g (by decide) hkey
  · rw [put_key] at hkey
    exact absurd hkey (by decide)

/-- The key lists of other blocks stay, or are retired. -/
theorem ring_captured (hh : height ≤ maxI64) {g : Nat} (hg : g ≤ maxI64) :
    let ring := (captured s base prev height (ws.deltas state)).contents (metaKeysAt g)
    g = height ∧ ring = some (encodeKeyList ((captureRows s base height (ws.deltas state)).map (·.2.key))) ∨
      g ≠ height ∧ (ring = none ∨ ring = s.contents (metaKeysAt g)) := by
  have hU := maxI64_lt_maxU64
  rcases s.contents_writeAll_cases (captureOps s base prev height (ws.deltas state)) (metaKeysAt g) with
    ⟨op, hop, hkey, hc⟩ | ⟨hnot, hc⟩
  · rw [captured, hc]
    rcases mem_captureOps.1 hop with ⟨p, hp, rfl⟩ | rfl | ⟨g', hg', rfl⟩ | rfl
    · exact absurd hkey (tag_ne (tag_captureRows (mem_map_of_mem hp)) (head?_metaKey _))
    · exact .inl ⟨(metaKeysAt_inj (by omega) (by omega) hkey).symm, rfl⟩
    · -- only heights far below are retired
      have hretired := mem_heights.1 hg'
      have heq := metaKeysAt_inj (by omega) (by omega) hkey
      have hdepth : 0 < ringDepth := by decide
      exact .inr ⟨by omega, .inl rfl⟩
    · exact absurd hkey.symm (metaKeysAt_ne g (by decide))
  · refine .inr ⟨?_, .inr hc⟩
    rintro rfl
    exact hnot _ (mem_captureOps.2 (.inr (.inl rfl))) rfl

theorem Shaped.captured {n : Nat} (hs : Shaped s n) (hb : base ≤ height) (hn : n ≤ height) :
    Shaped (captured s base prev height (ws.deltas state)) height := by
  refine (hs.mono hn).writeAll fun op hop _ => ?_
  rcases mem_captureOps.1 hop with ⟨p, hp, rfl⟩ | rfl | ⟨g, -, rfl⟩ | rfl
  · obtain ⟨w, -, rfl | ⟨-, rfl⟩⟩ := mem_captureRows.1 hp
    · exact .inr ⟨w.key, height, rfl, le_rfl⟩
    · exact .inr ⟨w.key, base, rfl, hb⟩
  · exact .inl rfl
  · exact .inl rfl
  · exact .inl rfl

end Capture

end TronGoblin.Archive
