import TronGoblin.Index.ArchiveReads

/-!
# The retention pass

What holds of a pass over the version rows while it goes on, whoever else writes in between.

* `Sweep`: the writes of a pass: the value at the floor is pinned there, rows below the floor are
  deleted.
* `Pass.Inv`: every key with a pending write, and every key with a row at or below the floor that the
  scan has passed, has its value at the floor once the pending writes are made.
* `Pass.Inv.rows`, `Pass.Inv.flush`, `Pass.Inv.foreign`: it is kept by the scan, by a flush, and by the
  writes of others that only add right pins.
* `passStep_inv`: one step writes as a pass does and keeps all this; `Swept.serves` reads it.
-/

namespace TronGoblin.Archive

open List Store Pass Archive
open Store (cursorAfter)

/-- A write of a pass with the floor `c`, where `V` are the values at the floor. -/
inductive Sweep (c : Nat) (V : StoreKey → Option Bytes) : WriteOp → Prop
  | pin (k : StoreKey) (bytes : Bytes) : decoded bytes = V k → Sweep c V (put (rowKey k c) bytes)
  | drop (k : StoreKey) (r : Nat) : r < c → Sweep c V (delete (rowKey k r))

/-- The key has its value at the floor there, once the pending writes are made. -/
def Pinned (s : Store) (c : Nat) (V : StoreKey → Option Bytes) (ops : List WriteOp) (k : StoreKey) : Prop :=
  versions (s.writeAll ops) k c = some (V k)

/-- The first version at or below the floor is the value at the floor. -/
def Anchored (s : Store) (c : Nat) (V : StoreKey → Option Bytes) : Prop :=
  ∀ k r w, r ≤ c → versions s k r = some w → (∀ g, r < g → g ≤ c → versions s k g = none) → w = V k

section Writes

variable {s : Store} {c : Nat} {V : StoreKey → Option Bytes} {op : WriteOp} {ops : List WriteOp}

theorem Sweep.tag (h : Sweep c V op) : op.key.head? = some tagRow := by
  cases h <;> rfl

theorem Sweep.key (h : Sweep c V op) : ∃ k r, op.key = rowKey k r ∧ r ≤ c := by
  cases h with
  | pin k bytes => exact ⟨k, c, rfl, le_rfl⟩
  | drop k r hr => exact ⟨k, r, rfl, hr.le⟩

variable {k : StoreKey}

/-- A write at the floor is the value there. -/
theorem Sweep.value_of_key (h : Sweep c V op) (hc : c < maxU64) (hkey : op.key = rowKey k c) :
    op.value.map decoded = some (V k) := by
  cases h with
  | pin l bytes hbytes =>
    obtain ⟨rfl, -⟩ := rowKey_inj hkey hc
    rw [← hbytes]
    rfl
  | drop l r hr =>
    have heq := (rowKey_inj hkey hc).2
    omega

variable (h : ∀ op ∈ ops, Sweep c V op)
include h

variable (hc : c < maxU64)
include hc

theorem versions_of_sweep {r : Nat} (hr : c < r) : versions (s.writeAll ops) k r = versions s k r := by
  rcases versions_writeAll_cases s ops k r with ⟨op, hop, hkey, -⟩ | ⟨-, heq⟩
  · obtain ⟨l, r', hl, hr'⟩ := (h op hop).key
    have heq := (rowKey_inj (hkey.symm.trans hl) (by omega)).2
    omega
  · exact heq

/-- At the floor a version stays, or it becomes the value there. -/
theorem floor_of_sweep (k : StoreKey) :
    versions (s.writeAll ops) k c = some (V k) ∨
      (∀ op ∈ ops, op.key ≠ rowKey k c) ∧ versions (s.writeAll ops) k c = versions s k c := by
  rcases versions_writeAll_cases s ops k c with ⟨op, hop, hkey, heq⟩ | hsame
  · exact .inl (heq.trans ((h op hop).value_of_key hc hkey))
  · exact .inr hsame

theorem Pinned.sweep {pending : List WriteOp} (hk : Pinned s c V pending k) : Pinned s c V (pending ++ ops) k := by
  rw [Pinned, writeAll_append]
  rcases floor_of_sweep (s := s.writeAll pending) h hc k with hpin | ⟨-, hsame⟩
  · exact hpin
  · exact hsame.trans hk

end Writes

/-! ## While the pass goes on -/

structure Pass.Inv (s : Store) (c : Nat) (V : StoreKey → Option Bytes) (p : Pass) : Prop where
  inRows : p.cur.head? = some tagRow
  /-- What is pending are writes of a pass, at keys the scan has passed. -/
  legal : ∀ op ∈ p.ops, Sweep c V op ∧ compare op.key p.cur = .lt
  touched : ∀ op ∈ p.ops, ∀ k r, op.key = rowKey k r → Pinned s c V p.ops k
  anchored : p.pastAnchor → ∀ k, p.group = groupKey k → Pinned s c V p.ops k ∧ compare (rowKey k c) p.cur = .lt
  swept : ∀ k r, r ≤ c → compare (rowKey k r) p.cur = .lt → versions s k r ≠ none → Pinned s c V p.ops k
  /-- Between the floor and an older row of a key, the anchor of this key has been passed. -/
  within : ∀ k r, compare (rowKey k c) p.cur = .lt → (compare p.cur (rowKey k r)).isLE →
    p.pastAnchor ∧ p.group = groupKey k

theorem Pass.Inv.begin (s : Store) (c : Nat) (V : StoreKey → Option Bytes) : Inv s c V Prune.begin.pass := by
  refine ⟨rfl, fun op hop => ?_, fun op hop => ?_, fun h => ?_, fun k r _ hlt => ?_, fun k r hlt => ?_⟩
  · cases hop
  · cases hop
  · cases h
  · cases hlt
  · cases hlt

/-- Where the scan stands after some rows. -/
def cursorOf (cur : Bytes) (chunk : List (Bytes × Bytes)) : Bytes :=
  chunk.foldl (fun _ e => cursorAfter e.1) cur

namespace Pass.Inv

variable {s : Store} {c : Nat} {V : StoreKey → Option Bytes} {p : Pass}

section

variable (h : Inv s c V p)
include h

/-- The pass goes on past the row `(l, r)` with more pending writes for `l`, after which `l` is pinned if
the row is at or below the floor. -/
theorem advance (hc : c ≤ maxI64) {l : StoreKey} {r : Nat} {v : Bytes} {rest : List (Bytes × Bytes)} (hr : r ≤ maxI64)
    (hscan : s.entriesFrom p.cur = (rowKey l r, v) :: rest) {ops : List WriteOp} {past : Bool}
    (hops : ∀ op ∈ ops, Sweep c V op) (hkeys : ∀ op ∈ ops, (compare op.key (rowKey l r)).isLE)
    (hnew : ∀ op ∈ ops, ∀ k g, op.key = rowKey k g → Pinned s c V (p.ops ++ ops) k) (hpast : past = true ↔ r ≤ c)
    (hpin : r ≤ c → Pinned s c V (p.ops ++ ops) l) :
    Inv s c V ⟨cursorAfter (rowKey l r), groupKey l, past, p.ops ++ ops⟩ := by
  have hU := maxI64_lt_maxU64
  obtain ⟨hstored, hle, hgap⟩ := entriesFrom_cons hscan
  have hcur : ∀ x, compare x p.cur = .lt → compare x (cursorAfter (rowKey l r)) = .lt := fun x hx =>
    lt_cursorAfter_iff.2 (by
      rw [Std.TransCmp.lt_of_lt_of_isLE hx hle]
      rfl)
  refine ⟨rfl, fun op hop => ?_, fun op hop k g hkey => ?_, fun hp k hk => ?_, fun k g hg hlt hv => ?_,
    fun k g hlow hhigh => ?_⟩
  · rcases mem_append.1 hop with hop | hop
    · exact ⟨(h.legal op hop).1, hcur _ (h.legal op hop).2⟩
    · exact ⟨hops op hop, lt_cursorAfter_iff.2 (hkeys op hop)⟩
  · rcases mem_append.1 hop with hop | hop
    · exact (h.touched op hop k g hkey).sweep hops (by omega)
    · exact hnew op hop k g hkey
  · obtain rfl := groupKey_injective hk
    have hrc := hpast.1 hp
    exact ⟨hpin hrc, lt_cursorAfter_iff.2 ((le_rowKey_iff l (by omega) (by omega)).2 hrc)⟩
  · have hkl := lt_cursorAfter_iff.1 hlt
    by_cases hold : compare (rowKey k g) p.cur = .lt
    · exact (h.swept k g hg hold hv).sweep hops (by omega)
    · -- from the cursor on, the row scanned is the first one that is stored
      have hfrom : (compare p.cur (rowKey k g)).isLE := by
        by_contra hnot
        exact hold ((LexOrder.not_isLE_iff _ _).1 hnot)
      have hsame : rowKey k g = rowKey l r := by
        by_contra hne
        refine hv (versions_eq_none.2 (hgap _ hfrom ?_))
        cases hcmp : compare (rowKey k g) (rowKey l r) with
        | lt => rfl
        | eq => exact absurd (Std.LawfulEqOrd.eq_of_compare hcmp) hne
        | gt =>
          rw [hcmp] at hkl
          cases hkl
      obtain ⟨rfl, rfl⟩ := rowKey_inj hsame (by omega)
      exact hpin hg
  · have hcl := lt_cursorAfter_iff.1 hlow
    have hlr : (compare (rowKey l r) (rowKey k g)).isLE := by
      rw [cursorAfter_le_iff.1 hhigh]
      rfl
    obtain rfl := eq_of_between hcl hlr
    exact ⟨hpast.2 ((le_rowKey_iff l (by omega) (by omega)).1 hcl), rfl⟩

theorem row (hs : Anchored s c V) (hc : c ≤ maxI64) {l : StoreKey} {r : Nat} {v : Bytes} {rest : List (Bytes × Bytes)}
    (hr : r ≤ maxI64) (hscan : s.entriesFrom p.cur = (rowKey l r, v) :: rest) :
    Inv s c V { p.row c (rowKey l r) v (groupKey l) r with cur := cursorAfter (rowKey l r) } := by
  have hU := maxI64_lt_maxU64
  obtain ⟨hstored, hle, hgap⟩ := entriesFrom_cons hscan
  have hversion : versions s l r = some (decoded v) := by
    rw [versions, hstored]
    rfl
  have hself : (compare (rowKey l r) (rowKey l r)).isLE := by
    rw [Std.ReflOrd.compare_self]
    rfl
  rw [Pass.row]
  split
  · next hpast =>
    -- the anchor of this key has been passed, so the row is older
    obtain ⟨hpin, hlow⟩ := h.anchored hpast.2 l hpast.1.symm
    have hrc : r < c := (lt_rowKey_iff l (by omega) (by omega)).1 (Std.TransCmp.lt_of_lt_of_isLE hlow hle)
    have hdrop : ∀ op ∈ [delete (rowKey l r)], Sweep c V op := by
      simpa using Sweep.drop l r hrc
    have hpin' := hpin.sweep hdrop (by omega)
    rw [hpast.2, ← hpast.1]
    refine h.advance hc hr hscan hdrop (by simp) ?_ (by simp; omega) fun _ => hpin'
    intro op hop k g hkey
    obtain rfl := mem_singleton.1 hop
    obtain ⟨rfl, -⟩ := rowKey_inj hkey.symm (by omega)
    exact hpin'
  · next hpast =>
    have hfloor : (compare p.cur (rowKey l c)).isLE := by
      by_contra hnot
      obtain ⟨hp, hg⟩ := h.within l r ((LexOrder.not_isLE_iff _ _).1 hnot) hle
      exact hpast ⟨hg.symm, hp⟩
    have hnone : ∀ g, r < g → g ≤ c → versions s l g = none := by
      intro g hrg hgc
      refine versions_eq_none.2 (hgap _ ?_ ((lt_rowKey_iff l (by omega) (by omega)).2 hrg))
      exact Std.TransCmp.isLE_trans hfloor ((le_rowKey_iff l (by omega) (by omega)).2 hgc)
    split
    · next hrc =>
      have hvalue : decoded v = V l := hs l r _ hrc hversion hnone
      split
      · next hlt =>
        -- the anchor below the floor moves to the floor
        have hops : ∀ op ∈ [put (rowKey l c) v, delete (rowKey l r)], Sweep c V op := by
          intro op hop
          rcases mem_pair.1 hop with rfl | rfl
          · exact .pin l v hvalue
          · exact .drop l r hlt
        have hne : rowKey l r ≠ rowKey l c := fun heq => by
          have hrc := (rowKey_inj heq (by omega)).2
          omega
        have hpin : Pinned s c V (p.ops ++ [put (rowKey l c) v, delete (rowKey l r)]) l := by
          rw [Pinned, append_cons, writeAll_append, writeAll_singleton, versions_write, delete_key, if_neg hne,
            writeAll_append, writeAll_singleton, versions_write, put_key, if_pos rfl, ← hvalue]
          rfl
        have hkeys : ∀ op ∈ [put (rowKey l c) v, delete (rowKey l r)], (compare op.key (rowKey l r)).isLE := by
          intro op hop
          rcases mem_pair.1 hop with rfl | rfl
          · exact (le_rowKey_iff l (by omega) (by omega)).2 hlt.le
          · exact hself
        refine h.advance hc hr hscan hops hkeys ?_ (by simp; omega) fun _ => hpin
        intro op hop k g hkey
        rcases mem_pair.1 hop with rfl | rfl
        · obtain ⟨rfl, -⟩ := rowKey_inj hkey.symm (by omega)
          exact hpin
        · obtain ⟨rfl, -⟩ := rowKey_inj hkey.symm (by omega)
          exact hpin
      · next hlt =>
        obtain rfl : r = c := by omega
        have hpin : Pinned s r V (p.ops ++ []) l := by
          rw [append_nil, Pinned]
          rcases floor_of_sweep (s := s) (fun op hop => (h.legal op hop).1) (by omega) l with hp | ⟨-, hsame⟩
          · exact hp
          · rw [hsame, hversion, hvalue]
        have hadv : Inv s r V ⟨cursorAfter (rowKey l r), groupKey l, true, p.ops ++ []⟩ :=
          h.advance hc hr hscan (by simp) (by simp) (by simp) (by simp) fun _ => hpin
        simpa using hadv
    · next hrc =>
      have hadv : Inv s c V ⟨cursorAfter (rowKey l r), groupKey l, false, p.ops ++ []⟩ :=
        h.advance hc hr hscan (by simp) (by simp) (by simp) (by simp; omega) fun hle => absurd hle hrc
      simpa using hadv

/-- A stored row from the cursor on is a version row. -/
theorem isRow {n : Nat} (hs : Shaped s n) {key v : Bytes} (hstored : s.contents key = some v)
    (hle : (compare p.cur key).isLE) : ∃ k r, key = rowKey k r ∧ r ≤ n := by
  rcases hs key v hstored with hmeta | hrow
  · have hlt : compare key p.cur = .lt := by
      cases key with
      | nil => cases hmeta
      | cons b key =>
        obtain ⟨cur, hcur⟩ := List.head?_eq_some_iff.1 h.inRows
        obtain rfl := Option.some.inj hmeta
        have htag : compare tagMeta tagRow = .lt := by decide
        rw [hcur, LexOrder.compare_cons, htag]
        rfl
    rw [Std.OrientedCmp.gt_of_lt hlt] at hle
    cases hle
  · exact hrow

end

theorem rows {n : Nat} (hs : Shaped s n) (hn : n ≤ maxI64) (hanchor : Anchored s c V) (hc : c ≤ maxI64)
    {cur : Bytes} {chunk rest : List (Bytes × Bytes)} (h : Pass.Inv s c V { p with cur := cur })
    (hscan : s.entriesFrom cur = chunk ++ rest) :
    ∃ p', Pass.rows c chunk p = (p', false) ∧ Pass.Inv s c V { p' with cur := cursorOf cur chunk } := by
  induction chunk generalizing p cur with
  | nil => exact ⟨p, rfl, h⟩
  | cons e chunk ih =>
    obtain ⟨key, v⟩ := e
    have hU := maxI64_lt_maxU64
    obtain ⟨hstored, hle, -⟩ := entriesFrom_cons hscan
    obtain ⟨l, r, rfl, hr⟩ := h.isRow hs hstored hle
    have hrow := h.row hanchor hc (by omega) hscan
    have hcomm : { ({ p with cur := cur } : Pass).row c (rowKey l r) v (groupKey l) r with
        cur := cursorAfter (rowKey l r) } =
        { p.row c (rowKey l r) v (groupKey l) r with cur := cursorAfter (rowKey l r) } := by
      simp only [Pass.row]
      split
      · rfl
      · split <;> rfl
    rw [hcomm] at hrow
    obtain ⟨p', hp', hinv⟩ := ih hrow (entriesFrom_next hscan)
    refine ⟨p', ?_, hinv⟩
    rw [Pass.rows, splitRowKey_rowKey l (by omega)]
    exact hp'

variable (h : Inv s c V p)
include h

theorem flush : Inv (s.writeAll p.ops) c V { p with ops := [] } := by
  refine ⟨h.inRows, by simp, by simp, h.anchored, fun k r hr hlt hv => ?_, h.within⟩
  rcases versions_writeAll_cases s p.ops k r with ⟨op, hop, hkey, -⟩ | ⟨-, hsame⟩
  · exact h.touched op hop k r hkey
  · exact h.swept k r hr hlt (hsame ▸ hv)

/-- Others write: versions up to the floor stay, but for pins of the value at the floor. -/
theorem foreign (hc : c < maxU64) {s' : Store} (hlow : ∀ k r, r < c → versions s' k r = versions s k r)
    (hpin : ∀ k, versions s' k c = versions s k c ∨ versions s' k c = some (V k) ∧ versions s k c = none) :
    Inv s' c V p := by
  have hlegal : ∀ op ∈ p.ops, Sweep c V op := fun op hop => (h.legal op hop).1
  have hkeep : ∀ k, Pinned s c V p.ops k → Pinned s' c V p.ops k := by
    intro k hk
    rcases versions_writeAll_cases s' p.ops k c with ⟨op, hop, hkey, heq⟩ | ⟨hnot, hsame⟩
    · exact heq.trans ((hlegal op hop).value_of_key hc hkey)
    · have hs : versions s k c = some (V k) := by
        rcases versions_writeAll_cases s p.ops k c with ⟨op, hop, hkey, -⟩ | ⟨-, heq⟩
        · exact absurd hkey (hnot op hop)
        · exact heq ▸ hk
      rcases hpin k with heq | ⟨heq, -⟩
      · exact hsame.trans (heq.trans hs)
      · exact hsame.trans heq
  refine ⟨h.inRows, h.legal, fun op hop k r hkey => hkeep k (h.touched op hop k r hkey),
    fun hp k hk => ⟨hkeep k (h.anchored hp k hk).1, (h.anchored hp k hk).2⟩, fun k r hr hlt hv => ?_, h.within⟩
  rcases Nat.lt_or_eq_of_le hr with hrc | rfl
  · exact hkeep k (h.swept k r hr hlt (hlow k r hrc ▸ hv))
  · rcases hpin k with heq | ⟨heq, -⟩
    · exact hkeep k (h.swept k r hr hlt (heq ▸ hv))
    · rcases floor_of_sweep (s := s') hlegal hc k with hp | ⟨-, hsame⟩
      · exact hp
      · exact hsame.trans heq

end Pass.Inv

/-! ## One step -/

/-- The store after writes of a pass: every key that is touched is pinned. -/
def Swept (c : Nat) (V : StoreKey → Option Bytes) (s s' : Store) : Prop :=
  ∃ ops : List WriteOp, (∀ op ∈ ops, Sweep c V op) ∧
    (∀ op ∈ ops, ∀ k r, op.key = rowKey k r → Pinned s c V ops k) ∧ s' = s.writeAll ops

theorem Swept.refl (c : Nat) (V : StoreKey → Option Bytes) (s : Store) : Swept c V s s :=
  ⟨[], by simp, by simp, rfl⟩

/-- The last chunk has been scanned. -/
def Phase.ended : Phase → Bool
  | .flush last => last
  | .commit => true
  | _ => false

/-- A pass that is under way, or over. -/
def Prune.Inv (s : Store) (c : Nat) (V : StoreKey → Option Bytes) (p : Prune) : Prop :=
  p.phase = .done ∨ p.phase ≠ .start ∧ Pass.Inv s c V p.pass

section Step

variable {s : Store} {c n : Nat} {V : StoreKey → Option Bytes} {p : Prune}

/-- What a scan of the next chunk does: it ends the scan, or goes on past some rows. -/
theorem passStep_scan (hs : Shaped s n) (hn : n ≤ maxI64) (hanchor : Anchored s c V) (hc : c ≤ maxI64)
    (hp : p.phase = .scan) (h : Inv s c V p.pass) :
    (passStep c s p).1 = s ∧ Inv s c V (passStep c s p).2.pass ∧
      ((passStep c s p).2.phase = .scan ∨ (∃ ended, (passStep c s p).2.phase = .flush ended) ∨
        (passStep c s p).2.phase = .commit) ∧
      ((passStep c s p).2.phase.ended → s.entriesFrom (passStep c s p).2.pass.cur = []) ∧
      ((passStep c s p).2.phase = .commit ∨
        (s.entriesFrom (passStep c s p).2.pass.cur).length < (s.entriesFrom p.pass.cur).length) := by
  rw [passStep, hp]
  simp only [scanFrom_eq]
  cases hlast : ((s.entriesFrom p.pass.cur).take chunkSize).getLast? with
  | none =>
    have hnil := (take_eq_nil_iff.1 (List.getLast?_eq_none_iff.1 hlast)).resolve_left (by decide)
    exact ⟨rfl, h, .inr (.inr rfl), fun _ => hnil, .inl rfl⟩
  | some last =>
    obtain ⟨front, hfront, hall⟩ := chunk_split hlast
    have hscan : s.entriesFrom p.pass.cur = (front ++ [last]) ++ (s.entriesFrom p.pass.cur).drop chunkSize := by
      rw [← hfront, take_append_drop]
    obtain ⟨p', hp', hinv⟩ := Inv.rows (p := p.pass) hs hn hanchor hc h hscan
    have hcur : cursorOf p.pass.cur (front ++ [last]) = cursorAfter last.1 := by
      rw [cursorOf, foldl_append]
      rfl
    rw [hcur] at hinv
    have hrest : s.entriesFrom (cursorAfter last.1) = (s.entriesFrom p.pass.cur).drop chunkSize :=
      entriesFrom_append hall
    have hfewer : (s.entriesFrom (cursorAfter last.1)).length < (s.entriesFrom p.pass.cur).length := by
      have hlen := congrArg List.length hall
      rw [length_append, length_cons, ← hrest] at hlen
      omega
    -- a chunk that is not full is the last one
    have hend : (front ++ [last]).length < chunkSize → s.entriesFrom (cursorAfter last.1) = [] := by
      intro hlt
      rw [← hfront, length_take] at hlt
      rw [hrest, drop_eq_nil_iff]
      omega
    simp only [hfront, hp', Bool.false_eq_true, if_false]
    refine ⟨trivial, hinv, ?_, ?_, .inr hfewer⟩
    · split
      · exact .inr (.inl ⟨_, rfl⟩)
      · split
        · exact .inr (.inr rfl)
        · exact .inl rfl
    · split
      · exact fun hended => hend (of_decide_eq_true hended)
      · split
        · next hended => exact fun _ => hend (of_decide_eq_true hended)
        · exact fun hended => by cases hended

theorem passStep_inv (hs : Shaped s n) (hn : n ≤ maxI64) (hanchor : Anchored s c V) (hc : c ≤ maxI64)
    (h : Prune.Inv s c V p) (hstart : p.phase ≠ .start) :
    Swept c V s (passStep c s p).1 ∧ Prune.Inv (passStep c s p).1 c V (passStep c s p).2 := by
  rcases h with hdone | ⟨-, hinv⟩
  · rw [passStep, hdone]
    exact ⟨.refl c V s, .inl hdone⟩
  · have hwrite : Swept c V s (s.writeAll p.pass.ops) :=
      ⟨p.pass.ops, fun op hop => (hinv.legal op hop).1, hinv.touched, rfl⟩
    cases hphase : p.phase with
    | start => exact absurd hphase hstart
    | scan =>
      obtain ⟨hsame, hpass, hnext, -, -⟩ := passStep_scan hs hn hanchor hc hphase hinv
      rw [hsame]
      refine ⟨.refl c V s, .inr ⟨?_, hpass⟩⟩
      rcases hnext with hnext | ⟨ended, hnext⟩ | hnext <;> simp [hnext]
    | flush ended =>
      rw [passStep, hphase]
      refine ⟨hwrite, .inr ⟨?_, hinv.flush⟩⟩
      cases ended <;> simp
    | commit =>
      rw [passStep, hphase]
      exact ⟨hwrite, .inl rfl⟩
    | done =>
      rw [passStep, hphase]
      exact ⟨.refl c V s, .inl hphase⟩

variable {s' : Store}

section

variable (h : Swept c V s s')
include h

/-- After writes of a pass: a key has the versions it had, or its value at the floor. -/
theorem Swept.versions (hc : c < maxU64) (k : StoreKey) :
    versions s' k = versions s k ∨ versions s' k c = some (V k) ∧ ∀ g, c < g → versions s' k g = versions s k g := by
  obtain ⟨ops, hops, htouched, rfl⟩ := h
  by_cases hk : ∃ op ∈ ops, ∃ r, op.key = rowKey k r
  · obtain ⟨op, hop, r, hkey⟩ := hk
    exact .inr ⟨htouched op hop k r hkey, fun g hg => versions_of_sweep hops hc hg⟩
  · refine .inl (funext fun r => ?_)
    rw [versions, contents_writeAll_of_not_mem, versions]
    exact fun op hop hkey => hk ⟨op, hop, r, hkey⟩

theorem Swept.shaped (hs : Shaped s n) (hcn : c ≤ n) : Shaped s' n := by
  obtain ⟨ops, hops, -, rfl⟩ := h
  refine hs.writeAll fun op hop _ => .inr ?_
  obtain ⟨k, r, hkey, hr⟩ := (hops op hop).key
  exact ⟨k, r, hkey, hr.trans hcn⟩

theorem Swept.contents {x : Bytes} (hx : x.head? = some tagMeta) : s'.contents x = s.contents x := by
  obtain ⟨ops, hops, -, rfl⟩ := h
  exact contents_writeAll_of_tag (fun op hop => (hops op hop).tag) hx

end

theorem Swept.serves {hist : Nat → StoreKey → Option Bytes} (h : Swept c (hist c) s s') (hc : c < maxU64)
    (hcn : c ≤ n) {k : StoreKey} (hserves : Versions.Serves (Archive.versions s k) c n fun g => hist g k) :
    Versions.Serves (Archive.versions s' k) c n fun g => hist g k := by
  rcases h.versions hc k with hsame | ⟨hpin, habove⟩
  · rwa [hsame]
  · exact hserves.repin hcn habove hpin

theorem anchored_of_serves {hist : Nat → StoreKey → Option Bytes} (hcn : c ≤ n)
    (h : ∀ k, Versions.Serves (versions s k) c n fun g => hist g k) : Anchored s c (hist c) :=
  fun k _ _ hr hv hgap => (h k).eq_of_last hcn hr hv hgap

end Step

end TronGoblin.Archive
