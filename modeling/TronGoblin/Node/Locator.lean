import TronGoblin.Consensus.KhaosPush

/-!
# The chain locator

How a node that asks for blocks says what it has (`build_chain_summary` of `sync.rs`), and which blocks a peer offers
(`serve_sync_block_chain_ids`).  The modes that follow the tip are off.

* `commonHeight_summary`: the peer finds a height that is at most as far below the fork as the head is above it.
* `locator_reaches_fork`: so the peer's answer starts there, and goes past the fork unless that is deep.
-/

namespace TronGoblin.Locator

open List

/-- The rows of the index, by height. -/
structure BlockIndexStore where
  rows : List (Int × BlockId)

open BlockIndexStore

namespace BlockIndexStore

variable (bi : BlockIndexStore)

def get (n : Int) : Option BlockId := bi.rows.lookup n

def lowest : Option Int := bi.rows.head?.map (·.1)

/-- The heights `low..high` have a block id of that height, and no others have one. -/
structure Spans (low high : Int) : Prop where
  nonempty : low ≤ high
  heights : bi.rows.map (·.1) = (range (high - low + 1).toNat).map fun i : Nat => low + i
  ids : ∀ row ∈ bi.rows, row.2.height = row.1 ∧ row.2.length = 32

end BlockIndexStore

/-- The loop of `build_chain_summary`. -/
def summaryFrom (bi : BlockIndexStore) (head n : Int) : List BlockId :=
  if n ≤ head then (bi.get n).toList ++ summaryFrom bi head (n + (head - n + 2) / 2) else []
termination_by (head + 1 - n).toNat
decreasing_by omega

def buildChainSummary (bi : BlockIndexStore) (head : Int) : List BlockId :=
  match bi.lowest with
  | some low => if low ≤ head then summaryFrom bi head low else []
  | none => []

structure LocatorEntry where
  hash : Bytes
  number : Int

/-- An id as it is sent. -/
def entry (id : BlockId) : LocatorEntry := ⟨id, id.height⟩

/-- The highest entry that is in the index, or the one found before. -/
def commonHeight (bi : BlockIndexStore) : Option Int → List LocatorEntry → Option Int
  | common, [] => common
  | common, e :: es =>
    if e.hash.length = 32 ∧ bi.get e.number = some e.hash then
      commonHeight bi (some (common.elim e.number (max · e.number))) es
    else commonHeight bi common es

/-- The ids from `n` on, up to a gap. -/
def walk (bi : BlockIndexStore) : Nat → Int → List BlockId
  | 0, _ => []
  | k + 1, n =>
    match bi.get n with
    | some id => id :: walk bi k (n + 1)
    | none => []

def SYNC_FETCH_BATCH_NUM : Int := 2000

def serveSyncBlockChainIds (bi : BlockIndexStore) (ourHead : Int) (locator : List LocatorEntry) : List BlockId × Int :=
  match commonHeight bi none locator with
  | none => ([], 0)
  | some start =>
    let stop := min (start + SYNC_FETCH_BATCH_NUM) ourHead
    let ids := walk bi (stop - start + 1).toNat start
    let remain :=
      match ids.getLast? with
      | some last => if last.height = stop ∧ 1 < ids.length then max (ourHead - last.height) 0 else 0
      | none => 0
    (ids, remain)

variable {bi bi' : BlockIndexStore} {low high n : Int}

theorem BlockIndexStore.mem_of_get {id : BlockId} (h : bi.get n = some id) : (n, id) ∈ bi.rows := by
  obtain ⟨_, _, hrows, -⟩ := lookup_eq_some_iff.1 h
  simp [hrows]

theorem BlockIndexStore.Spans.get_isSome (h : bi.Spans low high) : (bi.get n).isSome ↔ low ≤ n ∧ n ≤ high := by
  have hmem : (bi.get n).isSome ↔ n ∈ bi.rows.map (·.1) := by
    simp [get, lookup_isSome_iff, @eq_comm Int n]
  rw [hmem, h.heights, mem_map]
  constructor
  · rintro ⟨i, hi, rfl⟩
    rw [mem_range] at hi
    omega
  · intro hn
    exact ⟨(n - low).toNat, by rw [mem_range]; omega, by omega⟩

theorem BlockIndexStore.Spans.lowest (h : bi.Spans low high) : bi.lowest = some low := by
  have hpos : (high - low + 1).toNat = (high - low).toNat + 1 := by
    have := h.nonempty
    omega
  have hheights := h.heights
  rw [hpos, range_succ_eq_map, map_cons] at hheights
  rw [BlockIndexStore.lowest, ← head?_map, hheights]
  simp

/-- The rows up to `c` are the peer's too, and none above is. -/
structure Forks (bi bi' : BlockIndexStore) (c : Int) : Prop where
  agree : ∀ row ∈ bi.rows, row.1 ≤ c → bi'.get row.1 = some row.2
  differ : ∀ row ∈ bi.rows, c < row.1 → bi'.get row.1 ≠ some row.2

theorem commonHeight_above {c : Int} (h : bi.Spans low high) (hf : Forks bi bi' c) (common : Option Int)
    (hn : c < n) : commonHeight bi' common ((summaryFrom bi high n).map entry) = common := by
  fun_induction summaryFrom bi high n with
  | case1 n hle ih =>
    cases hid : bi.get n with
    | none => exact ih (by omega)
    | some id =>
      have hrow := mem_of_get hid
      simpa [commonHeight, entry, (h.ids _ hrow).1, hf.differ _ hrow hn] using ih (by omega)
  | case2 n hle => rfl

/-- **The peer finds a height near the fork.** -/
theorem commonHeight_summary {c : Int} (h : bi.Spans low high) (hf : Forks bi bi' c) (hc : c ≤ high)
    (common : Option Int) (hlow : low ≤ n) (hn : n ≤ c) (hcommon : ∀ a ∈ common, a ≤ n) :
    ∃ s, commonHeight bi' common ((summaryFrom bi high n).map entry) = some s ∧ n ≤ s ∧ s ≤ c ∧ c - s ≤ high - c := by
  fun_induction summaryFrom bi high n generalizing common with
  | case1 n hle ih =>
    obtain ⟨id, hid⟩ := Option.isSome_iff_exists.1 (h.get_isSome.2 ⟨hlow, hle⟩)
    have hrow := mem_of_get hid
    obtain ⟨hheight, hlen⟩ := h.ids _ hrow
    have hmax : common.elim n (max · n) = n := by
      cases common with
      | none => rfl
      | some a => exact Int.max_eq_right (hcommon a rfl)
    have hget := hf.agree _ hrow hn
    simp only [hid, Option.toList_some, singleton_append, map_cons, commonHeight, entry, hheight, hlen, hget, and_self,
      if_true, hmax]
    by_cases hnext : n + (high - n + 2) / 2 ≤ c
    · obtain ⟨s, hs, hle', hrest⟩ := ih (some n) (by omega) hnext (by simp; omega)
      exact ⟨s, hs, by omega, hrest⟩
    · exact ⟨n, commonHeight_above h hf _ (by omega), Int.le_refl n, hn, by omega⟩
  | case2 n hle => omega

theorem walk_eq {k : Nat} (h : ∀ i : Nat, i < k → (bi.get (n + i)).isSome) :
    (walk bi k n).map some = (range k).map fun i : Nat => bi.get (n + i) := by
  induction k generalizing n with
  | zero => rfl
  | succ k ih =>
    obtain ⟨id, hid⟩ := Option.isSome_iff_exists.1 (h 0 (Nat.zero_lt_succ k))
    have hrest := ih (n := n + 1) fun i hi => by
      have := h (i + 1) (by omega)
      rwa [show n + 1 + (i : Int) = n + ((i + 1 : Nat) : Int) by omega]
    rw [Int.natCast_zero, Int.add_zero] at hid
    have hshift (i : Nat) : n + 1 + (i : Int) = n + (i + 1) := by omega
    simp [walk, hid, hrest, range_succ_eq_map, Function.comp_def, hshift]

/-- The answer is the peer's chain from a common height `s` on, which is at most as far below the fork as the head is
above it, and says how much is left. -/
def Reaches (bi bi' : BlockIndexStore) (low high high' c : Int) : Prop :=
  ∃ s last, low ≤ s ∧ s ≤ c ∧ c - s ≤ high - c ∧ s ≤ last ∧ (high - c ≤ 1999 → c + 1 ≤ last) ∧
    let answer := serveSyncBlockChainIds bi' high' ((buildChainSummary bi high).map entry)
    answer.1.map some = (range (last - s + 1).toNat).map (fun i : Nat => bi'.get (s + i)) ∧ answer.2 = high' - last

/-- **The locator reaches the fork.** -/
theorem locator_reaches_fork {low' high' c : Int} (h : bi.Spans low high) (h' : bi'.Spans low' high')
    (hlow : low' ≤ low) (hf : Forks bi bi' c) (hc : low ≤ c) (hhead : c ≤ high) (hpeer : c < high') :
    Reaches bi bi' low high high' c := by
  obtain ⟨s, hs, hlows, hsc, hnear⟩ := commonHeight_summary h hf hhead none (Int.le_refl low) hc (by simp)
  have hstop : s < min (s + SYNC_FETCH_BATCH_NUM) high' := by
    rw [SYNC_FETCH_BATCH_NUM]
    omega
  refine ⟨s, min (s + SYNC_FETCH_BATCH_NUM) high', hlows, hsc, hnear, Int.le_of_lt hstop, ?_, ?_⟩
  · rw [SYNC_FETCH_BATCH_NUM]
    omega
  have hsummary : buildChainSummary bi high = summaryFrom bi high low := by
    simp [buildChainSummary, h.lowest, h.nonempty]
  simp only [hsummary, serveSyncBlockChainIds, hs]
  have hle : min (s + SYNC_FETCH_BATCH_NUM) high' ≤ high' := Int.min_le_right _ _
  generalize min (s + SYNC_FETCH_BATCH_NUM) high' = stop at hstop hle ⊢
  have hwalk := @walk_eq bi' s (stop - s + 1).toNat fun i hi => h'.get_isSome.2 (by omega)
  obtain ⟨last, hlast⟩ := Option.isSome_iff_exists.1 (h'.get_isSome.2 (show low' ≤ stop ∧ stop ≤ high' by omega))
  have hend : (walk bi' (stop - s + 1).toNat s).getLast? = some last := by
    have hlast' := congrArg getLast? hwalk
    rw [getLast?_map, getLast?_map, getLast?_range, if_neg (by omega), Option.map_some,
      show s + (((stop - s + 1).toNat - 1 : Nat) : Int) = stop by omega, hlast] at hlast'
    simpa using hlast'
  have hlen : (walk bi' (stop - s + 1).toNat s).length = (stop - s + 1).toNat := by
    simpa using congrArg length hwalk
  have hheight := (h'.ids _ (mem_of_get hlast)).1
  refine ⟨hwalk, ?_⟩
  rw [hend]
  dsimp only
  rw [if_pos ⟨hheight, by omega⟩, hheight]
  omega

def sampleId (n fork : UInt8) : BlockId := replicate 7 0 ++ n :: replicate 24 fork

def sampleIndex (ids : List BlockId) : BlockIndexStore := ⟨ids.map fun id => (id.height, id)⟩

theorem locator_reaches_fork_sample :
    Reaches (sampleIndex [sampleId 0 0, sampleId 1 0, sampleId 2 0])
      (sampleIndex [sampleId 0 0, sampleId 1 0, sampleId 2 1, sampleId 3 1]) 0 2 3 1 :=
  locator_reaches_fork ⟨by decide, by decide, by decide⟩ ⟨by decide, by decide, by decide⟩
    (show (0 : Int) ≤ 0 by decide) ⟨by decide, by decide⟩ (by decide) (by decide) (by decide)

end TronGoblin.Locator
