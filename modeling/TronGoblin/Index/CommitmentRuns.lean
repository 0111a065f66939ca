import TronGoblin.Index.CommitmentBuilder

/-!
# Roots along the canonical chain

The messages of applied blocks reach the builder or are dropped; blocks are replaced by reorgs that do
not go below the confirmed heights.

* `Folded`: the tree has the canonical write-sets up to the committed height, and what is buffered is
  canonical.
* `step_keeps`, `run_keeps`: one applied block, and a whole history.
* `commits_canonical`: every root that was committed is the one of the canonical chain at its height,
  if a message is dropped only while nothing is buffered at its height or above.
* `stale_write_set_folded`: what happens otherwise.
-/

namespace TronGoblin.Commitment

open Assoc List Option CommitmentBuilder Chain Index

/-! ## The chain -/

namespace Chain

variable {chain : Chain} {h n c : Int} {d : WriteSet}

@[simp] theorem apply_anchor : (chain.apply h d).anchor = chain.anchor := rfl

@[simp] theorem apply_highest : (chain.apply h d).highest = max chain.highest h := rfl

theorem apply_head (hlow : chain.anchor < h) (hhigh : h ≤ chain.head + 1) : (chain.apply h d).head = h := by
  simp only [head, apply, position, length_append, length_take, length_singleton] at *
  omega

theorem writeSetAt_apply_self (hlow : chain.anchor < h) (hhigh : h ≤ chain.head + 1) :
    (chain.apply h d).writeSetAt h = some d := by
  have hlen : (chain.blocks.take (chain.position h)).length = chain.position h := by
    simp only [head, position, length_take] at *
    omega
  rw [writeSetAt, apply_anchor, if_pos hlow]
  simp only [apply, position] at hlen ⊢
  rw [List.getElem?_append_right (by omega), hlen]
  simp

theorem writeSetAt_apply_lt (hn : n < h) (hhigh : h ≤ chain.head + 1) :
    (chain.apply h d).writeSetAt n = chain.writeSetAt n := by
  by_cases hlow : chain.anchor < n
  · rw [writeSetAt, apply_anchor, if_pos hlow, writeSetAt, if_pos hlow]
    simp only [head, apply, position] at *
    rw [List.getElem?_append_left (by rw [length_take]; omega), List.getElem?_take_of_lt (by omega)]
  · rw [writeSetAt, apply_anchor, if_neg hlow, writeSetAt, if_neg hlow]

theorem writeSetAt_isSome (hlow : chain.anchor < n) (hhigh : n ≤ chain.head) : (chain.writeSetAt n).isSome := by
  rw [writeSetAt, if_pos hlow, isSome_getElem?, position]
  unfold head at hhigh
  omega

theorem upTo_apply (hc : c < h) (hhigh : h ≤ chain.head + 1) : (chain.apply h d).upTo c = chain.upTo c := by
  simp only [upTo, head, apply, position] at *
  rw [take_append_of_le_length (by rw [length_take]; omega), take_take, Nat.min_eq_left (by omega)]

theorem upTo_succ (hc : chain.anchor ≤ c) (hd : chain.writeSetAt (c + 1) = some d) :
    chain.upTo (c + 1) = chain.upTo c ++ [d] := by
  rw [writeSetAt, if_pos (by omega), position,
    show (c + 1 - chain.anchor - 1).toNat = (c - chain.anchor).toNat by omega] at hd
  rw [upTo, show (c + 1 - chain.anchor).toNat = (c - chain.anchor).toNat + 1 by omega, take_add_one, hd]
  rfl

end Chain

/-! ## The tree and the buffer -/

section

variable (keccak256 : Bytes → NodeHash)

/-- The rows of the bootstrap and the blocks of the chain up to a height, as batches of the tree. -/
def canonical (rows : LiveRows) (chain : Chain) (height : Int) : List (List Change) :=
  rows.map (chunkChanges keccak256) ++ (chain.upTo height).map (changesOf keccak256)

/-- The builder has folded the canonical blocks up to `c` and has buffered canonical ones. -/
structure Folded (rows : LiveRows) (chain : Chain) (lag : Nat) (b : CommitmentBuilder) (c : Int) :
    Prop where
  lagged : b.confirmationLagBlocks = lag
  committed : b.committedHeight = some c
  tree : run keccak256 (canonical keccak256 rows chain c) = some b.smt
  commits : ∀ p ∈ b.commits, p.1 ≤ c ∧ ∃ s, run keccak256 (canonical keccak256 rows chain p.1) = some s ∧ s.root = p.2
  current : (c, b.smt.root) ∈ b.commits
  anchor_le : chain.anchor ≤ c
  confirmed : c = chain.anchor ∨ c ≤ chain.highest - lag
  seen : b.maxSeenHeight ≤ chain.highest
  pending : ∀ n d, b.pending.lookup n = some d → n ≤ b.maxSeenHeight ∧ chain.writeSetAt n = some d

/-- The blocks that no reorg may replace are on the chain. -/
def Chain.Confirmed (chain : Chain) (lag : Nat) : Prop := chain.highest - lag ≤ chain.head

/-- What a block that is applied must be: on top of the chain or in place of a block that is not
confirmed; the resume source has the confirmed heights of the canonical chain. -/
structure Lawful (chain : Chain) (lag : Nat) (e : Event) : Prop where
  above : chain.anchor < e.height
  linked : e.height ≤ chain.head + 1
  shallow : e.height ≤ chain.head → chain.highest - e.height < lag
  resume : ∀ n, chain.anchor < n → n ≤ max chain.highest e.height - lag →
    e.resume n = (chain.apply e.height e.deltas).writeSetAt n

def LawfulHistory (lag : Nat) : Chain → List Event → Prop
  | _, [] => True
  | chain, e :: events => Lawful chain lag e ∧ LawfulHistory lag (chain.apply e.height e.deltas) events

/-- A message is dropped only while the builder has nothing buffered at its height or above. -/
def ClearDrop (b : CommitmentBuilder) (e : Event) : Prop :=
  e.delivered = false → ∀ n, e.height ≤ n → b.pending.lookup n = none

def ClearDrops : Index → List Event → Prop
  | _, [] => True
  | s, e :: events =>
    ClearDrop s.builder e ∧ ∀ s', s.step keccak256 e = some s' → ClearDrops s' events

end

variable {keccak256 : Bytes → NodeHash} {rows live : LiveRows} {chain : Chain} {lag : Nat}
  {b b' : CommitmentBuilder} {c : Int} {d : WriteSet} {e : Event} {resume : Int → Option WriteSet}

theorem run_concat (batches : List (List Change)) (changes : List Change) :
    run keccak256 (batches ++ [changes]) = (run keccak256 batches).bind fun s => s.step keccak256 changes := by
  unfold run
  simp

theorem canonical_succ (hc : chain.anchor ≤ c) (hd : chain.writeSetAt (c + 1) = some d) :
    canonical keccak256 rows chain (c + 1) = canonical keccak256 rows chain c ++ [changesOf keccak256 d] := by
  simp [canonical, upTo_succ hc hd]

theorem canonical_apply {h : Int} (hc : c < h) (hhigh : h ≤ chain.head + 1) :
    canonical keccak256 rows (chain.apply h d) c = canonical keccak256 rows chain c := by
  rw [canonical, upTo_apply hc hhigh, canonical]

theorem Chain.Confirmed.apply (hchain : chain.Confirmed lag) (he : Lawful chain lag e) :
    (chain.apply e.height e.deltas).Confirmed lag := by
  have hshallow := he.shallow
  unfold Confirmed at *
  rw [apply_head he.above he.linked, apply_highest]
  omega

section

variable (h : Folded keccak256 rows chain lag b c)
include h

/-- What is committed is below every block that may be applied. -/
theorem Folded.committed_lt (hchain : chain.Confirmed lag) (he : Lawful chain lag e) : c < e.height := by
  have hshallow := he.shallow
  have habove := he.above
  unfold Confirmed at hchain
  rcases h.confirmed with hc | hc <;> omega

theorem Folded.foldHeight (hd : chain.writeSetAt (c + 1) = some d) (hc : c + 1 ≤ chain.highest - lag)
    (hfold : b.foldHeight keccak256 (c + 1) d = some b') :
    Folded keccak256 rows chain lag b' (c + 1) ∧ b'.maxSeenHeight = b.maxSeenHeight := by
  simp only [CommitmentBuilder.foldHeight, Option.bind_eq_bind, Option.bind_eq_some_iff,
    Option.pure_def, Option.some.injEq] at hfold
  obtain ⟨smt, hstep, rfl⟩ := hfold
  have htree : run keccak256 (canonical keccak256 rows chain (c + 1)) = some smt := by
    rw [canonical_succ h.anchor_le hd, run_concat, h.tree]
    exact hstep
  have hanchor := h.anchor_le
  refine ⟨{ h with
    committed := rfl
    tree := htree
    commits := ?_
    current := mem_cons_self
    anchor_le := by omega
    confirmed := Or.inr hc }, rfl⟩
  intro p hp
  rcases mem_cons.1 hp with rfl | hp
  · exact ⟨Int.le_refl _, smt, htree, rfl⟩
  · obtain ⟨hle, hroot⟩ := h.commits p hp
    exact ⟨by omega, hroot⟩

theorem Folded.erase (n : Int) : Folded keccak256 rows chain lag { b with pending := b.pending.erase n } c := by
  refine { h with pending := ?_ }
  intro n' d' hn'
  rw [lookup_erase_eq] at hn'
  split at hn'
  · cases hn'
  · exact h.pending n' d' hn'

theorem Folded.next_eq : b.next = some (c + 1) := by
  rw [CommitmentBuilder.next, h.committed]

theorem Folded.releaseTo_eq : b.releaseTo = b.maxSeenHeight - lag := by
  rw [releaseTo, h.lagged]

end

/-- The release loop folds canonical blocks only, and with enough fuel all confirmed ones. -/
theorem Folded.releaseFrom (hresume : ∀ n, chain.anchor < n → n ≤ chain.highest - lag → resume n = chain.writeSetAt n)
    (hheld : ∀ n, chain.anchor < n → n ≤ chain.highest - lag → (chain.writeSetAt n).isSome) (fuel : Nat)
    (h : Folded keccak256 rows chain lag b c) (hrelease : b.releaseFrom keccak256 live resume fuel = some b') :
    ∃ c', Folded keccak256 rows chain lag b' c' ∧ b'.maxSeenHeight = b.maxSeenHeight ∧
      ((b.maxSeenHeight - lag - c).toNat < fuel → b.maxSeenHeight - lag ≤ c') := by
  induction fuel generalizing b c with
  | zero =>
    cases hrelease
    exact ⟨c, h, rfl, fun hlt => absurd hlt (Nat.not_lt_zero _)⟩
  | succ fuel ih =>
    have hanchor := h.anchor_le
    have hseen := h.seen
    rw [releaseFrom, h.next_eq] at hrelease
    dsimp only at hrelease
    rw [h.releaseTo_eq] at hrelease
    split at hrelease
    · cases hrelease
      exact ⟨c, h, rfl, fun _ => by omega⟩
    · -- the next height is confirmed, so its block is the canonical one wherever it comes from
      have hconfirmed : c + 1 ≤ chain.highest - lag := by omega
      obtain ⟨d, hd⟩ := isSome_iff_exists.1 (hheld (c + 1) (by omega) hconfirmed)
      have goOn : ∀ {b₁ b₂ : CommitmentBuilder}, Folded keccak256 rows chain lag b₁ c →
          b₁.maxSeenHeight = b.maxSeenHeight → b₁.foldHeight keccak256 (c + 1) d = some b₂ →
          b₂.releaseFrom keccak256 live resume fuel = some b' →
          ∃ c', Folded keccak256 rows chain lag b' c' ∧ b'.maxSeenHeight = b.maxSeenHeight ∧
            ((b.maxSeenHeight - lag - c).toNat < fuel + 1 → b.maxSeenHeight - lag ≤ c') := by
        intro b₁ b₂ h₁ hseen₁ hfold hrest
        obtain ⟨h₂, hseen₂⟩ := h₁.foldHeight hd hconfirmed hfold
        obtain ⟨c', h', hseen', hdone⟩ := ih h₂ hrest
        rw [hseen₂, hseen₁] at hseen' hdone
        exact ⟨c', h', hseen', fun hlt => hdone (by omega)⟩
      cases hpending : b.pending.lookup (c + 1) with
      | some d' =>
        obtain rfl : d' = d := some.inj ((h.pending _ _ hpending).2.symm.trans hd)
        rw [hpending] at hrelease
        obtain ⟨b₂, hfold, hrest⟩ := bind_eq_some_iff.1 hrelease
        exact goOn (h.erase (c + 1)) rfl hfold hrest
      | none =>
        rw [hpending] at hrelease
        simp only [hresume (c + 1) (by omega) hconfirmed, hd] at hrelease
        obtain ⟨b₂, hfold, hrest⟩ := bind_eq_some_iff.1 hrelease
        exact goOn h rfl hfold hrest

/-! ## Applied blocks -/

section

variable (h : Folded keccak256 rows chain lag b c)
include h

/-- A block is applied, and the buffer is left with canonical blocks. -/
theorem Folded.apply (hchain : chain.Confirmed lag) (he : Lawful chain lag e) (pending : Table Int WriteSet)
    (seen : Int) (hseen : seen ≤ max chain.highest e.height)
    (hpending : ∀ n d, pending.lookup n = some d → n ≤ seen ∧ (chain.apply e.height e.deltas).writeSetAt n = some d) :
    Folded keccak256 rows (chain.apply e.height e.deltas) lag
      { b with pending := pending, maxSeenHeight := seen } c where
  lagged := h.lagged
  committed := h.committed
  tree := by
    rw [canonical_apply (h.committed_lt hchain he) he.linked]
    exact h.tree
  commits := by
    intro p hp
    obtain ⟨hle, hroot⟩ := h.commits p hp
    have hlt := h.committed_lt hchain he
    rw [canonical_apply (by omega) he.linked]
    exact ⟨hle, hroot⟩
  current := h.current
  anchor_le := h.anchor_le
  confirmed := by
    have hc := h.confirmed
    simp only [apply_anchor, apply_highest]
    omega
  seen := hseen
  pending := hpending

theorem Folded.pending_below (he : Lawful chain lag e) {n : Int} (hn : n < e.height)
    (hd : b.pending.lookup n = some d) :
    n ≤ b.maxSeenHeight ∧ (chain.apply e.height e.deltas).writeSetAt n = some d := by
  rw [writeSetAt_apply_lt hn he.linked]
  exact h.pending n d hd

theorem Folded.buffer (he : Lawful chain lag e) (n : Int) (d : WriteSet)
    (hn : (b.buffer e.height e.deltas).lookup n = some d) :
    n ≤ max b.maxSeenHeight e.height ∧ (chain.apply e.height e.deltas).writeSetAt n = some d := by
  -- nothing above the block is left, since either it was pruned or nothing above was seen
  have hfound : n ≤ e.height ∧ (b.pending.insert e.height e.deltas).lookup n = some d := by
    unfold CommitmentBuilder.buffer at hn
    split at hn
    · rw [lookup_retain, filter_eq_some_iff] at hn
      exact ⟨of_decide_eq_true hn.2, hn.1⟩
    · refine ⟨?_, hn⟩
      rw [lookup_insert_eq] at hn
      split at hn
      · omega
      · have := (h.pending n d hn).1
        omega
  obtain ⟨hle, hlookup⟩ := hfound
  rw [lookup_insert_eq] at hlookup
  split at hlookup
  · rename_i heq
    cases hlookup
    subst heq
    exact ⟨Int.le_max_right _ _, writeSetAt_apply_self he.above he.linked⟩
  · obtain ⟨hseen, hat⟩ := h.pending_below he (by omega) hlookup
    exact ⟨by omega, hat⟩

variable (hchain : chain.Confirmed lag)
include hchain

variable (he : Lawful chain lag e)
include he

theorem Folded.ingest (hingest : b.ingestWithResume keccak256 live e.resume e.height e.deltas = some b') :
    ∃ c', Folded keccak256 rows (chain.apply e.height e.deltas) lag b' c' ∧ b'.maxSeenHeight - lag ≤ c' := by
  have hlt := h.committed_lt hchain he
  have hseen := h.seen
  have hconfirmed := hchain.apply he
  unfold Confirmed at hconfirmed
  have hnew := h.apply hchain he _ (max b.maxSeenHeight e.height) (by omega) (h.buffer he)
  have hnotBelow : ¬ b.committedHeight.any (fun c => decide (e.height ≤ c)) := by
    rw [h.committed]
    simpa using hlt
  rw [ingestWithResume, if_neg hnotBelow, releaseContiguous] at hingest
  obtain ⟨c', h', hseen', hdone⟩ := hnew.releaseFrom he.resume
    (fun n hlow hhigh => writeSetAt_isSome hlow (by omega)) _ hingest
  refine ⟨c', h', ?_⟩
  rw [hseen']
  apply hdone
  rw [releaseFuel, hnew.next_eq, hnew.releaseTo_eq, getD_some]
  omega

theorem Folded.drop (hclear : ∀ n, e.height ≤ n → b.pending.lookup n = none) :
    Folded keccak256 rows (chain.apply e.height e.deltas) lag b c := by
  refine h.apply hchain he b.pending b.maxSeenHeight ?_ ?_
  · have := h.seen
    omega
  · intro n d hn
    refine h.pending_below he ?_ hn
    by_contra hge
    rw [hclear n (by omega)] at hn
    cases hn

end

/-- All that is confirmed is folded, and it is canonical. -/
def Index.Inv (keccak256 : Bytes → NodeHash) (rows : LiveRows) (lag : Nat) (s : Index) : Prop :=
  s.chain.Confirmed lag ∧ ∃ c, Folded keccak256 rows s.chain lag s.builder c ∧ s.builder.maxSeenHeight - lag ≤ c

variable {s s' : Index} {anchor : Nat} {events : List Event}

theorem step_chain (hstep : s.step keccak256 e = some s') : s'.chain = s.chain.apply e.height e.deltas := by
  unfold step at hstep
  split at hstep
  · obtain ⟨builder, -, hs'⟩ := bind_eq_some_iff.1 hstep
    cases hs'
    rfl
  · cases hstep
    rfl

theorem step_keeps (h : s.Inv keccak256 rows lag) (he : Lawful s.chain lag e)
    (hclear : ClearDrop s.builder e) (hstep : s.step keccak256 e = some s') :
    s'.Inv keccak256 rows lag := by
  obtain ⟨hchain, c, hfolded, hdone⟩ := h
  unfold step at hstep
  cases hdelivered : e.delivered with
  | true =>
    simp only [hdelivered, if_true, Option.bind_eq_bind, Option.bind_eq_some_iff, Option.pure_def,
      Option.some.injEq] at hstep
    obtain ⟨builder, hingest, rfl⟩ := hstep
    exact ⟨hchain.apply he, hfolded.ingest hchain he hingest⟩
  | false =>
    simp only [hdelivered, Bool.false_eq_true, if_false, Option.some.injEq] at hstep
    subst hstep
    exact ⟨hchain.apply he, c, hfolded.drop hchain he (hclear hdelivered), hdone⟩

theorem bootstrapped_inv (h : bootstrapped keccak256 rows anchor lag = some s) : s.Inv keccak256 rows lag := by
  simp only [bootstrapped, runBootstrap, fresh,
    Option.bind_eq_bind, Option.bind_eq_some_iff, Option.pure_def, Option.some.injEq] at h
  obtain ⟨b, ⟨smt, hsmt, rfl⟩, rfl⟩ := h
  have htree : run keccak256 (canonical keccak256 rows ⟨anchor, [], anchor⟩ anchor) = some smt := by
    simpa [run, canonical, Chain.upTo, foldlM_map] using hsmt
  refine ⟨?_, anchor, ?_, ?_⟩
  · simp only [Chain.Confirmed, Chain.head, length_nil]
    omega
  · exact {
      lagged := rfl
      committed := rfl
      tree := htree
      commits := by
        intro p hp
        obtain rfl := mem_singleton.1 hp
        exact ⟨Int.le_refl _, smt, htree, rfl⟩
      current := mem_singleton.2 rfl
      anchor_le := Int.le_refl _
      confirmed := Or.inl rfl
      seen := by dsimp only; omega
      pending := by
        intro n d hn
        cases hn }
  · dsimp only
    omega

theorem run_keeps (hinv : s.Inv keccak256 rows lag) (hlawful : LawfulHistory lag s.chain events)
    (hclear : ClearDrops keccak256 s events) (hrun : s.run keccak256 events = some s') :
    s'.Inv keccak256 rows lag := by
  induction events generalizing s with
  | nil =>
    cases hrun
    exact hinv
  | cons e events ih =>
    obtain ⟨he, hlawful⟩ := hlawful
    obtain ⟨hdrop, hclear⟩ := hclear
    obtain ⟨s₁, hstep, hrun⟩ := bind_eq_some_iff.1 hrun
    have hchain := step_chain hstep
    exact ih (step_keeps hinv he hdrop hstep) (hchain ▸ hlawful) (hclear s₁ hstep) hrun

/-! ## Two histories with a dropped message -/

/-- A block with the resume source of the chain it makes. -/
def Chain.event (chain : Chain) (height : Int) (deltas : WriteSet) (delivered : Bool) : Event where
  height := height
  deltas := deltas
  delivered := delivered
  live := []
  resume := (chain.apply height deltas).writeSetAt

theorem lawful_event {height : Int} {deltas : WriteSet} {delivered : Bool} (habove : chain.anchor < height)
    (hlinked : height ≤ chain.head + 1) (hshallow : height ≤ chain.head → chain.highest - height < lag) :
    Lawful chain lag (chain.event height deltas delivered) :=
  ⟨habove, hlinked, hshallow, fun _ _ _ => rfl⟩

def rowWritten : WriteSet := [⟨1, [7], some [5]⟩]

/-- An empty store at height 0, with two blocks for confirmation. -/
def emptyIndex (keccak256 : Bytes → NodeHash) : Index where
  chain := ⟨0, [], 0⟩
  builder := ⟨Smt.fresh keccak256, 2, some 0, 0, ∅, [(0, (Smt.fresh keccak256).root)]⟩

theorem emptyIndex_bootstrapped :
    bootstrapped keccak256 [] 0 2 = some (emptyIndex keccak256) := rfl

/-- The first message is dropped, and its write-set comes from the resume source; then block 2 is replaced. -/
def missedBlock : List Event :=
  [event ⟨0, [], 0⟩ 1 rowWritten false, event ⟨0, [rowWritten], 1⟩ 2 rowWritten true,
    event ⟨0, [rowWritten, rowWritten], 2⟩ 2 [] true, event ⟨0, [rowWritten, []], 2⟩ 3 [] true]

/-- Block 1 is replaced, and the message of the new block 1 is dropped. -/
def missedReorg : List Event :=
  [event ⟨0, [], 0⟩ 1 rowWritten true, event ⟨0, [rowWritten], 1⟩ 1 [] false, event ⟨0, [[]], 1⟩ 2 [] true,
    event ⟨0, [[], []], 2⟩ 3 [] true]

theorem missedBlock_lawful : LawfulHistory 2 ⟨0, [], 0⟩ missedBlock := by
  refine ⟨lawful_event ?_ ?_ ?_, lawful_event ?_ ?_ ?_, lawful_event ?_ ?_ ?_, lawful_event ?_ ?_ ?_,
    trivial⟩ <;> decide

theorem missedReorg_lawful : LawfulHistory 2 ⟨0, [], 0⟩ missedReorg := by
  refine ⟨lawful_event ?_ ?_ ?_, lawful_event ?_ ?_ ?_, lawful_event ?_ ?_ ?_, lawful_event ?_ ?_ ?_,
    trivial⟩ <;> decide

theorem missedBlock_clear : ClearDrops keccak256 (emptyIndex keccak256) missedBlock := by
  refine ⟨fun _ n _ => rfl, fun _ _ => ⟨?_, fun _ _ => ⟨?_, fun _ _ => ⟨?_, fun _ _ => trivial⟩⟩⟩⟩ <;>
    exact fun hdropped => nomatch hdropped

section

attribute [local simp] Index.run Index.step Chain.event emptyIndex CommitmentBuilder.ingestWithResume
  releaseContiguous releaseFuel releaseTo
  CommitmentBuilder.next releaseFrom buffer
  foldHeight apply position writeSetAt lookup_insert_eq
  lookup_singleton_eq

theorem missedBlock_run {tree : Smt}
    (htree : (Smt.fresh keccak256).step keccak256 (changesOf keccak256 rowWritten) = some tree) :
    ∃ s, (emptyIndex keccak256).run keccak256 missedBlock = some s ∧
      s.chain.blocks = [rowWritten, [], []] ∧ s.builder.committedHeight = some 1 := by
  simp [missedBlock, htree, lookup_retain]

theorem missedReorg_run {tree : Smt}
    (htree : (Smt.fresh keccak256).step keccak256 (changesOf keccak256 rowWritten) = some tree) :
    ∃ s, (emptyIndex keccak256).run keccak256 missedReorg = some s ∧
      s.chain = ⟨0, [[], [], []], 3⟩ ∧ s.builder.committedHeight = some 1 ∧ s.builder.smt = tree := by
  simp [missedReorg, htree]

end

/-- The tree with the one row, under a hash that tells only empty from not empty. -/
theorem rowWritten_root : ∃ tree,
    (Smt.fresh flatHash).step flatHash (changesOf flatHash rowWritten) = some tree ∧ tree.root = ones := by
  obtain ⟨tree, hrun, -, hroot, -⟩ :=
    root_of_leaves flatHash [changesOf flatHash rowWritten] (flatHash_noDefaults _)
  refine ⟨tree, by simpa [run] using hrun, ?_⟩
  rw [hroot, flatHash_occupied (show 0 + DEPTH = DEPTH by omega)]
  refine ⟨leafPathFor flatHash 1 [7], flatHash [5], ?_, maskPrefix_root _⟩
  simp [leafSet, setLeaves, setLeaf, changesOf, rowWritten]

theorem emptyBlock_root : ∃ tree, run flatHash [[]] = some tree ∧ tree.root = zeroes := by
  obtain ⟨tree, hrun, -, hroot, -⟩ := root_of_leaves flatHash [[]] (flatHash_noDefaults _)
  refine ⟨tree, hrun, ?_⟩
  rw [hroot, nodeHash_empty (Nat.zero_le _) isNode_root, defaultHash, flatHash_empty]
  rintro ⟨p, v, hp, -⟩
  cases hp

/-! ## The roots that are committed -/

/-- **Every root that is committed is the canonical chain's.**  It is the root of the tree that has
folded the canonical blocks up to its height and nothing else; if no hash is a default one, that of the
full tree over the state at this height. -/
theorem commits_canonical (keccak256 : Bytes → NodeHash) (rows : LiveRows) (anchor lag : Nat) (events : List Event)
    (start s : Index) (hstart : bootstrapped keccak256 rows anchor lag = some start)
    (hlawful : LawfulHistory lag start.chain events) (hclear : ClearDrops keccak256 start events)
    (hrun : start.run keccak256 events = some s) :
    (∃ c, s.builder.committedHeight = some c ∧ s.builder.maxSeenHeight - lag ≤ c ∧
        (c, s.builder.smt.root) ∈ s.builder.commits) ∧
      ∀ p ∈ s.builder.commits, ∃ tree,
        run keccak256 (canonical keccak256 rows s.chain p.1) = some tree ∧ p.2 = tree.root ∧
        (NoDefaults keccak256 (canonical keccak256 rows s.chain p.1) →
          p.2 = nodeHash keccak256 (leafSet (canonical keccak256 rows s.chain p.1)) 0 zeroes) := by
  obtain ⟨-, c, hfolded, hdone⟩ := run_keeps (bootstrapped_inv hstart) hlawful hclear hrun
  refine ⟨⟨c, hfolded.committed, hdone, hfolded.current⟩, ?_⟩
  intro p hp
  obtain ⟨-, tree, htree, hroot⟩ := hfolded.commits p hp
  refine ⟨tree, htree, hroot.symm, ?_⟩
  intro hdef
  obtain ⟨tree', htree', -, hroot', -⟩ := root_of_leaves keccak256 _ hdef
  obtain rfl : tree' = tree := some.inj (htree'.symm.trans htree)
  rw [← hroot, hroot']

/-- A block that was missed comes from the resume source, and a block is replaced. -/
theorem commits_canonical_sample : ∃ s,
    (emptyIndex flatHash).run flatHash missedBlock = some s ∧
      s.chain.blocks = [rowWritten, [], []] ∧ s.builder.committedHeight = some 1 ∧
      ∀ p ∈ s.builder.commits, ∃ tree,
        run flatHash (canonical flatHash [] s.chain p.1) = some tree ∧ p.2 = tree.root := by
  obtain ⟨tree, htree, -⟩ := rowWritten_root
  obtain ⟨s, hrun, hblocks, hcommitted⟩ := missedBlock_run htree
  obtain ⟨-, hroots⟩ := commits_canonical flatHash [] 0 2 missedBlock _ s emptyIndex_bootstrapped
    missedBlock_lawful missedBlock_clear hrun
  refine ⟨s, hrun, hblocks, hcommitted, ?_⟩
  intro p hp
  obtain ⟨tree', hcanonical, hroot, -⟩ := hroots p hp
  exact ⟨tree', hcanonical, hroot⟩

/-- The write-set of the block that was replaced is still buffered, and is folded. -/
theorem stale_write_set_folded :
    bootstrapped flatHash [] 0 2 = some (emptyIndex flatHash) ∧
      LawfulHistory 2 (emptyIndex flatHash).chain missedReorg ∧
      ∃ s tree, (emptyIndex flatHash).run flatHash missedReorg = some s ∧ s.builder.committedHeight = some 1 ∧
        run flatHash (canonical flatHash [] s.chain 1) = some tree ∧
        tree.root = zeroes ∧ s.builder.smt.root = ones := by
  obtain ⟨stale, hstale, hroot⟩ := rowWritten_root
  obtain ⟨s, hrun, hchain, hcommitted, hsmt⟩ := missedReorg_run hstale
  obtain ⟨tree, htree, hempty⟩ := emptyBlock_root
  refine ⟨emptyIndex_bootstrapped, missedReorg_lawful, s, tree, hrun, hcommitted, ?_, hempty, ?_⟩
  · rw [hchain]
    exact htree
  · rw [hsmt, hroot]

end TronGoblin.Commitment
