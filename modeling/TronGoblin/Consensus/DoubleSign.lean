import TronGoblin.Consensus.Pbft
import TronGoblin.Lib.History

/-!
# Double signing over whole histories

What the vote tally of one payload and the detector of double signing (`tron-consensus/src/pbft.rs`) know after any
sequence of calls.

* `lookup_after`: who is counted, if nobody votes again after signing twice.
* `double_signer_iff`: a signer that has signed twice is never counted again exactly then.
* `lookup_firstSeen`: the detector keeps the first message of each key.
* `evidence_iff`: its evidence is sound and complete, and fresh exactly if no conflicting message comes again.
-/

namespace TronGoblin

open History (after)

/-! ## The tally of one payload -/

inductive VotePhase
  | prepare
  | commit
  deriving DecidableEq

/-- A call of `record_prepare` or `record_commit`. -/
structure VoteCall where
  phase : VotePhase
  signer : Address
  signature : Bytes
  deriving DecidableEq

namespace BlockVoteTally

variable (t : BlockVoteTally)

def record (c : VoteCall) : BlockVoteTally :=
  match c.phase with
  | .prepare => (t.recordPrepare c.signer c.signature).2
  | .commit => (t.recordCommit c.signer c.signature).2

def votes : VotePhase → Votes
  | .prepare => t.prepareVotes
  | .commit => t.commitVotes

def thresholdMet : VotePhase → Nat → Bool
  | .prepare => t.prepareThresholdMet
  | .commit => t.commitThresholdMet

variable {calls : List VoteCall} {p : VotePhase} {a : Address}

/-- The signer has used two signatures in the phase. -/
def Doubled (calls : List VoteCall) (p : VotePhase) (a : Address) : Prop :=
  ∃ s s', s ≠ s' ∧ ⟨p, a, s⟩ ∈ calls ∧ ⟨p, a, s'⟩ ∈ calls

/-- Nobody votes again in a phase in which it has signed twice. -/
def Orderly (calls : List VoteCall) : Prop :=
  ∀ earlier c later, calls = earlier ++ c :: later → ¬ Doubled earlier c.phase c.signer

theorem lookup_record (c : VoteCall) (p : VotePhase) (a : Address) :
    ((t.record c).votes p).lookup a = if p = c.phase ∧ a = c.signer then
        match (t.votes p).lookup a with
        | some existing => if existing = c.signature then some existing else none
        | none => some c.signature
      else (t.votes p).lookup a := by
  have hvotes : (t.record c).votes p =
      if p = c.phase then (recordVote (t.votes p) c.signer c.signature).2 else t.votes p := by
    obtain ⟨phase, signer, signature⟩ := c
    cases phase <;> cases p <;> rfl
  rw [hvotes]
  by_cases hp : p = c.phase
  · by_cases ha : a = c.signer
    · rw [if_pos hp, if_pos ⟨hp, ha⟩, ← ha, recordVote]
      cases h : (t.votes p).lookup a with
      | none => simp
      | some existing => by_cases hs : existing = c.signature <;> simp [h, hs]
    · rw [if_pos hp, if_neg fun h => ha h.2, recordVote]
      split
      · split
        · rfl
        · exact AList.lookup_erase_ne ha
      · exact AList.lookup_insert_ne ha
  · rw [if_neg hp, if_neg fun h => hp h.1]

theorem Orderly.of_concat {c : VoteCall} (h : Orderly (calls ++ [c])) : Orderly calls ∧ ¬ Doubled calls c.phase c.signer :=
  ⟨fun earlier d later heq => h earlier d (later ++ [c]) (by simp [heq]), h calls c [] rfl⟩

theorem lookup_after (h : Orderly calls) (s : Bytes) :
    ((after record .new calls).votes p).lookup a = some s ↔ ⟨p, a, s⟩ ∈ calls ∧ ¬ Doubled calls p a := by
  induction calls using List.reverseRecOn generalizing s with
  | nil => cases p <;> simp [after, new, votes]
  | append_singleton calls c ih =>
    obtain ⟨horderly, honce⟩ := h.of_concat
    have ih := ih horderly
    rw [History.after_concat, lookup_record]
    obtain ⟨phase, signer, signature⟩ := c
    by_cases hc : p = phase ∧ a = signer
    · obtain ⟨rfl, rfl⟩ := hc
      rw [if_pos ⟨rfl, rfl⟩]
      -- so far the signer has used at most one signature
      cases hl : ((after record .new calls).votes p).lookup a with
      | none =>
        have hnone : ∀ s, ⟨p, a, s⟩ ∉ calls := fun s hs => by simpa [hl] using (ih s).2 ⟨hs, honce⟩
        simp [Doubled, hnone, eq_comm]
      | some existing =>
        obtain ⟨hmem, -⟩ := (ih existing).1 hl
        have honly : ∀ s, ⟨p, a, s⟩ ∈ calls → s = existing := fun s hs => by
          simpa [hl, eq_comm] using (ih s).2 ⟨hs, honce⟩
        unfold Doubled
        grind
    · rw [if_neg hc, ih]
      have hother : ∀ s, ⟨p, a, s⟩ ∈ calls ++ [⟨phase, signer, signature⟩] ↔ ⟨p, a, s⟩ ∈ calls := by
        intro s
        simp only [List.mem_append, List.mem_singleton, VoteCall.mk.injEq]
        tauto
      simp [Doubled, hother]

/-- **A double-signer is never counted again exactly if it does not vote again**, and then what is met depends on the
votes only, not on their order. -/
theorem double_signer_iff (calls : List VoteCall) :
    (Orderly calls ↔ ∀ earlier, earlier <+: calls → ∀ p a, Doubled earlier p a →
      ((after record .new earlier).votes p).lookup a = none) ∧
    (Orderly calls → ∀ calls', Orderly calls' → ∀ p, (∀ a s, ⟨p, a, s⟩ ∈ calls ↔ ⟨p, a, s⟩ ∈ calls') → ∀ activeCount,
      (after record .new calls).thresholdMet p activeCount = (after record .new calls').thresholdMet p activeCount) := by
  refine ⟨⟨fun h earlier hpre p a hdouble => ?_, fun h earlier c later heq hdouble => ?_⟩, ?_⟩
  · have horderly : Orderly earlier := by
      obtain ⟨rest, rfl⟩ := hpre
      exact fun e d l heq => h e d (l ++ rest) (by simp [heq])
    refine Option.eq_none_iff_forall_ne_some.2 fun s hs => ?_
    exact ((lookup_after horderly s).1 hs).2 hdouble
  · have hnone := h earlier ⟨c :: later, heq.symm⟩ _ _ hdouble
    have hagain := h (earlier ++ [c]) ⟨later, by simp [heq]⟩ c.phase c.signer
      (hdouble.imp fun s => .imp fun s' hs => ⟨hs.1, by simp [hs.2.1], by simp [hs.2.2]⟩)
    rw [History.after_concat, lookup_record, if_pos ⟨rfl, rfl⟩, hnone] at hagain
    cases hagain
  · intro h calls' h' p hsame activeCount
    have hsize : Assoc.size ((after record .new calls).votes p) = Assoc.size ((after record .new calls').votes p) := by
      refine (List.lookup_ext (AList.nodupKeys _) (AList.nodupKeys _) fun a s => ?_).length_eq
      have hd : Doubled calls p a ↔ Doubled calls' p a := by simp [Doubled, hsame]
      exact (lookup_after h s).trans ((and_congr (hsame a s) (not_congr hd)).trans (lookup_after h' s).symm)
    cases p
    · exact congrArg (fun n => decide (agreeNodeCount activeCount ≤ n)) hsize
    · exact congrArg (fun n => decide (agreeNodeCount activeCount ≤ n)) hsize

/-- The third vote is counted again; in another order it is not. -/
theorem double_signer_counts_again :
    let signer : Address := ⟨List.replicate 21 0x41, rfl⟩
    let vote (s : UInt8) : VoteCall := ⟨.commit, signer, [s]⟩
    Doubled [vote 1, vote 2, vote 1] .commit signer ∧
      (after record .new [vote 1, vote 2, vote 1]).commitThresholdMet 1 = true ∧
        (after record .new [vote 1, vote 1, vote 2]).commitThresholdMet 1 = false :=
  ⟨⟨[1], [2], by decide, by simp, by simp⟩, by decide, by decide⟩

end BlockVoteTally

/-! ## The detector -/

namespace EquivocationDetector

variable {inputs earlier : List (Address × PbftMessage)} {a : Address × PbftMessage} {cap : Nat}

/-- The key of a message, and what it says. -/
def vote (a : Address × PbftMessage) : Option (EquivocationKey × Bytes) :=
  a.2.rawData.map fun raw => (key a.1 raw, raw.data)

def firstWith (inputs : List (Address × PbftMessage)) (k : EquivocationKey) : Option ObservedVote :=
  inputs.findSome? fun a => (vote a).bind fun v => if v.1 = k then some ⟨v.2, a.2⟩ else none

/-- The message says something else than the first one with its key. -/
def Conflicts (earlier : List (Address × PbftMessage)) (a : Address × PbftMessage) : Prop :=
  ∃ k d first, vote a = some (k, d) ∧ firstWith earlier k = some first ∧ first.data ≠ d

def evidenceFor (cap : Nat) (earlier : List (Address × PbftMessage)) (a : Address × PbftMessage) :
    Option EquivocationEvidence :=
  ((after (fun det a => (det.record a.1 a.2).2) (new cap) earlier).record a.1 a.2).1

/-- The key that evidence is about, and what the conflicting message says. -/
def evidenceVote (ev : EquivocationEvidence) : Option (EquivocationKey × Bytes) :=
  ev.conflicting.rawData.map fun raw => (⟨ev.epoch, ev.viewN, ev.msgType, ev.dataType, ev.signer⟩, raw.data)

theorem lookup_firstSeen (cap : Nat) (inputs : List (Address × PbftMessage)) (k : EquivocationKey) :
    (after (fun det a => (det.record a.1 a.2).2) (new cap) inputs).firstSeen.lookup k = firstWith inputs k := by
  induction inputs using List.reverseRecOn generalizing k with
  | nil => rfl
  | append_singleton inputs a ih =>
    rw [History.after_concat, firstWith, List.findSome?_append]
    generalize after _ (new cap) inputs = det at ih
    change _ = (firstWith inputs k).or _
    rw [← ih, record]
    cases hraw : a.2.rawData with
    | none => simp [vote, hraw]
    | some raw =>
      dsimp only
      by_cases hk : k = key a.1 raw
      · subst hk
        cases hl : det.firstSeen.lookup (key a.1 raw) with
        | none => simp [vote, hraw]
        | some prev =>
          by_cases hd : prev.data = raw.data <;> simp [vote, hraw, hd, hl, pushEvidence]
      · have hrest : ((vote a).bind fun v => if v.1 = k then some ⟨v.2, a.2⟩ else none) = (none : Option ObservedVote) := by
          simp [vote, hraw, Ne.symm hk]
        simp only [List.findSome?_singleton, hrest, Option.or_none]
        split
        · split <;> rfl
        · exact AList.lookup_insert_ne hk

theorem evidenceFor_eq_some {ev : EquivocationEvidence} :
    evidenceFor cap earlier a = some ev ↔ ∃ raw first, a.2.rawData = some raw ∧
      firstWith earlier (key a.1 raw) = some first ∧ first.data ≠ raw.data ∧
        ev = ⟨a.1, raw.epoch, raw.viewN, raw.msgType, raw.dataType, first.msg, a.2⟩ := by
  have hfirst := lookup_firstSeen cap earlier
  unfold evidenceFor
  generalize after _ (new cap) earlier = det at hfirst
  unfold record
  cases hraw : a.2.rawData with
  | none => simp
  | some raw =>
    dsimp only
    rw [hfirst]
    cases hl : firstWith earlier (key a.1 raw) with
    | none => simp [hl]
    | some first => by_cases hd : first.data = raw.data <;> simp [hd, hl, eq_comm]

theorem conflicts_iff : Conflicts earlier a ↔ ∃ ev, evidenceFor cap earlier a = some ev := by
  simp [evidenceFor_eq_some, Conflicts, vote]

/-- Evidence names the message it was returned for, and an earlier one. -/
theorem evidence_sound {ev : EquivocationEvidence} (h : evidenceFor cap earlier a = some ev) :
    evidenceVote ev = vote a ∧ ev.conflicting = a.2 ∧ ∃ b ∈ earlier, b.2 = ev.first ∧
      ∃ k d d', vote b = some (k, d) ∧ vote a = some (k, d') ∧ d ≠ d' := by
  obtain ⟨raw, first, hraw, hfirst, hne, rfl⟩ := evidenceFor_eq_some.1 h
  obtain ⟨b, hb, hvote⟩ := List.exists_of_findSome?_eq_some hfirst
  obtain ⟨⟨k, d⟩, hv, hk⟩ := Option.bind_eq_some_iff.1 hvote
  split at hk
  · next heq =>
    cases hk
    cases heq
    exact ⟨by simp [evidenceVote, vote, hraw, key], rfl, b, hb, rfl, _, d, raw.data, hv, by simp [vote, hraw, key], hne⟩
  · cases hk

/-- **The evidence of a history.**  It is sound and complete; it is fresh exactly if a message that conflicts with the
first one of its key does not come again. -/
theorem evidence_iff (cap : Nat) (inputs : List (Address × PbftMessage)) :
    (∀ earlier a later ev, inputs = earlier ++ a :: later → evidenceFor cap earlier a = some ev →
      evidenceVote ev = vote a ∧ ev.conflicting = a.2 ∧ ∃ b ∈ earlier, b.2 = ev.first ∧
        ∃ k d d', vote b = some (k, d) ∧ vote a = some (k, d') ∧ d ≠ d') ∧
    (∀ earlier a later, inputs = earlier ++ a :: later → Conflicts earlier a → ∃ ev, evidenceFor cap earlier a = some ev) ∧
    ((∀ earlier a between b later ev ev', inputs = earlier ++ a :: (between ++ b :: later) →
        evidenceFor cap earlier a = some ev → evidenceFor cap (earlier ++ a :: between) b = some ev' →
          evidenceVote ev ≠ evidenceVote ev') ↔
      ∀ earlier a between b later, inputs = earlier ++ a :: (between ++ b :: later) → Conflicts earlier a →
        vote a ≠ vote b) := by
  refine ⟨fun _ _ _ _ _ h => evidence_sound h, fun _ _ _ _ h => conflicts_iff.1 h, fun h => ?_, fun h => ?_⟩
  · intro earlier a between b later heq hconf hsame
    obtain ⟨ev, hev⟩ := conflicts_iff.1 hconf
    obtain ⟨k, d, first, hvote, hfirst, hne⟩ := hconf
    have hagain : Conflicts (earlier ++ a :: between) b := by
      refine ⟨k, d, first, hsame ▸ hvote, ?_, hne⟩
      rw [firstWith, List.findSome?_append, show List.findSome? _ earlier = _ from hfirst]
      rfl
    obtain ⟨ev', hev'⟩ := conflicts_iff.1 hagain
    refine h earlier a between b later ev ev' heq hev hev' ?_
    rw [(evidence_sound hev).1, (evidence_sound hev').1, hsame]
  · intro earlier a between b later ev ev' heq hev hev'
    rw [(evidence_sound hev).1, (evidence_sound hev').1]
    exact h earlier a between b later heq (conflicts_iff.2 ⟨ev, hev⟩)

/-- The second message conflicts with the first; when it comes again, it is reported again. -/
theorem evidence_repeated :
    let signer : Address := ⟨List.replicate 21 0x41, rfl⟩
    let message (d : UInt8) : Address × PbftMessage := (signer, ⟨some ⟨4, 0, 0, 0, [d]⟩, []⟩)
    ∃ ev, evidenceFor 256 [message 1] (message 2) = some ev ∧
      evidenceFor 256 [message 1, message 2] (message 2) = some ev :=
  ⟨_, rfl, rfl⟩

end EquivocationDetector

end TronGoblin
