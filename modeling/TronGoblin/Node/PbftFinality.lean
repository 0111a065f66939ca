import TronGoblin.Node.PbftRuntime

/-!
# What a PBFT decision rests on

* `step_effect`: every call but a Commit for a block leaves the block decisions alone, and records no
  Commit other than its own.
* `committers_signed`: every recorded Commit was signed, by a message received or sent in the run.
* `decision_has_quorum`: **a decision has a quorum of the set it was taken against** when every vote
  on record for the payload is by a member of that set.
* `agreement`: **two payloads decided against one fixed set have more than a third of it in common**
  when the local witness is a member of the set.
-/

namespace TronGoblin

open List PbftVoteTally
open Assoc (Table)

/-! ## Who has a Commit on record -/

/-- The signers whose Commit for the payload is on record. -/
def PbftVoteTally.committers (t : PbftVoteTally) (key : Bytes) : List Address :=
  (t.entry key).commitVotes.keys

theorem mem_keys_recordVote {votes : Votes} {signer a : Address} {signature : Bytes}
    (h : a ∈ (recordVote votes signer signature).2.keys) : a ∈ votes.keys ∨ a = signer := by
  unfold recordVote at h
  split at h
  · split at h
    · exact Or.inl h
    · exact Or.inl (AList.mem_erase.1 h).2
  · exact ((AList.mem_insert votes).1 h).symm

namespace PbftVoteTally

variable {t : PbftVoteTally} {key key' : Bytes} {nowMs : Int} {signer : Address} {signature : Bytes}

theorem committers_withEntry (t : PbftVoteTally) (key key' : Bytes) (nowMs : Int)
    (e : BlockVoteTally) : (t.withEntry key nowMs e).committers key' =
      if key' = key then e.commitVotes.keys else t.committers key' := by
  unfold committers entry withEntry
  by_cases h : key' = key
  · subst h
    rw [if_pos rfl, AList.lookup_insert]
    rfl
  · rw [if_neg h, AList.lookup_insert_ne h]

theorem committers_withEntry_same {e : BlockVoteTally} (h : e.commitVotes = (t.entry key).commitVotes) :
    (t.withEntry key nowMs e).committers key' = t.committers key' := by
  rw [committers_withEntry]
  split
  · rename_i hk
    rw [hk, h]
    rfl
  · rfl

variable {a : Address}

theorem mem_committers_recordCommit
    (h : a ∈ (t.withEntry key nowMs ((t.entry key).recordCommit signer signature).2).committers key') :
    a ∈ t.committers key' ∨ key' = key ∧ a = signer := by
  rw [committers_withEntry] at h
  split at h
  · rename_i hk
    subst hk
    exact (mem_keys_recordVote h).imp id fun ha => ⟨rfl, ha⟩
  · exact Or.inl h

theorem committers_votePrepare {n : Nat} :
    (t.votePrepare key nowMs signer signature n).2.committers key' = t.committers key' :=
  committers_withEntry_same rfl

theorem committers_markPrepared : (t.markPrepared key nowMs).2.committers key' = t.committers key' :=
  committers_withEntry_same rfl

theorem committers_ownPrepare : (t.ownPrepare key nowMs signer signature).committers key' = t.committers key' :=
  committers_withEntry_same rfl

theorem entry_forget (t : PbftVoteTally) (key key' : Bytes) :
    (t.forget key).entry key' = if key' = key then .new else t.entry key' := by
  unfold entry forget
  rw [Assoc.lookup_erase_eq]
  split
  · rfl
  · rfl

theorem committers_forget (h : a ∈ (t.forget key).committers key') : a ∈ t.committers key' := by
  rw [committers, entry_forget] at h
  split at h
  · cases h
  · exact h

theorem committers_pruneBelow {threshold : Int} (h : a ∈ (t.pruneBelow threshold).committers key) :
    a ∈ t.committers key := by
  unfold committers entry pruneBelow at h
  rw [Assoc.lookup_retain] at h
  unfold committers entry
  cases hl : t.blocks.lookup key with
  | none =>
    rw [hl] at h
    exact h
  | some e =>
    rw [hl, Option.filter] at h
    split at h
    · exact h
    · cases h

theorem committers_expireStale (h : a ∈ (t.expireStale nowMs).committers key) : a ∈ t.committers key := by
  unfold expireStale at h
  generalize t.stale nowMs = keys at h
  induction keys generalizing t with
  | nil => exact h
  | cons k ks ih => exact committers_forget (ih h)

end PbftVoteTally

/-! ## What a call does -/

def commitPayload (msg : PbftMessage) : Option Bytes :=
  msg.rawData.bind fun raw =>
    if raw.msgType = MsgType.commit.code ∧ raw.dataType = DataType.block.code then some raw.data
    else none

def SignDataKey.isBlock : SignDataKey → Bool
  | .block _ => true
  | .srList _ => false

/-- The commit results of blocks: what `handle_commit` has persisted. -/
def PbftRuntime.decisions (s : PbftRuntime) : List CommitResult :=
  s.pbftSignData.filter (·.key.isBlock)

/-- A call that decides nothing, and records no Commit but one that it sends. -/
structure Effect (s s' : PbftRuntime) : Prop where
  identity : s'.identity = s.identity
  outbound : s.outbound <+: s'.outbound
  decisions : s'.decisions = s.decisions
  committers : ∀ key, ∀ a ∈ s'.tally.committers key, a ∈ s.tally.committers key ∨
    a = s.identity ∧ ∃ msg ∈ s'.outbound, commitPayload msg = some key

open Effect

theorem Effect.refl (s : PbftRuntime) : Effect s s :=
  ⟨rfl, prefix_refl _, rfl, fun _ _ h => Or.inl h⟩

theorem Effect.trans {s s' s'' : PbftRuntime} (h : Effect s s') (h' : Effect s' s'') : Effect s s'' where
  identity := h'.identity.trans h.identity
  outbound := h.outbound.trans h'.outbound
  decisions := h'.decisions.trans h.decisions
  committers := by
    intro key a ha
    rcases h'.committers key a ha with ha | ⟨ha, hsent⟩
    · rcases h.committers key a ha with ha | ⟨ha, msg, hmsg, hkey⟩
      · exact Or.inl ha
      · exact Or.inr ⟨ha, msg, h'.outbound.subset hmsg, hkey⟩
    · exact Or.inr ⟨ha.trans h.identity, hsent⟩

namespace PbftRuntime

variable {crypto : PbftCrypto} {s : PbftRuntime} {d : DataType} {raw : PbftRaw} {signer : Address}
  {signature data : Bytes} {active : Finset Address} {epoch viewN nowMs : Int} {put : Except String Unit}

/-- Recording votes other than Commits, and dropping votes. -/
theorem effect_setTally {t : PbftVoteTally} (h : ∀ key, ∀ a ∈ t.committers key, a ∈ (s.tallyOf d).committers key) :
    Effect s (s.setTally d t) := by
  cases d with
  | block => exact ⟨rfl, prefix_refl _, rfl, fun key a ha => Or.inl (h key a ha)⟩
  | srl => exact ⟨rfl, prefix_refl _, rfl, fun _ _ ha => Or.inl ha⟩

theorem sendPrepare_effect : Effect s (sendPrepare crypto s d epoch viewN data nowMs).2 := by
  unfold sendPrepare
  split
  · exact refl s
  · rename_i msg _
    have hown : Effect s (s.setTally d ((s.tallyOf d).ownPrepare data nowMs s.identity msg.signature)) :=
      effect_setTally fun key a ha => by rwa [committers_ownPrepare] at ha
    refine hown.trans ⟨rfl, ?_, rfl, fun _ _ h => Or.inl h⟩
    cases d <;> exact prefix_append ..

theorem sendCommit_effect : Effect s (sendCommit crypto s d epoch viewN data nowMs).2 := by
  unfold sendCommit
  split
  · exact refl s
  · rename_i msg hcast
    obtain ⟨signature, rfl⟩ := castVote_eq hcast
    cases d with
    | srl => exact ⟨rfl, prefix_append .., rfl, fun _ _ h => Or.inl h⟩
    | block =>
      refine ⟨rfl, prefix_append .., rfl, fun key a ha => ?_⟩
      refine (mem_committers_recordCommit ha).imp id ?_
      rintro ⟨rfl, rfl⟩
      exact ⟨rfl, _, mem_append_right _ (mem_singleton.2 rfl), rfl⟩

theorem announce_effect : Effect s (announce crypto s d epoch viewN data nowMs).2 := by
  have hmark : Effect s (s.setTally d ((s.tallyOf d).markPrepared data nowMs).2) :=
    effect_setTally fun key a ha => by rwa [committers_markPrepared] at ha
  unfold announce
  dsimp only
  split
  · exact hmark
  · exact hmark.trans sendPrepare_effect

theorem prepareVoted_effect : Effect s (prepareVoted crypto s d raw signer signature active nowMs).2 := by
  have hvote : Effect s (s.setTally d ((s.tallyOf d).votePrepare raw.data nowMs signer signature active.card).2) :=
    effect_setTally fun key a ha => by rwa [committers_votePrepare] at ha
  unfold prepareVoted
  dsimp only
  split
  · exact hvote.trans sendCommit_effect
  · exact hvote

theorem handleSrlCommit_effect : Effect s (handleSrlCommit s raw signer signature active nowMs put).2 := by
  have hvote : ∀ t, Effect s { s with srlTally := t } := fun _ =>
    ⟨rfl, prefix_refl _, rfl, fun _ _ h => Or.inl h⟩
  unfold handleSrlCommit
  dsimp only
  split
  · split
    · exact hvote _
    · refine ⟨rfl, prefix_refl _, ?_, fun _ _ h => Or.inl h⟩
      unfold decisions
      rw [filter_append]
      exact append_nil _
  · exact hvote _

variable {msg : PbftMessage}

theorem handleSrlInbound_effect : Effect s (handleSrlInbound crypto s msg raw nowMs put).2 := by
  have hrec : ∀ signer, Effect s (s.recordEquivocationIfAny signer msg) := fun _ =>
    ⟨rfl, prefix_refl _, rfl, fun _ _ h => Or.inl h⟩
  unfold handleSrlInbound
  split
  · exact refl s
  · split
    · exact refl s
    · split
      · split
        · exact (hrec _).trans announce_effect
        · exact (hrec _).trans prepareVoted_effect
        · exact (hrec _).trans handleSrlCommit_effect
        · exact hrec _
      · exact refl s

theorem maybeCastSrl_effect : Effect s (maybeCastSrlOnCycleAdvance crypto s nowMs) := by
  unfold maybeCastSrlOnCycleAdvance
  split
  · exact refl s
  · rename_i list _
    have h : Effect s (castOurSrlPrepare crypto s s.currentCycleNumber (srlDataPayload list) nowMs) :=
      announce_effect
    exact ⟨h.identity, h.outbound, h.decisions, h.committers⟩

theorem tick_effect : Effect s (tick crypto s nowMs) := by
  have hexpire : Effect s
      { s with tally := s.tally.expireStale nowMs, srlTally := s.srlTally.expireStale nowMs } :=
    ⟨rfl, prefix_refl _, rfl, fun _ _ h => Or.inl (committers_expireStale h)⟩
  exact hexpire.trans maybeCastSrl_effect

/-! ## The arrival of a Commit -/

/-- A Commit for a block, signed by a member of the set that its epoch selects. -/
structure Arrives (crypto : PbftCrypto) (s : PbftRuntime) (msg : PbftMessage) (raw : PbftRaw)
    (signer : Address) (active : Finset Address) : Prop where
  raw_eq : msg.rawData = some raw
  payload : commitPayload msg = some raw.data
  recovered : crypto.recoverSigner msg = some signer
  selected : s.loadActiveSetForEpoch raw.epoch = .ok active
  member : signer ∈ active

theorem tryFrom_code {n : Int} {t : MsgType} (h : MsgType.tryFrom n = some t) : n = t.code := by
  have hcode := List.find?_some h
  exact (of_decide_eq_true hcode).symm

theorem handleBlockInbound_effect (hraw : msg.rawData = some raw) (hblock : raw.dataType = DataType.block.code) :
    Effect s (handleBlockInbound crypto s msg raw nowMs put).2 ∨
      ∃ signer active, Arrives crypto s msg raw signer active ∧
        handleBlockInbound crypto s msg raw nowMs put = handleCommit
          (s.recordEquivocationIfAny signer msg) raw signer msg.signature active nowMs put := by
  have hrec : ∀ signer, Effect s (s.recordEquivocationIfAny signer msg) := fun _ =>
    ⟨rfl, prefix_refl _, rfl, fun _ _ h => Or.inl h⟩
  unfold handleBlockInbound
  split
  · exact Or.inl (refl s)
  · split
    · exact Or.inl (refl s)
    · rename_i signer hsigner
      split
      · exact Or.inl (refl s)
      · rename_i active hactive
        split
        · rename_i hmem
          split
          · exact Or.inl ((hrec _).trans prepareVoted_effect)
          · rename_i htype
            refine Or.inr ⟨signer, active, ⟨hraw, ?_, hsigner, hactive, hmem⟩, rfl⟩
            rw [commitPayload, hraw]
            exact if_pos ⟨tryFrom_code htype, hblock⟩
          · exact Or.inl ((hrec _).trans announce_effect)
          · exact Or.inl ⟨rfl, prefix_refl _, rfl, fun _ _ h => Or.inl h⟩
          · exact Or.inl (hrec _)
          · exact Or.inl (hrec _)
        · exact Or.inl (refl s)

/-- **Every input but the arrival of a Commit decides nothing.** -/
theorem step_effect (crypto : PbftCrypto) (s : PbftRuntime) (i : PbftInput) :
    Effect s (step crypto s i) ∨ ∃ msg nowMs put raw signer active, i = .inbound msg nowMs put ∧
        Arrives crypto s msg raw signer active ∧
        step crypto s i = (handleCommit (s.recordEquivocationIfAny signer msg) raw signer
          msg.signature active nowMs put).2 := by
  cases i with
  | inbound msg nowMs put =>
    have hstep : step crypto s (.inbound msg nowMs put) = (handleInbound crypto s msg nowMs put).2 :=
      rfl
    rw [hstep, handleInbound]
    cases hraw : msg.rawData with
    | none => exact Or.inl (refl s)
    | some raw =>
      dsimp only
      split
      · exact Or.inl handleSrlInbound_effect
      · split
        · exact Or.inl (refl s)
        · rename_i hblock
          rcases @handleBlockInbound_effect crypto s raw nowMs put msg hraw (not_not.1 hblock) with
            heff | ⟨signer, active, harr, heq⟩
          · exact Or.inl heff
          · exact Or.inr ⟨msg, nowMs, put, raw, signer, active, rfl, harr, congrArg Prod.snd heq⟩
  | localBlock num hash epoch nowMs => exact Or.inl announce_effect
  | tick nowMs => exact Or.inl tick_effect
  | rotate prev new time =>
    exact Or.inl ⟨rfl, prefix_refl _, rfl, fun _ _ h => Or.inl h⟩
  | chain cycle schedule =>
    exact Or.inl ⟨rfl, prefix_refl _, rfl, fun _ _ h => Or.inl h⟩

/-- What a Commit does: one more vote, and perhaps a decision on the votes there are. -/
structure CommitEffect (s s' : PbftRuntime) (raw : PbftRaw) (signer : Address)
    (signature : Bytes) (active : Finset Address) : Prop where
  identity : s'.identity = s.identity
  outbound : s'.outbound = s.outbound
  committers : ∀ key, ∀ a ∈ s'.tally.committers key,
    a ∈ s.tally.committers key ∨ key = raw.data ∧ a = signer
  decisions : s'.decisions = s.decisions ∨
    (∃ num signatures, s'.decisions = s.decisions ++ [⟨.block num, raw, signatures⟩]) ∧ agreeNodeCount active.card ≤
        (recordVote (s.tally.entry raw.data).commitVotes signer signature).2.keys.length

theorem handleCommit_effect : CommitEffect s
    (handleCommit s raw signer signature active nowMs put).2 raw signer signature active := by
  have hvoted : ∀ key, ∀ a ∈ (s.tally.voteCommit raw.data nowMs signer signature
      active.card).2.committers key, a ∈ s.tally.committers key ∨ key = raw.data ∧ a = signer :=
    fun _ _ ha => mem_committers_recordCommit ha
  unfold handleCommit
  dsimp only
  split
  · rename_i hmet
    split
    · exact ⟨rfl, rfl, hvoted, Or.inl rfl⟩
    · split
      · exact ⟨rfl, rfl, hvoted, Or.inl rfl⟩
      · rename_i num _ _ _
        refine ⟨rfl, rfl, fun key a ha => hvoted key a ?_, Or.inr ⟨⟨num, signaturesOf
          (s.tally.voteCommit raw.data nowMs signer signature active.card).2 raw.data, ?_⟩, ?_⟩⟩
        · exact committers_forget (committers_pruneBelow ha)
        · unfold decisions solidify
          rw [filter_append]
          rfl
        · have hle := of_decide_eq_true hmet
          rwa [Assoc.size, ← length_map] at hle
  · exact ⟨rfl, rfl, hvoted, Or.inl rfl⟩

/-! ## Runs -/

def delivered : PbftInput → Option PbftMessage
  | .inbound msg _ _ => some msg
  | _ => none

/-- The address has signed a Commit for the payload: a message received in the run recovers to it, or
it is the local witness and sent one. -/
def SignedCommit (crypto : PbftCrypto) (start : PbftRuntime) (inputs : List PbftInput)
    (a : Address) (payload : Bytes) : Prop :=
  (∃ msg ∈ inputs.filterMap delivered,
      commitPayload msg = some payload ∧ crypto.recoverSigner msg = some a) ∨
    a = start.identity ∧ ∃ msg ∈ (run crypto start inputs).outbound, commitPayload msg = some payload

instance (crypto : PbftCrypto) (start : PbftRuntime) (inputs : List PbftInput) (a : Address)
    (payload : Bytes) : Decidable (SignedCommit crypto start inputs a payload) :=
  inferInstanceAs (Decidable (_ ∨ _))

variable {start : PbftRuntime} {inputs : List PbftInput} {i : PbftInput}

theorem run_concat : run crypto start (inputs ++ [i]) = step crypto (run crypto start inputs) i :=
  foldl_concat ..

theorem outbound_step : s.outbound <+: (step crypto s i).outbound := by
  rcases step_effect crypto s i with heff | ⟨msg, nowMs, put, raw, signer, active, -, -, hstep⟩
  · exact heff.outbound
  · rw [hstep, handleCommit_effect.outbound]
    exact prefix_refl _

theorem identity_run : (run crypto start inputs).identity = start.identity := by
  induction inputs using List.reverseRecOn with
  | nil => rfl
  | append_singleton inputs i ih =>
    rw [run_concat, ← ih]
    rcases step_effect crypto (run crypto start inputs) i with
      heff | ⟨msg, nowMs, put, raw, signer, active, -, -, hstep⟩
    · exact heff.identity
    · rw [hstep, handleCommit_effect.identity]
      rfl

theorem SignedCommit.concat {a : Address} {payload : Bytes} (h : SignedCommit crypto start inputs a payload) :
    SignedCommit crypto start (inputs ++ [i]) a payload := by
  rcases h with ⟨msg, hmsg, hsigned⟩ | ⟨ha, msg, hmsg, hpayload⟩
  · refine Or.inl ⟨msg, ?_, hsigned⟩
    rw [filterMap_append]
    exact mem_append_left _ hmsg
  · refine Or.inr ⟨ha, msg, ?_, hpayload⟩
    rw [run_concat]
    exact outbound_step.subset hmsg

theorem Arrives.signed (h : Arrives crypto s msg raw signer active) :
    SignedCommit crypto start (inputs ++ [.inbound msg nowMs put]) signer raw.data := by
  refine Or.inl ⟨msg, ?_, h.payload, h.recovered⟩
  rw [filterMap_append]
  exact mem_append_right _ (mem_singleton.2 rfl)

theorem committers_signed (hstart : start.tally = .new) {key : Bytes} {a : Address}
    (ha : a ∈ (run crypto start inputs).tally.committers key) :
    SignedCommit crypto start inputs a key := by
  induction inputs using List.reverseRecOn generalizing key a with
  | nil =>
    rw [show run crypto start [] = start from rfl, hstart] at ha
    cases ha
  | append_singleton inputs i ih =>
    rw [run_concat] at ha
    rcases step_effect crypto (run crypto start inputs) i with
      heff | ⟨msg, nowMs, put, raw, signer, active, rfl, harr, hstep⟩
    · rcases heff.committers key a ha with ha | ⟨ha, msg, hmsg, hkey⟩
      · exact (ih ha).concat
      · exact Or.inr ⟨ha.trans identity_run, msg, by rwa [run_concat], hkey⟩
    · rw [hstep] at ha
      rcases handleCommit_effect.committers key a ha with ha | ⟨rfl, rfl⟩
      · exact (ih ha).concat
      · exact harr.signed

/-! ## Two sample runs -/

end PbftRuntime

namespace Sample

/-- One of two representatives has committed when the two are replaced by two others. -/
def rotated : List PbftInput :=
  [arrives (vote .commit 1 5 7), .rotate [address 1, address 2] [address 3, address 4] 100]

/-- Two representatives prepare two blocks, and each commits one of them. -/
def divided : List PbftInput :=
  [vote .prepare 1 5 7, vote .prepare 2 5 7, vote .commit 1 5 7,
    vote .prepare 1 5 8, vote .prepare 2 5 8, vote .commit 2 5 8].map arrives

/-- These representatives commit a block. -/
def commits (signers : List UInt8) (num : Int) : List PbftInput := signers.map fun n => arrives (vote .commit n 5 num)

/-- The decision on a block, with the signatures of these representatives. -/
def result (epoch num : Int) (signers : List UInt8) : CommitResult :=
  ⟨.block num, voteRaw .commit epoch 0 .block (payload num), signers.map (List.replicate 21)⟩

end Sample

namespace PbftRuntime

variable {crypto : PbftCrypto} {s start : PbftRuntime} {inputs : List PbftInput} {i : PbftInput}
  {raw : PbftRaw} {signer : Address} {signature : Bytes} {active : Finset Address}

open Sample

/-! ## Decisions -/

/-- A decision is taken when a Commit arrives and the votes on record meet the threshold. -/
theorem decision_arrives {r : CommitResult} (h : (step crypto s i).decisions = s.decisions ++ [r]) :
    ∃ msg nowMs put signer active, i = .inbound msg nowMs put ∧
      Arrives crypto s msg r.raw signer active ∧ agreeNodeCount active.card ≤
        (recordVote (s.tally.entry r.raw.data).commitVotes signer msg.signature).2.keys.length := by
  have hgrows : (step crypto s i).decisions ≠ s.decisions := by
    rw [h]
    exact fun heq => cons_ne_nil r [] (append_right_eq_self.1 heq)
  rcases step_effect crypto s i with heff | ⟨msg, nowMs, put, raw, signer, active, rfl, harr, hstep⟩
  · exact absurd heff.decisions hgrows
  · rw [hstep] at h hgrows
    rcases handleCommit_effect.decisions with hsame | ⟨⟨num, signatures, hnew⟩, hmet⟩
    · exact absurd hsame hgrows
    · have hr : r = ⟨.block num, raw, signatures⟩ :=
        singleton_inj.1 (append_cancel_left (h.symm.trans hnew))
      subst hr
      exact ⟨msg, nowMs, put, signer, active, rfl, harr, hmet⟩

theorem quorum_of_votes {votes : Votes} (hmember : signer ∈ active) (hall : ∀ a ∈ votes.keys, a ∈ active)
    (hmet : agreeNodeCount active.card ≤ (recordVote votes signer signature).2.keys.length) :
    (recordVote votes signer signature).2.keys.toFinset ⊆ active ∧
      active.card * 2 / 3 + 1 ≤ (recordVote votes signer signature).2.keys.toFinset.card := by
  constructor
  · intro a ha
    rcases mem_keys_recordVote (mem_toFinset.1 ha) with ha | rfl
    · exact hall a ha
    · exact hmember
  · rw [toFinset_card_of_nodup (AList.keys_nodup _)]
    have hne : active.card ≠ 0 := Finset.card_ne_zero_of_mem hmember
    rwa [agreeNodeCount, if_neg hne] at hmet

/-- **A decision has a quorum of one set.** After any run, if the Commits on record for the payload of
a message are all by members of the set that its epoch selects, and the message leads to a decision,
then more than two thirds of that set have signed a Commit for exactly that payload. -/
theorem decision_has_quorum (crypto : PbftCrypto) (start : PbftRuntime) (hstart : start.tally = .new)
    (inputs : List PbftInput) (msg : PbftMessage) (nowMs : Int) (put : Except String Unit)
    {raw : PbftRaw} (hraw : msg.rawData = some raw) {active : Finset Address}
    (hactive : (run crypto start inputs).loadActiveSetForEpoch raw.epoch = .ok active)
    (hone : ∀ a ∈ (run crypto start inputs).tally.committers raw.data, a ∈ active)
    {r : CommitResult} (hfinal : (run crypto start (inputs ++ [.inbound msg nowMs put])).decisions =
      (run crypto start inputs).decisions ++ [r]) :
    r.raw = raw ∧ ∃ quorum ⊆ active, active.card * 2 / 3 + 1 ≤ quorum.card ∧ ∀ a ∈ quorum,
      SignedCommit crypto start (inputs ++ [.inbound msg nowMs put]) a raw.data := by
  rw [run_concat] at hfinal
  obtain ⟨msg', nowMs', put', signer, active', hi, harr, hmet⟩ := decision_arrives hfinal
  cases hi
  have hr : r.raw = raw := Option.some.inj (harr.raw_eq.symm.trans hraw)
  have hsame : active' = active := by
    have hsel := harr.selected
    rw [hr, hactive] at hsel
    exact (Except.ok.inj hsel).symm
  subst hsame
  rw [← hr] at hone ⊢
  obtain ⟨hsub, hcard⟩ := quorum_of_votes harr.member hone hmet
  refine ⟨rfl, _, hsub, hcard, fun a ha => ?_⟩
  rcases mem_keys_recordVote (mem_toFinset.1 ha) with ha | rfl
  · exact (committers_signed hstart ha).concat
  · exact harr.signed

theorem decision_has_quorum_third :
    let active : Finset Address := {address 1, address 2, address 3}
    (result 5 7 [1, 2, 3]).raw = voteRaw .commit 5 0 .block (payload 7) ∧
      ∃ quorum ⊆ active, active.card * 2 / 3 + 1 ≤ quorum.card ∧ ∀ a ∈ quorum,
        SignedCommit namedSigners (booted [address 1, address 2, address 3])
          (commits [1, 2] 7 ++ [arrives (vote .commit 3 5 7)]) a (payload 7) :=
  decision_has_quorum namedSigners (booted [address 1, address 2, address 3]) rfl (commits [1, 2] 7)
    (vote .commit 3 5 7) 0 (.ok ()) rfl rfl (by decide +kernel) (by decide +kernel)

/-- **A vote from before a rotation decides after it.** Representative 1 commits a block; 1 and 2 are
replaced by 3 and 4, and 3 commits the block: it is final for the set of 3 and 4, of which a quorum is
both, and 4 has signed nothing. -/
theorem rotation_decides_without_quorum :
    (run namedSigners (booted [address 1, address 2]) rotated).loadActiveSetForEpoch 200 = .ok {address 3, address 4} ∧
      (run namedSigners (booted [address 1, address 2]) (rotated ++ [arrives (vote .commit 3 200 7)])).decisions =
        (run namedSigners (booted [address 1, address 2]) rotated).decisions ++ [result 200 7 [1, 3]] ∧
      ¬∃ quorum ⊆ ({address 3, address 4} : Finset Address),
        ({address 3, address 4} : Finset Address).card * 2 / 3 + 1 ≤ quorum.card ∧ ∀ a ∈ quorum,
          SignedCommit namedSigners (booted [address 1, address 2])
            (rotated ++ [arrives (vote .commit 3 200 7)]) a (payload 7) := by
  refine ⟨rfl, by decide +kernel, ?_⟩
  rintro ⟨quorum, hsub, hcard, hsigned⟩
  have htwo : ({address 3, address 4} : Finset Address).card = 2 := by decide +kernel
  have hall : quorum = {address 3, address 4} := Finset.eq_of_subset_of_card_le hsub (by omega)
  have hfour : address 4 ∈ quorum := by
    rw [hall]
    decide +kernel
  exact absurd (hsigned _ hfour) (by decide +kernel)

/-! ## One fixed set -/

/-- Whatever its epoch, a message is checked against `A`, or against nobody. -/
def Selects (A : Finset Address) (s : PbftRuntime) : Prop :=
  ∀ epoch active, s.loadActiveSetForEpoch epoch = .ok active → active = A ∨ active = ∅

variable {A : Finset Address}

theorem Selects.eq {msg : PbftMessage} (h : Selects A s) (harr : Arrives crypto s msg raw signer active) : active = A := by
  rcases h _ _ harr.selected with h | h
  · exact h
  · rw [h] at harr
    exact absurd harr.member (Finset.notMem_empty _)

/-- Before the first rotation. -/
theorem selects_fromCurrent {list : List Address} (h : s.srSnapshot = some (.fromCurrent list)) :
    Selects list.toFinset s := by
  intro epoch active hactive
  rw [loadActiveSetForEpoch, h] at hactive
  cases hactive
  unfold SrEpochSnapshot.activeSetForEpoch
  split
  · exact Or.inl rfl
  · exact Or.inr rfl

/-- With the local witness among them, only members are on record. -/
theorem committers_members (hstart : start.tally = .new)
    (hfixed : ∀ past, past <+: inputs → Selects A (run crypto start past)) (hlocal : start.identity ∈ A)
    {key : Bytes} {a : Address} (ha : a ∈ (run crypto start inputs).tally.committers key) : a ∈ A := by
  induction inputs using List.reverseRecOn generalizing key a with
  | nil =>
    rw [show run crypto start [] = start from rfl, hstart] at ha
    cases ha
  | append_singleton inputs i ih =>
    have hpast : ∀ past, past <+: inputs → Selects A (run crypto start past) :=
      fun past hp => hfixed past (hp.trans (prefix_append ..))
    rw [run_concat] at ha
    rcases step_effect crypto (run crypto start inputs) i with
      heff | ⟨msg, nowMs, put, raw, signer, active, rfl, harr, hstep⟩
    · rcases heff.committers key a ha with ha | ⟨rfl, -⟩
      · exact ih hpast ha
      · rwa [identity_run]
    · rw [hstep] at ha
      rcases handleCommit_effect.committers key a ha with ha | ⟨rfl, rfl⟩
      · exact ih hpast ha
      · rw [← (hpast inputs (prefix_refl _)).eq harr]
        exact harr.member

theorem decided_quorum (hstart : start.tally = .new) (hnone : start.decisions = [])
    (hfixed : ∀ past, past <+: inputs → Selects A (run crypto start past)) (hlocal : start.identity ∈ A ∨ A.card = 1)
    {r : CommitResult} (hr : r ∈ (run crypto start inputs).decisions) :
    ∃ quorum ⊆ A, A.card * 2 / 3 + 1 ≤ quorum.card ∧ ∀ a ∈ quorum, SignedCommit crypto start inputs a r.raw.data := by
  induction inputs using List.reverseRecOn with
  | nil =>
    rw [show run crypto start [] = start from rfl, hnone] at hr
    cases hr
  | append_singleton inputs i ih =>
    have hpast : ∀ past, past <+: inputs → Selects A (run crypto start past) :=
      fun past hp => hfixed past (hp.trans (prefix_append ..))
    have hold : r ∈ (run crypto start inputs).decisions → ∃ quorum ⊆ A,
        A.card * 2 / 3 + 1 ≤ quorum.card ∧ ∀ a ∈ quorum, SignedCommit crypto start (inputs ++ [i]) a r.raw.data := by
      intro hr
      obtain ⟨quorum, hsub, hcard, hsigned⟩ := ih hpast hr
      exact ⟨quorum, hsub, hcard, fun a ha => (hsigned a ha).concat⟩
    rw [run_concat] at hr
    rcases step_effect crypto (run crypto start inputs) i with
      heff | ⟨msg, nowMs, put, raw, signer, active, rfl, harr, hstep⟩
    · rw [heff.decisions] at hr
      exact hold hr
    · rw [hstep] at hr
      rcases handleCommit_effect.decisions with hsame | ⟨⟨num, signatures, hnew⟩, hmet⟩
      · rw [hsame] at hr
        exact hold hr
      · rw [hnew] at hr
        rcases mem_append.1 hr with hr | hr
        · exact hold hr
        · cases mem_singleton.1 hr
          have hA := (hpast inputs (prefix_refl _)).eq harr
          subst hA
          rcases hlocal with hlocal | hcard
          · obtain ⟨hsub, hcard⟩ := quorum_of_votes harr.member
              (fun a ha => committers_members hstart hpast hlocal ha) hmet
            refine ⟨_, hsub, hcard, fun a ha => ?_⟩
            rcases mem_keys_recordVote (mem_toFinset.1 ha) with ha | rfl
            · exact (committers_signed hstart ha).concat
            · exact harr.signed
          · -- a set of one: the message that decides is its vote
            refine ⟨{signer}, Finset.singleton_subset_iff.2 harr.member, ?_, fun a ha => ?_⟩
            · rw [hcard, Finset.card_singleton]
            · rw [Finset.mem_singleton.1 ha]
              exact harr.signed

/-- **Agreement.** While every message is checked against one set `A`, and the local witness is a
member of `A` (or `A` has one member only): any two payloads that are decided have more than a third of
`A` in common, who have signed a Commit for both. -/
theorem agreement (crypto : PbftCrypto) (start : PbftRuntime) (hstart : start.tally = .new)
    (hnone : start.decisions = []) (inputs : List PbftInput) (A : Finset Address)
    (hfixed : ∀ past, past <+: inputs → Selects A (run crypto start past)) (hlocal : start.identity ∈ A ∨ A.card = 1)
    {r r' : CommitResult} (hr : r ∈ (run crypto start inputs).decisions)
    (hr' : r' ∈ (run crypto start inputs).decisions) :
    ∃ common ⊆ A, A.card / 3 + 1 ≤ common.card ∧ ∀ a ∈ common,
      SignedCommit crypto start inputs a r.raw.data ∧ SignedCommit crypto start inputs a r'.raw.data := by
  obtain ⟨q, hq, hcard, hsigned⟩ := decided_quorum hstart hnone hfixed hlocal hr
  obtain ⟨q', hq', hcard', hsigned'⟩ := decided_quorum hstart hnone hfixed hlocal hr'
  refine ⟨q ∩ q', fun a ha => hq (Finset.mem_inter.1 ha).1, ?_, fun a ha => ?_⟩
  · have hunion : (q ∪ q').card ≤ A.card := Finset.card_le_card (Finset.union_subset hq hq')
    have hsum := Finset.card_union_add_card_inter q q'
    omega
  · exact ⟨hsigned a (Finset.mem_inter.1 ha).1, hsigned' a (Finset.mem_inter.1 ha).2⟩

/-- Of four representatives, three commit one block and three another. -/
theorem agreement_four :
    let active : List Address := [address 1, address 2, address 3, address 9]
    let inputs := commits [1, 2, 3] 7 ++ commits [2, 3, 9] 8
    ∃ common ⊆ active.toFinset, active.toFinset.card / 3 + 1 ≤ common.card ∧ ∀ a ∈ common,
      SignedCommit namedSigners (booted active) inputs a (payload 7) ∧
        SignedCommit namedSigners (booted active) inputs a (payload 8) := by
  intro active inputs
  have hsnap : ∀ past ∈ inputs.inits, (run namedSigners (booted active) past).srSnapshot = some (.fromCurrent active) := by
    decide +kernel
  exact @agreement namedSigners (booted active) rfl rfl inputs active.toFinset
    (fun past hpast => selects_fromCurrent (hsnap past ((mem_inits ..).2 hpast)))
    (Or.inl (by decide +kernel)) (result 5 7 [1, 2, 3]) (result 5 8 [2, 3, 9]) (by decide +kernel)
    (by decide +kernel)

/-- **The vote of an outsider decides twice.** The local witness is not one of the two
representatives, who commit one block each; its own Commits complete both quorums, and nobody in the
set has signed both. -/
theorem outsider_breaks_agreement :
    (∀ past, past <+: divided → Selects {address 1, address 2}
        (run namedSigners (booted [address 1, address 2]) past)) ∧
      (run namedSigners (booted [address 1, address 2]) divided).decisions = [result 5 7 [1, 9], result 5 8 [2, 9]] ∧
      payload 7 ≠ payload 8 ∧
      ¬∃ common ⊆ ({address 1, address 2} : Finset Address),
        ({address 1, address 2} : Finset Address).card / 3 + 1 ≤ common.card ∧ ∀ a ∈ common,
          SignedCommit namedSigners (booted [address 1, address 2]) divided a (payload 7) ∧
            SignedCommit namedSigners (booted [address 1, address 2]) divided a (payload 8) := by
  have hsnap : ∀ past ∈ divided.inits, (run namedSigners (booted [address 1, address 2])
      past).srSnapshot = some (.fromCurrent [address 1, address 2]) := by decide +kernel
  refine ⟨fun past hpast => ?_, by decide +kernel, by decide +kernel, ?_⟩
  · exact selects_fromCurrent (hsnap past ((mem_inits ..).2 hpast))
  · rintro ⟨common, hsub, hcard, hsigned⟩
    have hnobody : ∀ a ∈ ({address 1, address 2} : Finset Address),
        ¬(SignedCommit namedSigners (booted [address 1, address 2]) divided a (payload 7) ∧
          SignedCommit namedSigners (booted [address 1, address 2]) divided a (payload 8)) := by
      decide +kernel
    obtain ⟨a, ha⟩ := Finset.card_pos.1 (Nat.lt_of_lt_of_le (Nat.succ_pos _) hcard)
    exact hnobody a (hsub ha) (hsigned a ha)

end PbftRuntime

end TronGoblin
