import TronGoblin.Node.PbftRuntime

/-!
# What a PBFT runtime signs, and what a detector makes of it

* `asked`: the vote that an input asks the runtime for; `sends_step` shows that it signs no other.
* `observeAll`: the evidence that another node's detector produces from a list of messages.
* `no_evidence`: **a runtime produces no evidence against itself** when the votes it is asked for name
  one payload per epoch, view, message type and data type.
-/

namespace TronGoblin

open List DataType

namespace PbftRuntime

/-! ## What is asked for -/

/-- The vote that an admitted message asks for. -/
def answer (raw : PbftRaw) : Option PbftRaw :=
  if raw.dataType = srl.code then
    match MsgType.tryFrom raw.msgType with
    | some .preprepare => some (voteRaw .prepare raw.epoch raw.epoch .srl raw.data)
    | some .prepare => some (voteRaw .commit raw.epoch raw.viewN .srl raw.data)
    | _ => none
  else if raw.dataType = block.code then
    match MsgType.tryFrom raw.msgType with
    | some .preprepare => some (voteRaw .prepare raw.epoch 0 .block raw.data)
    | some .prepare => some (voteRaw .commit raw.epoch raw.viewN .block raw.data)
    | _ => none
  else none

/-- Signed by a member of the set that the message's epoch selects. -/
def admits (crypto : PbftCrypto) (s : PbftRuntime) (msg : PbftMessage) (raw : PbftRaw) : Bool :=
  match crypto.recoverSigner msg, s.loadActiveSetForEpoch raw.epoch with
  | some signer, .ok active => signer ∈ active
  | _, _ => false

def asked (crypto : PbftCrypto) (s : PbftRuntime) : PbftInput → Option PbftRaw
  | .inbound msg _ _ => msg.rawData.bind fun raw => if admits crypto s msg raw then answer raw else none
  | .localBlock num hash epoch _ =>
    some (voteRaw .prepare epoch 0 .block (blockDataPayload num hash))
  | .tick _ => s.srlDue.map fun list =>
    voteRaw .prepare s.currentCycleNumber s.currentCycleNumber .srl (srlDataPayload list)
  | .rotate _ _ _ => none
  | .chain _ _ => none

def askedAlong (crypto : PbftCrypto) : PbftRuntime → List PbftInput → List PbftRaw
  | _, [] => []
  | s, i :: inputs => (asked crypto s i).toList ++ askedAlong crypto (step crypto s i) inputs

/-! ## What is sent -/

/-- At most one message is sent, for the vote that was asked for. -/
def Sends (ask : Option PbftRaw) (s s' : PbftRuntime) : Prop :=
  s'.outbound = s.outbound ∨ ∃ raw signature, ask = some raw ∧ s'.outbound = s.outbound ++ [⟨some raw, signature⟩]

variable {crypto : PbftCrypto} {s s' : PbftRuntime} {d : DataType} {raw : PbftRaw}
  {signer : Address} {signature data : Bytes} {active : Finset Address} {epoch viewN nowMs : Int}
  {put : Except String Unit} {msg : PbftMessage}

theorem outbound_setTally (s : PbftRuntime) (d : DataType) (t : PbftVoteTally) :
    (s.setTally d t).outbound = s.outbound := by
  cases d <;> rfl

theorem sends_sendPrepare : Sends (some (voteRaw .prepare epoch viewN d data)) s
    (sendPrepare crypto s d epoch viewN data nowMs).2 := by
  unfold sendPrepare
  split
  · exact Or.inl rfl
  · rename_i msg hcast
    obtain ⟨signature, rfl⟩ := castVote_eq hcast
    exact Or.inr ⟨_, signature, rfl, rfl⟩

theorem sends_sendCommit : Sends (some (voteRaw .commit epoch viewN d data)) s
    (sendCommit crypto s d epoch viewN data nowMs).2 := by
  unfold sendCommit
  split
  · exact Or.inl rfl
  · rename_i msg hcast
    obtain ⟨signature, rfl⟩ := castVote_eq hcast
    exact Or.inr ⟨_, signature, rfl, rfl⟩

theorem sends_announce : Sends (some (voteRaw .prepare epoch viewN d data)) s
    (announce crypto s d epoch viewN data nowMs).2 := by
  unfold announce
  dsimp only
  split
  · exact Or.inl (outbound_setTally ..)
  · unfold Sends
    rw [← outbound_setTally s d ((s.tallyOf d).markPrepared data nowMs).2]
    exact sends_sendPrepare

theorem sends_prepareVoted : Sends (some (voteRaw .commit raw.epoch raw.viewN d raw.data)) s
    (prepareVoted crypto s d raw signer signature active nowMs).2 := by
  unfold prepareVoted
  dsimp only
  split
  · unfold Sends
    rw [← outbound_setTally s d ((s.tallyOf d).votePrepare raw.data nowMs signer signature active.card).2]
    exact sends_sendCommit
  · exact Or.inl (outbound_setTally ..)

theorem outbound_handleCommit : (handleCommit s raw signer signature active nowMs put).2.outbound = s.outbound := by
  unfold handleCommit
  dsimp only
  split
  · split
    · rfl
    · split <;> rfl
  · rfl

theorem outbound_handleSrlCommit :
    (handleSrlCommit s raw signer signature active nowMs put).2.outbound = s.outbound := by
  unfold handleSrlCommit
  dsimp only
  split
  · split <;> rfl
  · rfl

theorem sends_handleSrlInbound (hsrl : raw.dataType = srl.code) :
    Sends (if admits crypto s msg raw then answer raw else none) s
      (handleSrlInbound crypto s msg raw nowMs put).2 := by
  unfold handleSrlInbound admits
  cases crypto.recoverSigner msg with
  | none => exact Or.inl rfl
  | some signer =>
    cases s.loadActiveSetForEpoch raw.epoch with
    | error e => exact Or.inl rfl
    | ok active =>
      by_cases hmem : signer ∈ active
      · simp only [hmem, decide_true, if_true]
        rw [answer, if_pos hsrl]
        rcases MsgType.tryFrom raw.msgType with _ | type
        · exact Or.inl rfl
        · cases type with
          | viewChange => exact Or.inl rfl
          | request => exact Or.inl rfl
          | preprepare => exact sends_announce
          | prepare => exact sends_prepareVoted
          | commit => exact Or.inl outbound_handleSrlCommit
      · simp only [hmem, if_false]
        exact Or.inl rfl

theorem sends_handleBlockInbound (hblock : raw.dataType = block.code) :
    Sends (if admits crypto s msg raw then answer raw else none) s
      (handleBlockInbound crypto s msg raw nowMs put).2 := by
  have hsrl : raw.dataType ≠ srl.code := by
    rw [hblock]
    decide
  unfold handleBlockInbound admits
  rcases hparse : parseBlockDataPayload raw.data with _ | ⟨num, hash⟩
  · exact Or.inl rfl
  cases crypto.recoverSigner msg with
  | none => exact Or.inl rfl
  | some signer =>
    cases s.loadActiveSetForEpoch raw.epoch with
    | error e => exact Or.inl rfl
    | ok active =>
      by_cases hmem : signer ∈ active
      · simp only [hmem, decide_true, if_true]
        rw [answer, if_neg hsrl, if_pos hblock]
        rcases MsgType.tryFrom raw.msgType with _ | type
        · exact Or.inl rfl
        · cases type with
          | viewChange => exact Or.inl rfl
          | request => exact Or.inl rfl
          | preprepare =>
            rw [← blockDataPayload_parse hparse]
            exact sends_announce
          | prepare => exact sends_prepareVoted
          | commit => exact Or.inl outbound_handleCommit
      · simp only [hmem, if_false]
        exact Or.inl rfl

/-- **Only what was asked for is signed.** -/
theorem sends_step (crypto : PbftCrypto) (s : PbftRuntime) (i : PbftInput) :
    Sends (asked crypto s i) s (step crypto s i) := by
  cases i with
  | inbound msg nowMs put =>
    show Sends (msg.rawData.bind fun raw => if admits crypto s msg raw then answer raw else none) s
      (handleInbound crypto s msg nowMs put).2
    rw [handleInbound]
    cases msg.rawData with
    | none => exact Or.inl rfl
    | some raw =>
      dsimp [Option.bind_some]
      by_cases hsrl : raw.dataType = srl.code
      · rw [if_pos hsrl]
        exact sends_handleSrlInbound hsrl
      · rw [if_neg hsrl]
        by_cases hblock : raw.dataType = block.code
        · rw [if_neg (not_not.2 hblock)]
          exact sends_handleBlockInbound hblock
        · rw [if_pos hblock]
          exact Or.inl rfl
  | localBlock num hash epoch nowMs => exact sends_announce
  | tick nowMs =>
    show Sends (asked crypto s (.tick nowMs)) s (tick crypto s nowMs)
    unfold asked tick maybeCastSrlOnCycleAdvance
    have hdue : srlDue { s with tally := s.tally.expireStale nowMs
                                srlTally := s.srlTally.expireStale nowMs } = s.srlDue := rfl
    rw [hdue]
    cases s.srlDue with
    | none => exact Or.inl rfl
    | some list => exact sends_announce (s := { s with
        tally := s.tally.expireStale nowMs, srlTally := s.srlTally.expireStale nowMs })
  | rotate prev new time => exact Or.inl rfl
  | chain cycle schedule => exact Or.inl rfl

theorem outbound_asked {inputs : List PbftInput} :
    ∀ msg ∈ (run crypto s inputs).outbound,
      msg ∈ s.outbound ∨ ∃ raw ∈ askedAlong crypto s inputs, msg.rawData = some raw := by
  induction inputs generalizing s with
  | nil => exact fun msg hmsg => Or.inl hmsg
  | cons i inputs ih =>
    intro msg hmsg
    rcases ih msg hmsg with hmsg | ⟨raw, hraw, heq⟩
    · rcases sends_step crypto s i with hsame | ⟨raw, signature, hask, hsent⟩
      · rw [hsame] at hmsg
        exact Or.inl hmsg
      · rw [hsent] at hmsg
        rcases mem_append.1 hmsg with hmsg | hmsg
        · exact Or.inl hmsg
        · rw [mem_singleton.1 hmsg]
          refine Or.inr ⟨raw, ?_, rfl⟩
          rw [askedAlong, hask]
          exact mem_append_left _ (mem_singleton.2 rfl)
    · exact Or.inr ⟨raw, mem_append_right _ hraw, heq⟩

end PbftRuntime

/-! ## The detector -/

/-- Another node hands a message to its detector. -/
def observe (crypto : PbftCrypto) (det : EquivocationDetector) (msg : PbftMessage) :
    Option EquivocationEvidence × EquivocationDetector :=
  match crypto.recoverSigner msg with
  | none => (none, det)
  | some signer => det.record signer msg

/-- The evidence that the messages produce, in order. -/
def observeAll (crypto : PbftCrypto) :
    EquivocationDetector → List PbftMessage → List EquivocationEvidence
  | _, [] => []
  | det, msg :: msgs =>
    (observe crypto det msg).1.toList ++ observeAll crypto (observe crypto det msg).2 msgs

/-- One payload per epoch, view, message type and data type. -/
def Consistent (votes : List PbftRaw) : Prop :=
  ∀ v ∈ votes, ∀ v' ∈ votes, v.epoch = v'.epoch → v.viewN = v'.viewN → v.msgType = v'.msgType →
    v.dataType = v'.dataType → v.data = v'.data

instance (votes : List PbftRaw) : Decidable (Consistent votes) :=
  inferInstanceAs (Decidable (∀ v ∈ votes, ∀ v' ∈ votes, _))

/-- What the detector has seen first are votes of the list. -/
def SeenAmong (votes : List PbftRaw) (det : EquivocationDetector) : Prop :=
  ∀ key prev, det.firstSeen.lookup key = some prev →
    ∃ v ∈ votes, key = EquivocationDetector.key key.signer v ∧ prev.data = v.data

variable {crypto : PbftCrypto} {votes : List PbftRaw} {det : EquivocationDetector}

theorem observe_consistent (hcons : Consistent votes) (hseen : SeenAmong votes det)
    {msg : PbftMessage} {raw : PbftRaw} (hmsg : msg.rawData = some raw) (hraw : raw ∈ votes) :
    (observe crypto det msg).1 = none ∧ SeenAmong votes (observe crypto det msg).2 := by
  unfold observe
  cases crypto.recoverSigner msg with
  | none => exact ⟨rfl, hseen⟩
  | some signer =>
    dsimp only
    rw [EquivocationDetector.record, hmsg]
    dsimp only
    cases hfirst : det.firstSeen.lookup (EquivocationDetector.key signer raw) with
    | some prev =>
      obtain ⟨v, hv, hkey, hdata⟩ := hseen _ _ hfirst
      have hsame : prev.data = raw.data := by
        obtain ⟨hepoch, hview, hmsgType, hdataType, -⟩ := EquivocationKey.mk.inj hkey
        rw [hdata]
        exact (hcons raw hraw v hv hepoch hview hmsgType hdataType).symm
      dsimp only
      rw [if_pos hsame]
      exact ⟨rfl, hseen⟩
    | none =>
      refine ⟨rfl, fun key prev hlookup => ?_⟩
      by_cases hkey : key = EquivocationDetector.key signer raw
      · subst hkey
        rw [AList.lookup_insert] at hlookup
        cases hlookup
        exact ⟨raw, hraw, rfl, rfl⟩
      · rw [AList.lookup_insert_ne hkey] at hlookup
        exact hseen key prev hlookup

theorem observeAll_consistent (hcons : Consistent votes) {msgs : List PbftMessage}
    (hmsgs : ∀ msg ∈ msgs, ∃ raw ∈ votes, msg.rawData = some raw) (hseen : SeenAmong votes det) :
    observeAll crypto det msgs = [] := by
  induction msgs generalizing det with
  | nil => rfl
  | cons msg msgs ih =>
    obtain ⟨raw, hraw, hmsg⟩ := hmsgs msg (mem_cons_self ..)
    obtain ⟨hnone, hseen'⟩ := @observe_consistent crypto votes det hcons hseen msg raw hmsg hraw
    rw [observeAll, hnone, ih (fun m hm => hmsgs m (mem_cons_of_mem _ hm)) hseen']
    rfl

namespace PbftRuntime

/-- **A runtime does not incriminate itself**, as long as the votes it is asked for name one payload
per epoch, view, message type and data type: a fresh detector makes nothing of all that it sends. -/
theorem no_evidence (crypto : PbftCrypto) (start : PbftRuntime) (hstart : start.outbound = [])
    (inputs : List PbftInput) (hcons : Consistent (askedAlong crypto start inputs)) (cap : Nat) :
    observeAll crypto (.new cap) (run crypto start inputs).outbound = [] := by
  refine observeAll_consistent hcons (fun msg hmsg => ?_) (fun _ _ h => nomatch h)
  rcases outbound_asked msg hmsg with hmsg | hasked
  · rw [hstart] at hmsg
    cases hmsg
  · exact hasked

open Sample

/-- Two blocks at two heights, in these epochs. -/
def twoHeights (e e' : Int) : List PbftInput :=
  [.localBlock 1 ⟨List.replicate 32 1, length_replicate⟩ e 0, .localBlock 2 ⟨List.replicate 32 2, length_replicate⟩ e' 0]

theorem no_evidence_two_epochs :
    (run namedSigners (booted [address 9]) (twoHeights 5 6)).outbound.length = 2 ∧
      observeAll namedSigners (.new 256) (run namedSigners (booted [address 9]) (twoHeights 5 6)).outbound = [] :=
  ⟨by decide +kernel, no_evidence namedSigners (booted [address 9]) rfl (twoHeights 5 6) (by decide +kernel) 256⟩

/-- **Two blocks in a row of one epoch are taken for a double vote**: the detector's key has no height, and the view
is always zero. -/
theorem two_heights_incriminate :
    (observeAll namedSigners (.new 256)
      (run namedSigners (booted [address 9]) (twoHeights 5 5)).outbound).map (·.signer) = [address 9] := by
  decide +kernel

end PbftRuntime

end TronGoblin
