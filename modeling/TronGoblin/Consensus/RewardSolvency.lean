import TronGoblin.Consensus.VoteIndex

/-!
# Rewards are covered

Whatever was paid to the voters is covered by the reward pools of the cycles that are over: what the accounts are
still due and what they were paid is together at most that.

* `State.countedOf`: the votes of an account that are in the counts of the witnesses.
* `Marks`, `Indexed`: what holds of a voter's marks and of the index.
* `Solvent`: all of it, with what has been paid; kept by a claim (`Solvent.withdraw`), a change of votes
  (`Solvent.of_move`), an addition to a pool (`Solvent.addReward`) and the pass (`Solvent.maintenance`).
* `payouts_solvent`: the result over every run.
-/

namespace TronGoblin.Stake

open Assoc List Option State Delegation History
open Checked (satI64 FitsI64)
open History (after Each)

/-! ## The votes of the first witnesses -/

/-- The votes that a witness was given at first. -/
def given (seeds : List (Address × Int)) (w : Address) : Int :=
  (seeds.map fun seed => if seed.1 = w then seed.2 else 0).sum

theorem given_cons (seed : Address × Int) (seeds : List (Address × Int)) (w : Address) :
    given (seed :: seeds) w = (if seed.1 = w then seed.2 else 0) + given seeds w := sum_cons

theorem given_nonneg {seeds : List (Address × Int)} (h : ∀ seed ∈ seeds, 0 ≤ seed.2) (w : Address) :
    0 ≤ given seeds w := by
  refine sum_map_nonneg fun seed hseed => ?_
  split
  · exact h seed hseed
  · exact le_refl 0

/-- Of these, what the next pass takes back. -/
def State.pending (seeds : List (Address × Int)) (s : State) (w : Address) : Int :=
  if s.removeThePowerOfTheGr = some 1 then given seeds w else 0

section Removal

variable {seeds : List (Address × Int)}

theorem voteCount_taken (hseeds : ∀ seed ∈ seeds, 0 ≤ seed.2) {witnesses : Table Address Witness} {w : Address}
    (h : ∀ n, (witnesses.lookup w).map (·.voteCount) = some n → given seeds w ≤ n ∧ n ≤ 0x7fffffffffffffff) :
    ((seeds.foldl
        (fun witnesses gr => updateWitness (fun w => { w with voteCount := satI64 (w.voteCount - gr.2) }) witnesses gr.1)
        witnesses).lookup w).map (·.voteCount) =
      ((witnesses.lookup w).map (·.voteCount)).map (· - given seeds w) := by
  induction seeds generalizing witnesses with
  | nil =>
    rw [foldl_nil]
    cases witnesses.lookup w <;> simp [given]
  | cons seed seeds ih =>
    have hrest : ∀ other ∈ seeds, 0 ≤ other.2 := fun other hother => hseeds other (mem_cons_of_mem seed hother)
    have hhead := hseeds seed mem_cons_self
    have hnonneg := given_nonneg hrest w
    rw [given_cons] at h ⊢
    -- the count after this seed, which is still large enough for the others
    have hstep : ((updateWitness (fun w => { w with voteCount := satI64 (w.voteCount - seed.2) }) witnesses
        seed.1).lookup w).map (·.voteCount) =
          ((witnesses.lookup w).map (·.voteCount)).map (· - if seed.1 = w then seed.2 else 0) := by
      rw [lookup_updateWitness]
      by_cases hw : w = seed.1
      · rw [if_pos hw, if_pos hw.symm, ← hw]
        cases hlook : witnesses.lookup w with
        | none => rfl
        | some witness =>
          obtain ⟨hcover, hmax⟩ := h witness.voteCount (by rw [hlook]; rfl)
          rw [if_pos hw.symm] at hcover
          exact congrArg some (Checked.satI64_of_fits ⟨by omega, by omega⟩)
      · rw [if_neg hw, if_neg (Ne.symm hw)]
        cases witnesses.lookup w <;> simp
    rw [foldl_cons, ih hrest, hstep, Option.map_map]
    · congr 1
      funext n
      simp only [Function.comp_apply]
      omega
    · intro n hn
      rw [hstep] at hn
      obtain ⟨before, hbefore, rfl⟩ := map_eq_some_iff.1 hn
      have hbounds := h before hbefore
      split_ifs at hbounds ⊢ <;> omega

theorem tryRemove_voteCount {chain : Chain} (hchain : Rewarding seeds chain) (hseeds : ∀ seed ∈ seeds, 0 ≤ seed.2)
    {s : State} {w : Address} (h : ∀ n, s.voteCount w = some n → s.pending seeds w ≤ n ∧ n ≤ 0x7fffffffffffffff) :
    (tryRemoveThePowerOfTheGr chain s).voteCount w = (s.voteCount w).map (· - s.pending seeds w) := by
  unfold tryRemoveThePowerOfTheGr pending
  unfold pending at h
  split
  · next harmed =>
    rw [if_pos harmed] at h
    rw [voteCount, voteCount, hchain.genesisWitnesses]
    exact voteCount_taken hseeds h
  · simp

theorem tryRemove_pending (chain : Chain) (s : State) (w : Address) :
    (tryRemoveThePowerOfTheGr chain s).pending seeds w = 0 := by
  unfold tryRemoveThePowerOfTheGr pending
  split
  · rfl
  · rfl

end Removal

/-! ## Votes that are counted -/

/-- The votes of an account that are in the counts: those before the changes of the cycle. -/
def State.countedOf (s : State) (a : Address) (votes : List Vote) : List Vote :=
  (s.votes.lookup a).elim votes (·.oldVotes)

def State.countedVotes (s : State) (w : Address) : Int :=
  total (fun a account => votesFor (s.countedOf a account.votes) w) s.accounts

variable {s : State}

theorem Tallied.countedVotes {surplus : Address → Int} (h : Tallied surplus s) (w : Address) :
    s.countedVotes w = s.liveVotes w - s.netVotes w := by
  have hnet : total (fun a account => votesFor account.votes w - votesFor (s.countedOf a account.votes) w)
      s.accounts = s.netVotes w := by
    refine total_ext fun a => ?_
    rw [elim_votesOf s a fun votes => votesFor votes w - votesFor (s.countedOf a votes) w]
    unfold countedOf
    cases hrecord : s.votes.lookup a with
    | none => cases s.votesOf a <;> simp
    | some record =>
      rw [h.records a record hrecord]
      rfl
  rw [total_sub] at hnet
  unfold State.countedVotes State.liveVotes
  omega

/-! ## Invariants -/

/-- What holds of the marks of a voter.  Whoever has changed its votes in the cycle was paid before; the votes
recorded for the cycle are those that are counted. -/
structure Marks (s : State) (a : Address) : Prop where
  begin_nonneg : 0 ≤ s.delegation.getBeginCycle a
  begin_le : s.delegation.getBeginCycle a ≤ s.currentCycleNumber + 1
  later : ∀ cycle, s.currentCycleNumber < cycle → s.delegation.getAccountVote a cycle = none
  settled : ∀ record, s.votes.lookup a = some record → s.SettledUp a
  counted : ∀ recorded, s.delegation.getBeginCycle a = s.currentCycleNumber →
    s.delegation.getAccountVote a s.currentCycleNumber = some recorded →
      s.delegation.getEndCycle a = s.currentCycleNumber + 1 ∧
        ∀ votes, s.votesOf a = some votes → s.countedOf a votes = recorded
  votes : ∀ votes, s.votesOf a = some votes → NonnegVotes votes
  recorded : ∀ cycle recorded, s.delegation.getAccountVote a cycle = some recorded → NonnegVotes recorded
  old : ∀ record, s.votes.lookup a = some record → NonnegVotes record.oldVotes

theorem Marks.congr {s s' : State} {a : Address} (h : Marks s a)
    (hmarks : s'.delegation.getBeginCycle a = s.delegation.getBeginCycle a ∧
      s'.delegation.getEndCycle a = s.delegation.getEndCycle a ∧
        ∀ cycle, s'.delegation.getAccountVote a cycle = s.delegation.getAccountVote a cycle)
    (hrecord : s'.votes.lookup a = s.votes.lookup a) (hvotes : s'.votesOf a = s.votesOf a)
    (hcycle : s'.currentCycleNumber = s.currentCycleNumber) : Marks s' a := by
  obtain ⟨hbegin, hend, hvote⟩ := hmarks
  constructor
  · exact hbegin ▸ h.begin_nonneg
  · rw [hbegin, hcycle]
    exact h.begin_le
  · simpa only [hvote, hcycle] using h.later
  · simpa only [SettledUp, hbegin, hvote, hcycle, hrecord] using h.settled
  · simpa only [countedOf, hbegin, hend, hvote, hcycle, hrecord, hvotes] using h.counted
  · exact hvotes ▸ h.votes
  · simpa only [hvote] using h.recorded
  · exact hrecord ▸ h.old

theorem Marks.nonneg_countedOf {a : Address} (h : Marks s a) {votes : List Vote} (hvotes : s.votesOf a = some votes) :
    NonnegVotes (s.countedOf a votes) := by
  unfold countedOf
  cases hrecord : s.votes.lookup a with
  | none => exact h.votes votes hvotes
  | some record => exact h.old record hrecord

structure Indexed (s : State) : Prop where
  ahead : ∀ cycle w, s.currentCycleNumber ≤ cycle → s.delegation.witnessVi.lookup (cycle, w) = none
  rising : s.Rising
  range : ∀ w cycle, 0 ≤ s.delegation.readVi w cycle ∧ s.delegation.readVi w cycle ≤ 0x7fffffffffffffffffffffffffffffff
  witnessed : ∀ w, s.witnesses.lookup w = none → ∀ cycle, s.delegation.readVi w cycle = 0
  pools : ∀ w cycle, 0 ≤ s.delegation.getReward w cycle

theorem Indexed.congr {s s' : State} (h : Indexed s) (hvi : s'.delegation.witnessVi = s.delegation.witnessVi)
    (hreward : s'.delegation.reward = s.delegation.reward) (hwitnesses : s'.witnesses = s.witnesses)
    (hcycle : s'.currentCycleNumber = s.currentCycleNumber) : Indexed s' := by
  have hread : s'.delegation.readVi = s.delegation.readVi := by
    funext w cycle
    rw [readVi, hvi, readVi]
  constructor
  · rw [hvi, hcycle]
    exact h.ahead
  · simpa only [Rising, growth, hread, hcycle] using h.rising
  · rw [hread]
    exact h.range
  · rw [hread, hwitnesses]
    exact h.witnessed
  · simpa only [getReward, hreward] using h.pools

namespace State

def dues (s : State) : Int := total (fun a account => s.due a account.votes) s.accounts

/-- The reward pools of all witnesses and all cycles that are over. -/
def finishedPools (s : State) : Int :=
  total (fun key pool => if key.1 < s.currentCycleNumber ∧ (s.witnesses.lookup key.2).isSome then pool else 0)
    s.delegation.reward

end State

/-- The state of the rewards, with what has been paid.  The counts contain at least the votes that are counted. -/
structure Solvent (seeds : List (Address × Int)) (s : State) (paid : Int) : Prop where
  cycle : 0 ≤ s.currentCycleNumber
  marks : ∀ a, Marks s a
  index : Indexed s
  tally : ∃ surplus, Tallied surplus s ∧ ∀ w n, s.voteCount w = some n → s.pending seeds w ≤ surplus w
  fits : ∀ w n, s.voteCount w = some n → n ≤ 0x7fffffffffffffff
  covered : REWARD_VI_DECIMAL * paid + s.dues ≤ REWARD_VI_DECIMAL * s.finishedPools

theorem Solvent.dues_nonneg {seeds : List (Address × Int)} {paid : Int} (h : Solvent seeds s paid) : 0 ≤ s.dues := by
  refine total_nonneg fun a account hlook => ?_
  have hmarks := h.marks a
  have hvotes := hmarks.votes _ (votesOf_lookup hlook)
  have hweighed : ∀ votes b e, NonnegVotes votes → b ≤ e → e ≤ s.currentCycleNumber →
      0 ≤ weighed votes (s.delegation.growth b e) :=
    fun votes b e hnonneg hbe he => weighed_nonneg hnonneg fun w => h.index.rising w b e hbe he
  unfold due
  dsimp only
  split
  · exact Int.le_refl 0
  · split
    · refine Int.add_nonneg ?_ (hweighed _ _ _ hvotes (by omega) (Int.le_refl _))
      cases hrecorded : s.delegation.getAccountVote a (s.delegation.getBeginCycle a) with
      | none => exact Int.le_refl 0
      | some recorded => exact hweighed _ _ _ (hmarks.recorded _ recorded hrecorded) (by omega) (by omega)
    · exact hweighed _ _ _ hvotes (by omega) (Int.le_refl _)

/-- What is due changes with the one account whose votes or marks do. -/
theorem dues_update {s s' : State} {a : Address} {old new : List Vote} (hold : s.votesOf a = some old)
    (hnew : s'.votesOf a = some new)
    (hothers : ∀ b, b ≠ a → s'.votesOf b = s.votesOf b ∧ ∀ l, s'.due b l = s.due b l) :
    s'.dues = s.dues - s.due a old + s'.due a new := by
  have hdue : ∀ b, b ≠ a → (s'.accounts.lookup b).elim 0 (fun account => s'.due b account.votes) =
      (s.accounts.lookup b).elim 0 (fun account => s.due b account.votes) := by
    intro b hb
    rw [elim_votesOf s' b (s'.due b), elim_votesOf s b (s.due b), (hothers b hb).1]
    cases s.votesOf b with
    | none => rfl
    | some l => exact (hothers b hb).2 l
  have hupdate : s'.dues = s.dues - _ + _ := total_update a hdue
  rwa [elim_votesOf s' a (s'.due a), elim_votesOf s a (s.due a), hold, hnew] at hupdate

/-- A change of marks or votes, with the pools, the index and the counts as they were. -/
theorem Solvent.keep {seeds : List (Address × Int)} {paid paid' : Int} {s s' : State} (h : Solvent seeds s paid)
    (hcycle : s'.currentCycleNumber = s.currentCycleNumber) (hwitnesses : s'.witnesses = s.witnesses)
    (hflag : s'.removeThePowerOfTheGr = s.removeThePowerOfTheGr)
    (hvi : s'.delegation.witnessVi = s.delegation.witnessVi) (hreward : s'.delegation.reward = s.delegation.reward)
    (hmarks : ∀ a, Marks s' a) (htally : ∀ surplus, Tallied surplus s → Tallied surplus s')
    (hdues : REWARD_VI_DECIMAL * paid' + s'.dues ≤ REWARD_VI_DECIMAL * paid + s.dues) : Solvent seeds s' paid' := by
  obtain ⟨surplus, htallied, hcover⟩ := h.tally
  refine ⟨hcycle ▸ h.cycle, hmarks, h.index.congr hvi hreward hwitnesses hcycle,
    ⟨surplus, htally surplus htallied, ?_⟩, ?_, hdues.trans ?_⟩
  · unfold voteCount pending
    rw [hwitnesses, hflag]
    exact hcover
  · unfold voteCount
    rw [hwitnesses]
    exact h.fits
  · unfold finishedPools
    rw [hcycle, hwitnesses, hreward]
    exact h.covered

/-! ## Claims -/

/-- A voter's marks are moved, and nothing else that matters for rewards. -/
structure Remarked (s s' : State) (a : Address) (votes : List Vote) : Prop where
  lookup : s.votesOf a = some votes
  votesOf : ∀ b, s'.votesOf b = s.votesOf b
  delegation : s'.delegation = s.marked a votes
  records : s'.votes = s.votes
  witnesses : s'.witnesses = s.witnesses
  currentCycleNumber : s'.currentCycleNumber = s.currentCycleNumber
  removeThePowerOfTheGr : s'.removeThePowerOfTheGr = s.removeThePowerOfTheGr

section Claims

variable {s s' : State} {a : Address} {votes : List Vote}

theorem Remarked.settledUp (h : Remarked s s' a votes) : s'.SettledUp a :=
  settledUp_marked h.currentCycleNumber h.delegation

theorem Remarked.countedOf (h : Remarked s s' a votes) (b : Address) (l : List Vote) :
    s'.countedOf b l = s.countedOf b l := by
  rw [State.countedOf, h.records, State.countedOf]

variable {b : Address}

section

variable (h : Remarked s s' a votes)
include h

theorem Remarked.marks_eq (hb : b ≠ a) :
    s'.delegation.getBeginCycle b = s.delegation.getBeginCycle b ∧
      s'.delegation.getEndCycle b = s.delegation.getEndCycle b ∧
        ∀ cycle, s'.delegation.getAccountVote b cycle = s.delegation.getAccountVote b cycle := by
  rw [h.delegation, marked_getBeginCycle, marked_getEndCycle, if_neg hb, if_neg fun hand => hb hand.1]
  refine ⟨rfl, rfl, fun cycle => ?_⟩
  rw [marked_getAccountVote, if_neg fun hand => hb hand.1]

theorem Remarked.marks_other (hb : b ≠ a) (hmarks : Marks s b) : Marks s' b :=
  hmarks.congr (h.marks_eq hb) (by rw [h.records]) (h.votesOf b) h.currentCycleNumber

theorem Remarked.marks_self (hcycle : 0 ≤ s.currentCycleNumber) (hsettled : ¬ s.SettledUp a) (hmarks : Marks s a)
    : Marks s' a := by
  have hvotes := hmarks.votes votes h.lookup
  -- whoever was not paid in the cycle has not changed its votes in it
  have hnone : s.votes.lookup a = none := by
    cases hrecord : s.votes.lookup a with
    | none => rfl
    | some record => exact absurd (hmarks.settled record hrecord) hsettled
  have hbegin : s'.delegation.getBeginCycle a =
      if votes.isEmpty then s.currentCycleNumber + 1 else s.currentCycleNumber := by
    rw [h.delegation, marked_getBeginCycle, if_pos rfl]
  have hvote : ∀ cycle, s'.delegation.getAccountVote a cycle =
      if cycle = s.currentCycleNumber ∧ ¬ votes.isEmpty then some votes else s.delegation.getAccountVote a cycle := by
    intro cycle
    rw [h.delegation, marked_getAccountVote]
    simp
  constructor
  · rw [hbegin]
    split <;> omega
  · rw [hbegin, h.currentCycleNumber]
    split <;> omega
  · intro cycle hlt
    rw [h.currentCycleNumber] at hlt
    rw [hvote, if_neg (by omega)]
    exact hmarks.later cycle hlt
  · exact fun _ _ => h.settledUp
  · intro recorded hnow hrecorded
    rw [hbegin, h.currentCycleNumber] at hnow
    have hsome : ¬ votes.isEmpty := by
      intro hempty
      rw [if_pos hempty] at hnow
      omega
    rw [hvote, h.currentCycleNumber, if_pos ⟨rfl, hsome⟩] at hrecorded
    refine ⟨?_, fun l hl => ?_⟩
    · rw [h.delegation, marked_getEndCycle, if_pos ⟨rfl, hsome⟩, h.currentCycleNumber]
    · rw [h.votesOf, h.lookup] at hl
      rw [h.countedOf, State.countedOf, hnone]
      exact (some.inj hl).symm.trans (some.inj hrecorded)
  · intro l hl
    rw [h.votesOf] at hl
    exact hmarks.votes l hl
  · intro cycle recorded hrecorded
    rw [hvote] at hrecorded
    split at hrecorded
    · cases hrecorded
      exact hvotes
    · exact hmarks.recorded cycle recorded hrecorded
  · intro record hrecord
    rw [h.records, hnone] at hrecord
    cases hrecord

theorem Remarked.growth (b e : Int) : s'.delegation.growth b e = s.delegation.growth b e := by
  funext w
  rw [Delegation.growth, Delegation.readVi, Delegation.readVi, h.delegation, (marked_frame s a votes).2]
  rfl

theorem Remarked.due_other (hb : b ≠ a) (l : List Vote) : s'.due b l = s.due b l := by
  obtain ⟨hbegin, hend, hvote⟩ := h.marks_eq hb
  unfold due
  simp [h.growth, hbegin, hend, hvote, h.currentCycleNumber]

/-- Once paid, a voter is due nothing; the others are due what they were. -/
theorem Remarked.dues : s'.dues = s.dues - s.due a votes := by
  rw [dues_update h.lookup ((h.votesOf a).trans h.lookup) fun b hb => ⟨h.votesOf b, h.due_other hb⟩,
    due_of_settledUp h.settledUp, Int.add_zero]

theorem Remarked.sameTally {surplus : Address → Int} (ht : Tallied surplus s) : Tallied surplus s' := by
  refine ⟨fun b record hrecord => ?_, fun w n hn => ?_⟩
  · rw [h.votesOf]
    exact ht.records b record (h.records ▸ hrecord)
  · rw [voteCount, h.witnesses] at hn
    rw [netVotes, h.records, liveVotes_congr h.votesOf]
    exact ht.counts w n hn

end

/-- A claim pays nothing and changes nothing, or pays what is owed. -/
theorem withdrawReward_remarked {chain : Chain} {account : Account} (hlook : s.accounts.lookup a = some account)
    (hsettled : ¬ s.SettledUp a) :
    Remarked s (withdrawReward chain s a).1 a account.votes ∧
      (withdrawReward chain s a).2 = s.owed a chain account.votes := by
  obtain ⟨⟨accounts, delegation, heq⟩, hvotes⟩ := sameTally_withdraw chain s a
  refine ⟨⟨votesOf_lookup hlook, hvotes, ?_, ?_, ?_, ?_, ?_⟩, ?_⟩
  · rw [withdrawReward_eq hlook, if_neg hsettled]
  · rw [heq]
  · rw [heq]
  · rw [heq]
  · rw [heq]
  · rw [withdrawReward_eq hlook, if_neg hsettled]

variable {seeds : List (Address × Int)} {paid : Int}

theorem Solvent.withdraw (h : Solvent seeds s paid) {chain : Chain} (hchain : Rewarding seeds chain) (a : Address) :
    Solvent seeds (withdrawReward chain s a).1 (paid + (withdrawReward chain s a).2) ∧
      ((s.accounts.lookup a).isSome → (withdrawReward chain s a).1.SettledUp a) := by
  cases hlook : s.accounts.lookup a with
  | none =>
    have heq : withdrawReward chain s a = (s, 0) := by
      unfold withdrawReward
      rw [hlook]
    rw [heq, Int.add_zero]
    exact ⟨h, fun hsome => by cases hsome⟩
  | some account =>
    by_cases hsettled : s.SettledUp a
    · rw [withdrawReward_eq hlook, if_pos hsettled, Int.add_zero]
      exact ⟨h, fun _ => hsettled⟩
    · obtain ⟨hmarked, hpaid⟩ : Remarked s (withdrawReward chain s a).1 a account.votes ∧ _ :=
        withdrawReward_remarked hlook hsettled
      have hmarks := h.marks a
      obtain ⟨-, howed⟩ := owed_le hchain h.index.rising hmarks.begin_nonneg hsettled hmarks.recorded
        (hmarks.votes _ hmarked.lookup)
      refine ⟨h.keep hmarked.currentCycleNumber hmarked.witnesses hmarked.removeThePowerOfTheGr
        (by rw [hmarked.delegation, (marked_frame ..).2]) (by rw [hmarked.delegation, (marked_frame ..).1])
        (fun b => ?_) (fun _ => hmarked.sameTally) ?_, fun _ => hmarked.settledUp⟩
      · by_cases hb : b = a
        · subst hb
          exact hmarked.marks_self h.cycle hsettled hmarks
        · exact hmarked.marks_other hb (h.marks b)
      · rw [hmarked.dues, hpaid, Int.mul_add]
        omega

end Claims

/-! ## Changes of votes -/

section Moves

variable {seeds : List (Address × Int)} {paid : Int} {s s' : State} {owner : Address} {old new : List Vote}

section

variable (h : VoteMove s s' owner old new)
include h

theorem VoteMove.countedOf : s'.countedOf owner new = s.countedOf owner old := by
  unfold State.countedOf
  rcases h.records with ⟨hsame, rfl⟩ | hinsert
  · rw [hsame]
  · rw [hinsert, lookup_insert_eq, if_pos rfl]
    rfl

theorem VoteMove.lookup_other {b : Address} (hb : b ≠ owner) : s'.votes.lookup b = s.votes.lookup b := by
  rcases h.records with ⟨hsame, -⟩ | hinsert
  · rw [hsame]
  · rw [hinsert, lookup_insert_eq, if_neg hb]

theorem VoteMove.settledUp_iff (b : Address) : s'.SettledUp b ↔ s.SettledUp b := by
  unfold SettledUp
  rw [h.delegation, h.currentCycleNumber]

theorem VoteMove.marks_other {b : Address} (hb : b ≠ owner) (hmarks : Marks s b) : Marks s' b :=
  hmarks.congr (by rw [h.delegation]; exact ⟨rfl, rfl, fun _ => rfl⟩) (h.lookup_other hb)
    (by rw [h.votesOf, if_neg hb]) h.currentCycleNumber

variable (hsettled : s.SettledUp owner)
include hsettled

theorem VoteMove.marks_self (hmarks : Marks s owner) (hnew : NonnegVotes new) : Marks s' owner := by
  have hvotes : s'.votesOf owner = some new := by rw [h.votesOf, if_pos rfl]
  constructor
  · rw [h.delegation]
    exact hmarks.begin_nonneg
  · rw [h.delegation, h.currentCycleNumber]
    exact hmarks.begin_le
  · rw [h.delegation, h.currentCycleNumber]
    exact hmarks.later
  · exact fun _ _ => (h.settledUp_iff owner).2 hsettled
  · rw [h.delegation, h.currentCycleNumber, hvotes]
    intro recorded hnow hrecorded
    obtain ⟨hmark, hcounted⟩ := hmarks.counted recorded hnow hrecorded
    refine ⟨hmark, fun l hl => ?_⟩
    cases hl
    rw [h.countedOf]
    exact hcounted old h.lookup
  · rw [hvotes]
    intro l hl
    cases hl
    exact hnew
  · rw [h.delegation]
    exact hmarks.recorded
  · intro record hrecord
    have hcounted := hmarks.nonneg_countedOf h.lookup
    rw [← h.countedOf, State.countedOf, hrecord] at hcounted
    exact hcounted

theorem VoteMove.dues : s'.dues = s.dues := by
  have hdue : ∀ b l, s'.due b l = s.due b l := by
    intro b l
    unfold due
    rw [h.delegation, h.currentCycleNumber]
  rw [dues_update h.lookup (by rw [h.votesOf, if_pos rfl]) fun b hb => ⟨by rw [h.votesOf, if_neg hb], hdue b⟩, hdue,
    due_of_settledUp hsettled, due_of_settledUp hsettled, Int.sub_zero, Int.add_zero]

end

theorem Solvent.of_move (h : Solvent seeds s paid) (hmove : VoteMove s s' owner old new) (hsettled : s.SettledUp owner)
    (hnew : new = old ∨ ∀ v ∈ new, 0 < v.voteCount) : Solvent seeds s' paid := by
  have hnonneg : NonnegVotes new := by
    rcases hnew with rfl | hpos
    · exact (h.marks owner).votes new hmove.lookup
    · exact fun v hv => le_of_lt (hpos v hv)
  refine h.keep hmove.currentCycleNumber hmove.witnesses hmove.removeThePowerOfTheGr (by rw [hmove.delegation])
    (by rw [hmove.delegation]) (fun b => ?_) (fun _ ht => ht.of_move hmove) (by rw [hmove.dues hsettled])
  by_cases hb : b = owner
  · subst hb
    exact hmove.marks_self hsettled (h.marks b) hnonneg
  · exact hmove.marks_other hb (h.marks b)

theorem Solvent.addReward (h : Solvent seeds s paid) {cycle value : Int} {w : Address} (hvalue : 0 ≤ value)
    (hfits : FitsI64 (s.delegation.getReward w cycle + value)) :
    Solvent seeds { s with delegation := s.delegation.addReward w cycle value } paid := by
  obtain ⟨surplus, htallied, hcover⟩ := h.tally
  have hpool : ∀ w' c, ((s.delegation.addReward w cycle value).getReward w' c) =
      s.delegation.getReward w' c + if (c, w') = (cycle, w) then value else 0 := by
    intro w' c
    unfold Delegation.addReward
    rw [Checked.wrapI64_of_fits hfits, getReward, lookup_insert_eq]
    split
    · next heq =>
      cases heq
      rfl
    · rw [Int.add_zero]
      rfl
  refine ⟨h.cycle, fun b => ?_, ?_, ⟨surplus, ?_, hcover⟩, h.fits, ?_⟩
  · exact (h.marks b).congr ⟨rfl, rfl, fun _ => rfl⟩ rfl rfl rfl
  · refine ⟨h.index.ahead, h.index.rising, h.index.range, h.index.witnessed, fun w' c => ?_⟩
    have := h.index.pools w' c
    rw [hpool]
    split <;> omega
  · exact htallied.of_sameTally ⟨⟨_, _, rfl⟩, fun _ => rfl⟩
  · -- the sum of the pools of the cycles that are over does not fall
    have hpools : s.finishedPools ≤
        { s with delegation := s.delegation.addReward w cycle value : State }.finishedPools := by
      unfold finishedPools Delegation.addReward
      rw [Checked.wrapI64_of_fits hfits, total_insert_eq]
      unfold getReward
      cases s.delegation.reward.lookup (cycle, w) with
      | none =>
        simp only [elim_none, getD_none]
        split <;> omega
      | some pool =>
        simp only [elim_some, getD_some]
        split <;> omega
    have hmul := Int.mul_le_mul_of_nonneg_left hpools (Int.le_of_lt decimal_pos)
    exact le_trans h.covered hmul

end Moves

/-! ## The pass -/

/-- All that the pass does to rewards.  The index of a witness grows; `counts` are the counts it is divided by. -/
structure Passed (s s' : State) (counts : Address → Option Int) : Prop where
  votesOf : ∀ a, s'.votesOf a = s.votesOf a
  records : s'.votes = ∅
  currentCycleNumber : s'.currentCycleNumber = s.currentCycleNumber + 1
  beginCycle : ∀ a, s'.delegation.getBeginCycle a = s.delegation.getBeginCycle a
  endCycle : ∀ a, s'.delegation.getEndCycle a = s.delegation.getEndCycle a
  accountVote : ∀ a cycle, s'.delegation.getAccountVote a cycle = s.delegation.getAccountVote a cycle
  reward : s'.delegation.reward = s.delegation.reward
  ahead : ∀ cycle w, cycle ≠ s.currentCycleNumber →
    s'.delegation.witnessVi.lookup (cycle, w) = s.delegation.witnessVi.lookup (cycle, w)
  grown : ∀ w, s'.delegation.readVi w s.currentCycleNumber =
    (counts w).elim 0 (s.delegation.grown s.currentCycleNumber w)
  witnessed : ∀ w, (s'.witnesses.lookup w).isSome = (counts w).isSome

section Pass

variable {seeds : List (Address × Int)} {chain : Chain} {s s' : State} {paid : Int}

theorem advanceCycle_frame (s : State) :
    ∃ brokerage witnessVote, advanceCycle s =
      { s with
        currentCycleNumber := s.currentCycleNumber + 1
        delegation := { s.delegation with brokerage := brokerage, witnessVote := witnessVote } } := by
  have hfold : ∀ (l : List (Address × Witness)) (next : Int) (d : Delegation), ∃ brokerage witnessVote,
      l.foldl
        (fun d e =>
          { d with
            brokerage := d.brokerage.insert (next, e.1) (d.getBrokerageGlobal e.1)
            witnessVote := d.witnessVote.insert (next, e.1) e.2.voteCount }) d =
        { d with brokerage := brokerage, witnessVote := witnessVote } := by
    intro l next
    induction l with
    | nil => exact fun d => ⟨d.brokerage, d.witnessVote, rfl⟩
    | cons e l ih =>
      intro d
      obtain ⟨brokerage, witnessVote, heq⟩ := ih _
      exact ⟨brokerage, witnessVote, heq⟩
  obtain ⟨brokerage, witnessVote, heq⟩ := hfold (scanned s.witnesses) (s.currentCycleNumber + 1) s.delegation
  refine ⟨brokerage, witnessVote, ?_⟩
  unfold advanceCycle
  dsimp only
  rw [heq]

theorem applyMaintenance_delegation (hchain : Rewarding seeds chain) (s : State) :
    (applyMaintenance chain s).1.currentCycleNumber = s.currentCycleNumber + 1 ∧
      ∃ brokerage witnessVote, (applyMaintenance chain s).1.delegation =
        { accumulated s.delegation s.currentCycleNumber (scanned (tryRemoveThePowerOfTheGr chain s).witnesses) with
          brokerage := brokerage, witnessVote := witnessVote } := by
  have hprepared : (accumulateVi chain (tryRemoveThePowerOfTheGr chain s)).delegation =
      accumulated s.delegation s.currentCycleNumber (scanned (tryRemoveThePowerOfTheGr chain s).witnesses) := by
    have hnew : useNewRewardAlgorithm chain := by
      unfold useNewRewardAlgorithm
      rw [hchain.newAlgorithm]
      decide
    unfold accumulateVi
    rw [if_pos hnew]
    unfold tryRemoveThePowerOfTheGr
    split <;> rfl
  obtain ⟨-, -, -, hcycle, -⟩ := prepared_frame chain s
  obtain ⟨-, -, hdelegation, hvoted, -⟩ := applyVotes_frame chain (accumulateVi chain (tryRemoveThePowerOfTheGr chain s))
  have hchange : chain.changeDelegation.getD 0 = 1 := by
    rw [hchain.changeDelegation]
    rfl
  unfold applyMaintenance
  dsimp only
  rw [if_pos hchange]
  obtain ⟨brokerage, witnessVote, heq⟩ := advanceCycle_frame
    { (applyVotes chain (accumulateVi chain (tryRemoveThePowerOfTheGr chain s))).1 with votes := ∅ }
  rw [heq]
  refine ⟨?_, brokerage, witnessVote, ?_⟩
  · rw [hvoted, hcycle]
  · rw [hdelegation, hprepared]

theorem applyMaintenance_passed (hchain : Rewarding seeds chain) (hindex : Indexed s)
    (hfits : CountsFit s (.maintenance chain)) :
    Passed s (applyMaintenance chain s).1 (tryRemoveThePowerOfTheGr chain s).voteCount := by
  obtain ⟨hcycle, brokerage, witnessVote, hdelegation⟩ := applyMaintenance_delegation hchain s
  obtain ⟨hvotes, hrecords⟩ := applyMaintenance_votes chain s
  obtain ⟨vi, heq, hsame⟩ :=
    accumulated_frame s.delegation s.currentCycleNumber (scanned (tryRemoveThePowerOfTheGr chain s).witnesses)
  have hread := accumulated_readVi (scanned_nodup (tryRemoveThePowerOfTheGr chain s).witnesses)
    (fun w => hindex.ahead s.currentCycleNumber w (le_refl _))
  refine ⟨hvotes, hrecords, hcycle, fun a => ?_, fun a => ?_, fun a cycle => ?_, ?_, fun cycle w hne => ?_, fun w => ?_,
    fun w => ?_⟩
  · rw [hdelegation, heq]
    rfl
  · rw [hdelegation, heq]
    rfl
  · rw [hdelegation, heq]
    rfl
  · rw [hdelegation, heq]
  · rw [hdelegation, heq]
    exact hsame cycle w hne
  · rw [hdelegation]
    refine (hread w s.currentCycleNumber).trans ?_
    rw [if_pos rfl, lookup_scanned, voteCount]
    cases (tryRemoveThePowerOfTheGr chain s).witnesses.lookup w <;> rfl
  · have hcount : (applyMaintenance chain s).1.voteCount w = _ := applyMaintenance_voteCount (hfits w).1 (hfits w).2
    have hsome : ((applyMaintenance chain s).1.voteCount w).isSome =
        ((tryRemoveThePowerOfTheGr chain s).voteCount w).isSome := by
      rw [hcount, isSome_map]
    rw [← hsome, voteCount, isSome_map]

variable {counts : Address → Option Int}

section

variable (h : Passed s s' counts)
include h

theorem Passed.readVi_other {cycle : Int} (hne : cycle ≠ s.currentCycleNumber) (w : Address) :
    s'.delegation.readVi w cycle = s.delegation.readVi w cycle := by
  rw [readVi, h.ahead cycle w hne, readVi]

theorem Passed.growth_old {b e : Int} (hb : b ≤ s.currentCycleNumber) (he : e ≤ s.currentCycleNumber)
    : s'.delegation.growth b e = s.delegation.growth b e := by
  funext w
  rw [growth, h.readVi_other (by omega), h.readVi_other (by omega), growth]

/-- Growth up to now is growth up to the cycle that ends, and the growth in it. -/
theorem Passed.growth_new {b : Int} (hb : b ≤ s.currentCycleNumber) :
    s'.delegation.growth b (s.currentCycleNumber + 1) = fun w => s.delegation.growth b s.currentCycleNumber w +
      s'.delegation.growth s.currentCycleNumber (s.currentCycleNumber + 1) w := by
  funext w
  rw [← h.growth_old hb (le_refl _)]
  unfold growth
  omega

end

/-- The counts do not fall below what the votes that are counted come to. -/
def Covers (s : State) (counts : Address → Option Int) : Prop := ∀ w n, counts w = some n → s.countedVotes w ≤ n

theorem countedVotes_nonneg (hmarks : ∀ a, Marks s a) (w : Address) : 0 ≤ s.countedVotes w :=
  total_nonneg fun a _ hlook => votesFor_nonneg ((hmarks a).nonneg_countedOf (votesOf_lookup hlook)) w

section

variable (h : Passed s s' counts)
include h

theorem Passed.growth_le (hindex : Indexed s) (hmarks : ∀ a, Marks s a) (hcovers : Covers s counts)
    (hsome : ∀ w, (s.witnesses.lookup w).isSome = (counts w).isSome) (w : Address) :
    let growth := s'.delegation.growth s.currentCycleNumber (s.currentCycleNumber + 1) w
    0 ≤ growth ∧ (s.witnesses.lookup w = none → growth = 0) ∧
      growth * s.countedVotes w ≤ REWARD_VI_DECIMAL * s.delegation.getReward w s.currentCycleNumber ∧
        0 ≤ s'.delegation.readVi w s.currentCycleNumber ∧
          s'.delegation.readVi w s.currentCycleNumber ≤ 0x7fffffffffffffffffffffffffffffff := by
  obtain ⟨hpre, hmax⟩ := hindex.range w (s.currentCycleNumber - 1)
  have hpool := hindex.pools w s.currentCycleNumber
  have hscaled := Int.mul_nonneg (Int.le_of_lt decimal_pos) hpool
  have hread := h.grown w
  have hbefore : s'.delegation.readVi w (s.currentCycleNumber - 1) = _ := h.readVi_other (by omega) w
  unfold growth
  rw [Int.add_sub_cancel, hread, hbefore]
  cases hcount : counts w with
  | none =>
    have hnone : s.witnesses.lookup w = none := by
      have := hsome w
      rw [hcount] at this
      exact not_isSome_iff_eq_none.1 (by rw [this]; simp)
    rw [hindex.witnessed w hnone]
    simp only [elim_none, Int.sub_self, Int.zero_mul]
    exact ⟨Int.le_refl 0, fun _ => trivial, hscaled, Int.le_refl 0, by decide⟩
  | some n =>
    have hcounted := countedVotes_nonneg hmarks w
    have hle := hcovers w n hcount
    obtain ⟨hrise, htop, hmul⟩ : s.delegation.readVi w (s.currentCycleNumber - 1) ≤
        s.delegation.grown s.currentCycleNumber w n ∧ _ := grown_le hpre hmax hpool (by omega)
    simp only [elim_some]
    refine ⟨by omega, fun hnone => ?_, ?_, by omega, htop⟩
    · have := hsome w
      rw [hcount, hnone] at this
      cases this
    · exact Int.le_trans (Int.mul_le_mul_of_nonneg_left hle (by omega)) hmul

/-- What an account is due grows at most by its counted votes, times the growth. -/
theorem Passed.due_le {a : Address} (hmarks : Marks s a) {votes : List Vote} (hvotes : s.votesOf a = some votes)
    (hgrowth : ∀ w, 0 ≤ s'.delegation.growth s.currentCycleNumber (s.currentCycleNumber + 1) w) :
    s'.due a votes ≤ s.due a votes +
      weighed (s.countedOf a votes) (s'.delegation.growth s.currentCycleNumber (s.currentCycleNumber + 1)) := by
  have hcounted := weighed_nonneg (hmarks.nonneg_countedOf hvotes) hgrowth
  have hle := hmarks.begin_le
  unfold due
  dsimp only
  rw [h.currentCycleNumber, h.beginCycle, h.endCycle, h.accountVote, if_neg (by omega)]
  by_cases hlater : s.currentCycleNumber < s.delegation.getBeginCycle a
  · -- paid ahead: nothing is due yet
    have hbegin : s.delegation.getBeginCycle a = s.currentCycleNumber + 1 := by omega
    rw [if_pos hlater, hbegin, if_neg (by omega), weighed_eq_zero (growth_self _ _)]
    omega
  · rw [if_neg hlater]
    by_cases hnow : s.delegation.getBeginCycle a = s.currentCycleNumber
    · -- paid in the cycle that ends: the recorded votes count for it
      rw [hnow]
      rw [if_neg (c := _ ∧ s.currentCycleNumber < s.currentCycleNumber) (by omega),
        weighed_eq_zero (growth_self _ s.currentCycleNumber) votes, Int.zero_add]
      split
      · next hmark =>
        rw [weighed_eq_zero (growth_self _ _) votes, Int.add_zero]
        cases hrecorded : s.delegation.getAccountVote a s.currentCycleNumber with
        | none => exact hcounted
        | some recorded =>
          rw [(hmarks.counted recorded hnow hrecorded).2 votes hvotes]
          exact le_refl _
      · next hmark =>
        have hnone : s.votes.lookup a = none := by
          cases hrecord : s.votes.lookup a with
          | none => rfl
          | some record =>
            rcases hmarks.settled record hrecord with hlt | ⟨-, hsnapshot⟩
            · exact absurd hlt hlater
            · obtain ⟨recorded, hrecorded⟩ := isSome_iff_exists.1 hsnapshot
              have hend := (hmarks.counted recorded hnow hrecorded).1
              exact absurd ⟨hend.symm, by omega⟩ hmark
        rw [countedOf, hnone]
        exact le_refl _
    · -- not paid in the cycle: the votes have not changed in it
      have hlt : s.delegation.getBeginCycle a < s.currentCycleNumber := by omega
      have hsame : s.countedOf a votes = votes := by
        unfold countedOf
        cases hrecord : s.votes.lookup a with
        | none => rfl
        | some record =>
          rcases hmarks.settled record hrecord with h' | ⟨h', -⟩
          · exact absurd h' hlater
          · exact absurd h' hnow
      rw [hsame]
      by_cases hmark : s.delegation.getBeginCycle a + 1 = s.delegation.getEndCycle a
      · rw [if_pos ⟨hmark, by omega⟩, if_pos ⟨hmark, hlt⟩, h.growth_old (by omega) (by omega), h.growth_new (by omega),
          weighed_add]
        omega
      · rw [if_neg fun hand => hmark hand.1, if_neg fun hand => hmark hand.1, h.growth_new (by omega), weighed_add]

theorem Passed.marks {a : Address} (hmarks : Marks s a) : Marks s' a := by
  have hcycle := h.currentCycleNumber
  constructor
  · rw [h.beginCycle]
    exact hmarks.begin_nonneg
  · have := hmarks.begin_le
    rw [h.beginCycle]
    omega
  · intro cycle hlt
    rw [h.accountVote]
    exact hmarks.later cycle (by omega)
  · intro record hrecord
    rw [h.records] at hrecord
    cases hrecord
  · intro recorded _ hrecorded
    rw [h.accountVote, hmarks.later _ (by omega)] at hrecorded
    cases hrecorded
  · intro votes hvotes
    exact hmarks.votes votes (h.votesOf a ▸ hvotes)
  · intro cycle recorded hrecorded
    exact hmarks.recorded cycle recorded (h.accountVote a cycle ▸ hrecorded)
  · intro record hrecord
    rw [h.records] at hrecord
    cases hrecord

theorem Passed.indexed (hindex : Indexed s) (hmarks : ∀ a, Marks s a) (hcovers : Covers s counts)
    (hsome : ∀ w, (s.witnesses.lookup w).isSome = (counts w).isSome) : Indexed s' := by
  have hgrowth := h.growth_le hindex hmarks hcovers hsome
  have hcycle := h.currentCycleNumber
  constructor
  · intro cycle w hle
    rw [h.ahead cycle w (by omega)]
    exact hindex.ahead cycle w (by omega)
  · intro w b e hbe he
    by_cases hold : e ≤ s.currentCycleNumber
    · rw [h.growth_old (by omega) hold]
      exact hindex.rising w b e hbe hold
    · have hnew : e = s.currentCycleNumber + 1 := by omega
      subst hnew
      by_cases hb : b ≤ s.currentCycleNumber
      · have hbefore := hindex.rising w b s.currentCycleNumber hb (le_refl _)
        have hthis := (hgrowth w).1
        rw [h.growth_new hb]
        dsimp only at hthis ⊢
        omega
      · have hsame : b = s.currentCycleNumber + 1 := by omega
        rw [hsame, growth_self]
  · intro w cycle
    by_cases hnow : cycle = s.currentCycleNumber
    · rw [hnow]
      obtain ⟨-, -, -, hrange⟩ := hgrowth w
      exact hrange
    · rw [h.readVi_other hnow]
      exact hindex.range w cycle
  · intro w hw cycle
    have hnone : counts w = none := by
      have := h.witnessed w
      rw [hw] at this
      exact not_isSome_iff_eq_none.1 (by rw [← this]; simp)
    by_cases hnow : cycle = s.currentCycleNumber
    · rw [hnow, h.grown, hnone]
      rfl
    · have hbefore : s.witnesses.lookup w = none := by
        have := hsome w
        rw [hnone] at this
        exact not_isSome_iff_eq_none.1 (by rw [this]; simp)
      rw [h.readVi_other hnow]
      exact hindex.witnessed w hbefore cycle
  · intro w cycle
    rw [getReward, h.reward]
    exact hindex.pools w cycle

end

theorem pools_of_cycle (d : Delegation) (witnesses : Table Address Witness) (cycle : Int) :
    total (fun key pool => if key.1 = cycle ∧ (witnesses.lookup key.2).isSome then pool else 0) d.reward =
      total (fun w _ => d.getReward w cycle) witnesses := by
  have hpool : ∀ w, d.getReward w cycle = total (fun key pool => if key = (cycle, w) then pool else 0) d.reward := by
    intro w
    rw [total_single (fun _ pool => pool), getReward]
    cases d.reward.lookup (cycle, w) <;> rfl
  have hkey : ∀ (key : Int × Address) (pool : Int),
      (if key.1 = cycle ∧ (witnesses.lookup key.2).isSome then pool else 0) =
        total (fun w _ => if key = (cycle, w) then pool else 0) witnesses := by
    rintro ⟨c, x⟩ pool
    by_cases hc : c = cycle
    · have hterm : ∀ w, (if (c, x) = (cycle, w) then pool else 0) = if w = x then pool else 0 := by
        intro w
        by_cases hw : w = x
        · simp [hc, hw]
        · simp [hc, hw, Ne.symm hw]
      simp only [hterm, total_single (fun _ _ => pool)]
      cases witnesses.lookup x <;> simp [hc]
    · simp [hc, total_zero]
  simp only [hkey, hpool]
  exact total_comm _ _ _

theorem Passed.finishedPools (h : Passed s s' counts) (hsome : ∀ w, (s.witnesses.lookup w).isSome = (counts w).isSome) :
    s'.finishedPools = s.finishedPools +
      total (fun w _ => s.delegation.getReward w s.currentCycleNumber) s.witnesses := by
  rw [← pools_of_cycle, State.finishedPools, State.finishedPools, ← total_add, h.reward, h.currentCycleNumber]
  congr 1
  funext key pool
  rw [h.witnessed, ← hsome]
  by_cases hwitness : (s.witnesses.lookup key.2).isSome
  · simp only [hwitness, and_true]
    split_ifs <;> omega
  · simp [hwitness]

theorem Passed.dues_le (h : Passed s s' counts) (hindex : Indexed s) (hmarks : ∀ a, Marks s a)
    (hcovers : Covers s counts) (hsome : ∀ w, (s.witnesses.lookup w).isSome = (counts w).isSome) :
    s'.dues ≤ s.dues +
      REWARD_VI_DECIMAL * total (fun w _ => s.delegation.getReward w s.currentCycleNumber) s.witnesses := by
  have hgrowth := h.growth_le hindex hmarks hcovers hsome
  let growth := s'.delegation.growth s.currentCycleNumber (s.currentCycleNumber + 1)
  have hsame : s'.dues = total (fun a account => s'.due a account.votes) s.accounts := by
    refine total_ext fun a => ?_
    rw [elim_votesOf s' a (s'.due a), elim_votesOf s a (s'.due a), h.votesOf]
  calc s'.dues
      ≤ total (fun a account => s.due a account.votes + weighed (s.countedOf a account.votes) growth) s.accounts := by
        rw [hsame]
        refine total_le fun a account hlook => ?_
        exact h.due_le (hmarks a) (votesOf_lookup hlook) fun w => (hgrowth w).1
    _ = s.dues + total (fun a account => weighed (s.countedOf a account.votes) growth) s.accounts :=
        total_add _ _ _
    _ = s.dues + total (fun w _ => growth w * s.countedVotes w) s.witnesses := by
        -- witness by witness instead of account by account
        have hweighed : ∀ votes, weighed votes growth = total (fun w _ => growth w * votesFor votes w) s.witnesses :=
          fun votes => weighed_eq_total votes fun w hw => (hgrowth w).2.1 hw
        simp only [hweighed]
        rw [total_comm]
        simp only [total_mul_left]
        rfl
    _ ≤ s.dues + total (fun w _ => REWARD_VI_DECIMAL * s.delegation.getReward w s.currentCycleNumber) s.witnesses :=
        Int.add_le_add_left (total_le fun w _ _ => (hgrowth w).2.2.1) _
    _ = _ := by rw [total_mul_left]

theorem Solvent.maintenance (h : Solvent seeds s paid) (hseeds : ∀ seed ∈ seeds, 0 ≤ seed.2)
    (hchain : Rewarding seeds chain) (hfits : CountsFit s (.maintenance chain)) :
    Solvent seeds (applyMaintenance chain s).1 paid := by
  obtain ⟨surplus, htallied, hcover⟩ := h.tally
  -- a count is what is counted, and the surplus
  have hcount : ∀ w n, s.voteCount w = some n → n = s.countedVotes w + surplus w := by
    intro w n hn
    have := htallied.counts w n hn
    have := htallied.countedVotes w
    omega
  have hcounted := countedVotes_nonneg h.marks
  have hremoved : ∀ w, (tryRemoveThePowerOfTheGr chain s).voteCount w = (s.voteCount w).map (· - s.pending seeds w) := by
    intro w
    refine tryRemove_voteCount hchain hseeds fun n hn => ?_
    have := hcount w n hn
    have := hcounted w
    have := hcover w n hn
    exact ⟨by omega, h.fits w n hn⟩
  have hcovers : Covers s (tryRemoveThePowerOfTheGr chain s).voteCount := by
    intro w n hn
    rw [hremoved] at hn
    obtain ⟨before, hbefore, rfl⟩ := map_eq_some_iff.1 hn
    have := hcount w before hbefore
    have := hcover w before hbefore
    omega
  have hsome : ∀ w, (s.witnesses.lookup w).isSome = ((tryRemoveThePowerOfTheGr chain s).voteCount w).isSome := by
    intro w
    rw [hremoved, isSome_map, voteCount, isSome_map]
  have hpassed := applyMaintenance_passed hchain h.index hfits
  have hcounts : ∀ w n, (applyMaintenance chain s).1.voteCount w = some n →
      n = (applyMaintenance chain s).1.liveVotes w + (surplus w - s.pending seeds w) ∧ n ≤ 0x7fffffffffffffff ∧
        ∃ before, s.voteCount w = some before := by
    intro w n hn
    rw [applyMaintenance_voteCount (hfits w).1 (hfits w).2, hremoved] at hn
    obtain ⟨removed, hremoved', rfl⟩ := map_eq_some_iff.1 hn
    obtain ⟨before, hbefore, rfl⟩ := map_eq_some_iff.1 hremoved'
    have hrange := (hfits w).2 _ (by rw [hremoved, hbefore]; rfl)
    have hequation := htallied.counts w before hbefore
    unfold FitsI64 at hrange
    dsimp only at hrange ⊢
    rw [liveVotes_congr hpassed.votesOf]
    exact ⟨by omega, by omega, before, hbefore⟩
  refine ⟨?_, fun a => hpassed.marks (h.marks a), hpassed.indexed h.index h.marks hcovers hsome,
    ⟨fun w => surplus w - s.pending seeds w, ?_, ?_⟩, fun w n hn => (hcounts w n hn).2.1, ?_⟩
  · have := h.cycle
    rw [hpassed.currentCycleNumber]
    omega
  · exact tallied_of_counted hpassed.records fun w n hn => (hcounts w n hn).1
  · intro w n hn
    obtain ⟨-, -, before, hbefore⟩ := hcounts w n hn
    have hzero : (applyMaintenance chain s).1.pending seeds w = 0 := by
      rw [← tryRemove_pending chain s w, pending, applyMaintenance_flag, pending]
    rw [hzero]
    exact Int.sub_nonneg_of_le (hcover w before hbefore)
  · have hdues := hpassed.dues_le h.index h.marks hcovers hsome
    have hcovered := h.covered
    rw [hpassed.finishedPools hsome, Int.mul_add]
    omega

end Pass

/-! ## Runs -/

/-- What a voter is paid by an action: by a claim, or by the settlement of a transaction that is executed. -/
def paidBy (s : State) : CycleAct → Int
  | .tx chain tx =>
    match apply chain s tx with
    | .ok _ => tx.voter.elim 0 fun voter => (withdrawRewardActuator chain s voter).2
    | .error _ => 0
  | .withdraw chain voter => (withdrawReward chain s voter).2
  | .maintenance _ | .addReward _ _ _ => 0

/-- The rewards are on, and nothing overflows. -/
def RewardAct (seeds : List (Address × Int)) (s : State) : CycleAct → Prop
  | .tx chain tx => Rewarding seeds chain ∧ tx.isVoting
  | .maintenance chain => Rewarding seeds chain ∧ CountsFit s (.maintenance chain)
  | .withdraw chain _ => Rewarding seeds chain
  | .addReward cycle w value => 0 ≤ value ∧ FitsI64 (s.delegation.getReward w cycle + value)

/-- A state without votes and rewards.  Only the votes that the first witnesses were given may be counted. -/
structure NoVotesYet (seeds : List (Address × Int)) (s : State) : Prop where
  cycle : 0 ≤ s.currentCycleNumber
  votes : ∀ a votes, s.votesOf a = some votes → votes = []
  records : s.votes = ∅
  beginCycle : s.delegation.beginCycle = ∅
  accountVote : s.delegation.accountVote = ∅
  reward : s.delegation.reward = ∅
  witnessVi : s.delegation.witnessVi = ∅
  counts : ∀ w n, s.voteCount w = some n → s.pending seeds w ≤ n ∧ n ≤ 0x7fffffffffffffff
  seeds : ∀ seed ∈ seeds, 0 ≤ seed.2

section Runs

variable {seeds : List (Address × Int)} {s : State}

theorem NoVotesYet.solvent (h : NoVotesYet seeds s) : Solvent seeds s 0 := by
  have hread : ∀ w cycle, s.delegation.readVi w cycle = 0 := by
    intro w cycle
    rw [readVi, h.witnessVi]
    rfl
  have hgrowth : ∀ b e w, s.delegation.growth b e w = 0 := by
    intro b e w
    rw [growth, hread, hread, Int.sub_self]
  have hbegin : ∀ a, s.delegation.getBeginCycle a = 0 := by
    intro a
    rw [getBeginCycle, h.beginCycle]
    rfl
  have hvote : ∀ a cycle, s.delegation.getAccountVote a cycle = none := by
    intro a cycle
    rw [getAccountVote, h.accountVote]
    rfl
  have hrecord : ∀ a, s.votes.lookup a = none := by
    intro a
    rw [h.records]
    rfl
  have hlive : ∀ w, s.liveVotes w = 0 := by
    intro w
    refine (total_ext fun a => ?_).trans (total_zero s.accounts)
    rw [elim_votes]
    cases hvotes : s.votesOf a with
    | none => cases s.accounts.lookup a <;> rfl
    | some votes =>
      rw [h.votes a votes hvotes]
      cases s.accounts.lookup a <;> rfl
  refine ⟨h.cycle, fun a => ?_, ?_, ⟨fun w => (s.voteCount w).getD 0, ?_, ?_⟩, fun w n hn => (h.counts w n hn).2, ?_⟩
  · constructor
    · rw [hbegin]
    · have := h.cycle
      rw [hbegin]
      omega
    · exact fun cycle _ => hvote a cycle
    · intro record hsome
      rw [hrecord] at hsome
      cases hsome
    · intro recorded _ hsome
      rw [hvote] at hsome
      cases hsome
    · intro votes hvotes
      rw [h.votes a votes hvotes]
      exact fun v hv => by cases hv
    · intro cycle recorded hsome
      rw [hvote] at hsome
      cases hsome
    · intro record hsome
      rw [hrecord] at hsome
      cases hsome
  · constructor
    · intro cycle w _
      rw [h.witnessVi]
      rfl
    · intro w b e _ _
      rw [hgrowth]
    · intro w cycle
      rw [hread]
      decide
    · exact fun w _ cycle => hread w cycle
    · intro w cycle
      rw [getReward, h.reward]
      exact le_refl 0
  · refine tallied_of_counted h.records fun w n hn => ?_
    rw [hlive, hn, Int.zero_add]
    rfl
  · intro w n hn
    dsimp only
    rw [hn]
    exact (h.counts w n hn).1
  · have hdues : s.dues = 0 := by
      have hweighed : ∀ b e votes, weighed votes (s.delegation.growth b e) = 0 :=
        fun b e votes => weighed_eq_zero (hgrowth b e) votes
      have hdue : ∀ a votes, s.due a votes = 0 := by
        intro a votes
        unfold due
        simp [hweighed, hvote, elim_none, ite_self]
      rw [dues]
      simp [hdue, total_zero]
    have hpools : s.finishedPools = 0 := by
      rw [finishedPools, h.reward]
      rfl
    rw [hdues, hpools, Int.mul_zero]
    exact le_refl 0

theorem solvent_step (hseeds : ∀ seed ∈ seeds, 0 ≤ seed.2) {paid : Int} (h : Solvent seeds s paid) {act : CycleAct}
    (hact : RewardAct seeds s act) : Solvent seeds (cycleStep s act) (paid + paidBy s act) := by
  cases act with
  | tx chain tx =>
    obtain ⟨hchain, hvoting⟩ := hact
    rw [cycleStep, step, paidBy]
    cases happly : apply chain s tx with
    | error e =>
      rw [Int.add_zero]
      exact h
    | ok applied =>
      obtain ⟨owner, old, new, hvoter, hmove, hnew⟩ := voting_of_apply hvoting happly
      have hon : withdrawRewardActuator chain s owner = withdrawReward chain s owner := by
        rw [withdrawRewardActuator, hchain.changeDelegation]
        exact if_neg (by decide)
      rw [settled, hon] at hmove
      -- the owner has an account, so it is settled
      have hsome : (s.accounts.lookup owner).isSome := by
        have hlookup := hmove.lookup
        rw [(sameTally_withdraw chain s owner).2, votesOf] at hlookup
        obtain ⟨account, haccount, -⟩ := map_eq_some_iff.1 hlookup
        rw [haccount]
        rfl
      obtain ⟨hpaid, hsettled⟩ := h.withdraw hchain owner
      rw [hvoter, elim_some, hon]
      exact hpaid.of_move hmove (hsettled hsome) hnew
  | maintenance chain =>
    obtain ⟨hchain, hfits⟩ := hact
    rw [cycleStep, paidBy, Int.add_zero]
    exact h.maintenance hseeds hchain hfits
  | withdraw chain voter => exact (h.withdraw hact voter).1
  | addReward cycle w value =>
    rw [paidBy, Int.add_zero]
    exact h.addReward hact.1 hact.2

/-- **What the voters were paid, all together, is at most the pools of the cycles that are over.** -/
theorem payouts_solvent {s₀ : State} (hstart : NoVotesYet seeds s₀) {acts : List CycleAct}
    (hacts : Each cycleStep s₀ (RewardAct seeds) acts) :
    tally cycleStep paidBy s₀ acts ≤ (after cycleStep s₀ acts).finishedPools := by
  have hsolvent : Solvent seeds (after cycleStep s₀ acts) (tally cycleStep paidBy s₀ acts) :=
    tally_invariant hstart.solvent (fun _ _ _ h hact => solvent_step hstart.seeds h hact) hacts
  have hdues := hsolvent.dues_nonneg
  have hcovered := hsolvent.covered
  exact Int.le_of_mul_le_mul_left (by omega) decimal_pos

end Runs

namespace Sample

/-- Three votes are cast and counted; the witness then earns a reward, and the voter claims it. -/
def rewarded : List CycleAct :=
  voted ++ [.maintenance (chainAt 0), .addReward 1 receiver 9, .maintenance (chainAt 0), .withdraw (chainAt 0) owner]

theorem rewarding_chainAt : Rewarding [] (chainAt 0) := ⟨rfl, rfl, rfl⟩

theorem noVotesYet_beforeVotes : NoVotesYet [] beforeVotes where
  cycle := by decide
  votes a votes h := by
    rw [votesOf, map_eq_some_iff] at h
    obtain ⟨account, hlook, rfl⟩ := h
    have hall : ∀ account ∈ values beforeVotes.accounts, account.votes = [] := by decide +kernel
    exact hall account (mem_map.2 ⟨⟨a, account⟩, AList.mem_lookup_iff.1 hlook, rfl⟩)
  records := rfl
  beginCycle := rfl
  accountVote := rfl
  reward := rfl
  witnessVi := rfl
  counts w n hn := by
    rw [voteCount_single rfl hn]
    exact ⟨le_refl 0, by decide⟩
  seeds := by simp

/-- The voter is paid the whole reward of the cycle. -/
theorem payouts_solvent_rewarded :
    tally cycleStep paidBy beforeVotes rewarded = 9 ∧ 9 ≤ (after cycleStep beforeVotes rewarded).finishedPools := by
  have hpaid : tally cycleStep paidBy beforeVotes rewarded = 9 := by decide +kernel
  let s := after cycleStep beforeVotes (voted ++ [.maintenance (chainAt 0), .addReward 1 receiver 9])
  have hcounted : CountsFit s (.maintenance (chainAt 0)) := by
    intro w
    have hunarmed : tryRemoveThePowerOfTheGr (chainAt 0) s = s := if_neg (by decide +kernel)
    have hwitnesses : s.witnesses = (∅ : Table Address Witness).insert receiver ⟨3, true⟩ := AList.ext (by decide +kernel)
    have hnet : s.netVotes w = 0 := by
      rfl
    rw [hunarmed, hnet]
    refine ⟨by decide, fun n hn => ?_⟩
    rw [voteCount_single hwitnesses hn]
    decide
  have hacts : Each cycleStep beforeVotes (RewardAct []) rewarded :=
    .cons ⟨rewarding_chainAt, rfl⟩ (.cons ⟨rewarding_chainAt, countsFit_voted⟩ (.cons ⟨by decide, by decide +kernel⟩
      (.cons ⟨rewarding_chainAt, hcounted⟩ (.cons rewarding_chainAt (each_nil _)))))
  have hle := payouts_solvent noVotesYet_beforeVotes hacts
  rw [hpaid] at hle
  exact ⟨hpaid, hle⟩

end Sample

end TronGoblin.Stake
