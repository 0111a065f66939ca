import TronGoblin.Consensus.VoteIndex

/-!
# What a reward query predicts

Model of `query_reward` (`tron-tvm/src/reward.rs`), which walks the cycles of a voter as `withdraw_reward` does but
writes nothing.  A claim leaves out a negative reward and a query does not, so the two agree where no vote has a
negative count.

* `queryReward`: the allowance that a voter is told.
* `query_predicts_claim`: it is the allowance after a claim, and stays so whatever the voter does in the cycle.
* `Sample.negative_vote`: a query with a negative count.
-/

namespace TronGoblin.Stake

open Assoc Checked List State
open History (after)

/-- The catch-up of the latest cycle in `query_reward`: its reward, and the cycle to go on from. -/
def latestCycle (chain : Chain) (s : State) (voter : Address) : Int × Int :=
  let d := s.delegation
  let beginCycle := d.getBeginCycle voter
  if beginCycle + 1 = d.getEndCycle voter ∧ beginCycle < s.currentCycleNumber then
    match d.getAccountVote voter beginCycle with
    | some votes => (computeRewardWindow chain d beginCycle (d.getEndCycle voter) votes, beginCycle + 1)
    | none => (0, beginCycle + 1)
  else (0, beginCycle)

def queryReward (chain : Chain) (s : State) (voter : Address) : Int :=
  match s.accounts.lookup voter with
  | none => 0
  | some account =>
    if s.currentCycleNumber < s.delegation.getBeginCycle voter then account.allowance
    else
      let (reward, beginCycle) := latestCycle chain s voter
      if account.votes.isEmpty then satI64 (reward + account.allowance)
      else if beginCycle < s.currentCycleNumber then
        let window := computeRewardWindow chain s.delegation beginCycle s.currentCycleNumber account.votes
        satI64 (satI64 (reward + window) + account.allowance)
      else satI64 (reward + account.allowance)

def State.allowance (s : State) (a : Address) : Int := (s.accounts.lookup a).elim 0 (·.allowance)

/-- A reward that is not negative. -/
def IsReward (n : Int) : Prop := 0 ≤ n ∧ n ≤ 0x7fffffffffffffff

/-- Neither the live votes nor the recorded ones have a negative count, and the rewards of the cycles before the vote
index are not negative for such votes. -/
structure Countable (chain : Chain) (s : State) (a : Address) : Prop where
  live : ∀ account, s.accounts.lookup a = some account → NonnegVotes account.votes
  recorded : ∀ cycle votes, s.delegation.getAccountVote a cycle = some votes → NonnegVotes votes
  legacy : ∀ b e votes, NonnegVotes votes → IsReward (chain.outside.oldReward b e votes)

/-! ## Rewards that are not negative -/

section

variable {chain : Chain} {s : State} {a : Address} {d : Delegation} {b e m n : Int} {votes : List Vote}

theorem IsReward.add (hm : IsReward m) (hn : IsReward n) : IsReward (satI64 (m + n)) := by
  unfold IsReward satI64 at *
  omega

theorem isReward_zero : IsReward 0 := ⟨le_rfl, by decide⟩

theorem voteReward_isReward {v : Vote} (hv : 0 ≤ v.voteCount) : IsReward (voteReward d b e v) := by
  unfold voteReward
  cases v.witness with
  | none => exact isReward_zero
  | some w =>
    dsimp only
    split
    · exact isReward_zero
    · next hdelta =>
      have hprod := (satI128_le (Int.mul_nonneg (Int.not_le.1 hdelta).le hv)).1
      have hdiv := Int.tdiv_nonneg hprod decimal_pos.le
      unfold IsReward satI64
      omega

theorem viWindowReward_isReward (hvotes : NonnegVotes votes) : IsReward (viWindowReward d b e votes) := by
  suffices hfold : ∀ acc : Int, IsReward acc →
      IsReward (votes.foldl (fun reward vote => satI64 (reward + voteReward d b e vote)) acc) from hfold 0 isReward_zero
  induction votes with
  | nil => exact fun _ h => h
  | cons v votes ih =>
    intro acc hacc
    exact ih (fun u hu => hvotes u (mem_cons_of_mem v hu)) _ (hacc.add (voteReward_isReward (hvotes v mem_cons_self)))

theorem Countable.window (h : Countable chain s a) (hvotes : NonnegVotes votes) :
    IsReward (computeRewardWindow chain d b e votes) := by
  unfold computeRewardWindow
  dsimp only
  split_ifs
  · exact isReward_zero
  · exact (h.legacy _ _ _ hvotes).add (viWindowReward_isReward hvotes)
  · exact h.legacy _ _ _ hvotes
  · exact isReward_zero.add (viWindowReward_isReward hvotes)
  · exact isReward_zero

variable {account : Account}

theorem allowance_of_lookup (hlook : s.accounts.lookup a = some account) : s.allowance a = account.allowance := by
  rw [allowance, hlook, Option.elim_some]

theorem IsReward.sat (h : IsReward n) : satI64 (0 + n) = n := by
  unfold IsReward at h
  unfold satI64
  omega

theorem latestCycle_eq (h : Countable chain s a) :
    latestCycle chain s a = catchUp chain s a ∧ IsReward (catchUp chain s a).1 := by
  unfold latestCycle catchUp
  dsimp only
  split
  · cases hvotes : s.delegation.getAccountVote a (s.delegation.getBeginCycle a) with
    | none => exact ⟨rfl, isReward_zero⟩
    | some votes =>
      have hreward := h.window (d := s.delegation) (b := s.delegation.getBeginCycle a)
        (e := s.delegation.getEndCycle a) (h.recorded _ votes hvotes)
      dsimp only
      rw [hreward.sat]
      exact ⟨rfl, hreward⟩
  · exact ⟨rfl, isReward_zero⟩

/-- What is owed is a reward, and a query adds it to the allowance. -/
theorem queryReward_eq (h : Countable chain s a) (hlook : s.accounts.lookup a = some account)
    (hbegin : s.delegation.getBeginCycle a ≤ s.currentCycleNumber) :
    IsReward (s.owed a chain account.votes) ∧
      queryReward chain s a = satI64 (s.owed a chain account.votes + account.allowance) := by
  obtain ⟨hlatest, hfirst⟩ := latestCycle_eq h
  unfold queryReward owed
  rw [hlook]
  dsimp only
  rw [if_neg (Int.not_lt.2 hbegin), hlatest]
  split_ifs
  · exact ⟨hfirst, rfl⟩
  · exact ⟨hfirst.add (h.window (h.live account hlook)), rfl⟩
  · exact ⟨hfirst, rfl⟩

/-! ## Claims -/

theorem allowance_payAllowance (hlook : s.accounts.lookup a = some account) (hn : IsReward n)
    (hfits : FitsI64 account.allowance) : (s.payAllowance a account n).allowance a = satI64 (n + account.allowance) := by
  unfold payAllowance
  split
  · simp [allowance, State.putAccount, Int.add_comm]
  · next hzero =>
    have : n = 0 := by unfold IsReward at hn; omega
    rw [this, Int.zero_add, satI64_of_fits hfits, allowance_of_lookup hlook]

/-- The voter has been paid in the cycle, or has no account. -/
def State.Done (s : State) (a : Address) : Prop := FitsI64 (s.allowance a) ∧ (s.accounts.lookup a = none ∨ s.SettledUp a)

/-- What the voter does in a cycle. -/
inductive VoterOp
  | withdraw (chain : Chain)
  | setVotes (votes : List Vote)

def voterStep (a : Address) (s : State) : VoterOp → State
  | .withdraw chain => (withdrawReward chain s a).1
  | .setVotes votes =>
    match s.accounts.lookup a with
    | some account => s.putAccount a { account with votes := votes }
    | none => s

theorem State.Done.quiet (h : s.Done a) (chain : Chain) :
    withdrawReward chain s a = (s, 0) ∧ queryReward chain s a = s.allowance a := by
  obtain ⟨hfits, hdone⟩ := h
  cases hlook : s.accounts.lookup a with
  | none => simp [withdrawReward, queryReward, allowance, hlook]
  | some account =>
    have hsettled := hdone.resolve_left (by simp [hlook])
    rw [allowance_of_lookup hlook] at hfits ⊢
    rw [withdrawReward_eq hlook, if_pos hsettled]
    refine ⟨rfl, ?_⟩
    unfold queryReward latestCycle
    rw [hlook]
    rcases hsettled with hlater | ⟨hnow, -⟩
    · exact if_pos hlater
    · simp [hnow, satI64_of_fits hfits]

theorem State.Done.step (h : s.Done a) (op : VoterOp) : (voterStep a s op).Done a := by
  cases op with
  | withdraw chain => rwa [voterStep, (h.quiet chain).1]
  | setVotes votes =>
    unfold voterStep
    cases hlook : s.accounts.lookup a with
    | none => exact h
    | some account =>
      obtain ⟨hfits, hdone⟩ := h
      refine ⟨?_, .inr (hdone.resolve_left (by simp [hlook]))⟩
      simpa [allowance, State.putAccount, hlook] using hfits

end

/-- **A query predicts the claim**, and after the claim nothing is paid in the cycle whatever the voter does. -/
theorem query_predicts_claim {chain : Chain} {s : State} {a : Address} (h : Countable chain s a)
    (hfits : FitsI64 (s.allowance a)) :
    queryReward chain s a = (withdrawReward chain s a).1.allowance a ∧ ∀ (ops : List VoterOp) (chain' : Chain),
        let s' := after (voterStep a) (withdrawReward chain s a).1 ops
        (withdrawReward chain' s' a).2 = 0 ∧ queryReward chain' s' a = s'.allowance a := by
  suffices hclaim : queryReward chain s a = (withdrawReward chain s a).1.allowance a ∧ (withdrawReward chain s a).1.Done a by
    refine ⟨hclaim.1, fun ops chain' => ?_⟩
    have hdone : (after (voterStep a) (withdrawReward chain s a).1 ops).Done a :=
      History.invariant (I := (Done · a)) hclaim.2 (fun _ op hs => hs.step op) ops
    obtain ⟨hpaid, hquery⟩ := hdone.quiet chain'
    exact ⟨by rw [hpaid], hquery⟩
  by_cases hdone : s.accounts.lookup a = none ∨ s.SettledUp a
  · obtain ⟨hpaid, hquery⟩ := Done.quiet ⟨hfits, hdone⟩ chain
    rw [hpaid]
    exact ⟨hquery, hfits, hdone⟩
  · obtain ⟨hsome, hunsettled⟩ := not_or.1 hdone
    obtain ⟨account, hlook⟩ := Option.ne_none_iff_exists'.1 hsome
    obtain ⟨howed, hquery⟩ := queryReward_eq h hlook (Int.not_lt.1 fun hlt => hunsettled (.inl hlt))
    have hpaid := allowance_payAllowance hlook howed (allowance_of_lookup hlook ▸ hfits)
    have hcycle : (s.payAllowance a account (s.owed a chain account.votes)).currentCycleNumber = s.currentCycleNumber := by
      unfold payAllowance
      split <;> rfl
    rw [withdrawReward_eq hlook, if_neg hunsettled]
    refine ⟨hquery.trans hpaid.symm, ?_, .inr (settledUp_marked hcycle rfl)⟩
    refine (congrArg FitsI64 hpaid).mpr ?_
    unfold FitsI64 satI64
    omega

namespace Sample

/-- The owner has voted for a witness that has earned one unit for each vote. -/
def withVotes (count : Int) : State :=
  { unstaked 0 with
    accounts := (∅ : Table Address Account).insert owner { Account.default with votes := [⟨receiver.val, count⟩] }
    delegation := { (unstaked 0).delegation with
      witnessVi := (∅ : Table (Int × Address) Int).insert (1, receiver) REWARD_VI_DECIMAL }
    currentCycleNumber := 2 }

theorem query_predicts_claim_sample :
    queryReward (chainAt 0) (withVotes 3) owner = 3 ∧
      (withdrawReward (chainAt 0) (withVotes 3) owner).1.allowance owner = 3 := by
  have hquery : queryReward (chainAt 0) (withVotes 3) owner = 3 := by decide +kernel
  have hcount : Countable (chainAt 0) (withVotes 3) owner := by
    refine ⟨fun account hlook => ?_, fun _ _ h => (nomatch h), fun _ _ _ _ => isReward_zero⟩
    rw [withVotes, lookup_insert_eq, if_pos rfl, Option.some.injEq] at hlook
    rw [← hlook]
    exact fun v hv => by simp [mem_singleton.1 hv]
  exact ⟨hquery, (query_predicts_claim hcount (by decide +kernel)).1.symm.trans hquery⟩

/-- **A negative reward is queried and not claimed.** -/
theorem negative_vote :
    queryReward (chainAt 0) (withVotes (-1)) owner = -1 ∧
      (withdrawReward (chainAt 0) (withVotes (-1)) owner).1.allowance owner = 0 := by
  decide +kernel

end Sample

end TronGoblin.Stake
