import TronGoblin.Actuator.StakeHoldings
import TronGoblin.Consensus.Maintenance

/-!
# Vote counts

A witness's count is changed only at the end of a cycle, by the net of what the records of the cycle say.  It is
then the sum of the votes that the accounts have for it.

* `votesFor`, `State.liveVotes`, `State.netVotes`: votes for a witness: of a list, of all accounts, and the net
  of the records.
* `countVote_eq`: what is counted is the net of the records.
* `VoteMove`: all that a transaction does to votes.
* `counts_are_live`: the counts over every run.
-/

namespace TronGoblin.Stake

open Assoc Checked List Option State Market
open BigEndian (wrapI64)
open History (after Each)

/-! ## Sums of votes -/

def votesFor (votes : List Vote) (w : Address) : Int :=
  (votes.map fun v => if v.witness = some w then v.voteCount else 0).sum

@[simp] theorem votesFor_nil (w : Address) : votesFor [] w = 0 := rfl

theorem votesFor_cons (v : Vote) (votes : List Vote) (w : Address) :
    votesFor (v :: votes) w = (if v.witness = some w then v.voteCount else 0) + votesFor votes w := sum_cons

/-- What a record adds to a witness's count. -/
def Votes.net (record : Votes) (w : Address) : Int := votesFor record.newVotes w - votesFor record.oldVotes w

namespace State

def votesOf (s : State) (a : Address) : Option (List Vote) := (s.accounts.lookup a).map (·.votes)

/-- The sum of the votes that the accounts have for a witness. -/
def liveVotes (s : State) (w : Address) : Int := Assoc.total (fun _ account => votesFor account.votes w) s.accounts

/-- What the records of the cycle add to a witness's count. -/
def netVotes (s : State) (w : Address) : Int := Assoc.total (fun _ record => record.net w) s.votes

def voteCount (s : State) (w : Address) : Option Int := (s.witnesses.lookup w).map (·.voteCount)

end State

/-! ## Counting -/

variable (deltas : Table Address Int)

def deltaOf (w : Address) : Int := (deltas.lookup w).getD 0

theorem deltaOf_addDelta (v : Vote) (count : Int) (w : Address) :
    deltaOf (addDelta deltas v count) w =
      if v.witness = some w then wrapI64 (deltaOf deltas w + count) else deltaOf deltas w := by
  unfold addDelta
  cases hv : v.witness with
  | none => simp
  | some x =>
    by_cases hx : w = x
    · subst hx
      simp [deltaOf]
    · simp [hx, Ne.symm hx, deltaOf]

/-- Counts wrap around, so what is counted in the end is the wrapped sum. -/
theorem deltaOf_foldl {α : Type} {f : Table Address Int → α → Table Address Int} {amount : α → Int} {w : Address}
    (hstep : ∀ deltas x, FitsI64 (deltaOf deltas w) → deltaOf (f deltas x) w = wrapI64 (deltaOf deltas w + amount x))
    (l : List α) {deltas : Table Address Int} (h : FitsI64 (deltaOf deltas w)) :
    deltaOf (l.foldl f deltas) w = wrapI64 (deltaOf deltas w + (l.map amount).sum) := by
  induction l generalizing deltas with
  | nil => simp [wrapI64_of_fits h]
  | cons x l ih =>
    have hfits : FitsI64 (deltaOf (f deltas x) w) := by
      rw [hstep deltas x h]
      exact fits_wrapI64 _
    rw [foldl_cons, ih hfits, hstep deltas x h, map_cons, sum_cons, wrapI64, wrapI64, wrapI64, Int.bmod_add_bmod,
      Int.add_assoc]

theorem deltaOf_countRecord (record : Votes) {deltas : Table Address Int} {w : Address}
    (h : FitsI64 (deltaOf deltas w)) :
    deltaOf (countRecord deltas record) w = wrapI64 (deltaOf deltas w + record.net w) := by
  have hstep : ∀ (count : Vote → Int) (deltas : Table Address Int) (v : Vote), FitsI64 (deltaOf deltas w) →
      deltaOf (addDelta deltas v (count v)) w =
        wrapI64 (deltaOf deltas w + if v.witness = some w then count v else 0) := by
    intro count deltas v h
    rw [deltaOf_addDelta]
    split
    · rfl
    · rw [Int.add_zero, wrapI64_of_fits h]
  have hneg : ∀ votes : List Vote,
      (votes.map fun v => if v.witness = some w then -v.voteCount else 0).sum = -votesFor votes w := by
    intro votes
    induction votes with
    | nil => rfl
    | cons v votes ih =>
      rw [map_cons, sum_cons, ih, votesFor_cons]
      split <;> omega
  have hold := deltaOf_foldl (hstep fun v => -v.voteCount) record.oldVotes h
  have hfits : FitsI64 (deltaOf (record.oldVotes.foldl (fun deltas v => addDelta deltas v (-v.voteCount)) deltas) w) := by
    rw [hold]
    exact fits_wrapI64 _
  rw [countRecord, deltaOf_foldl (hstep (·.voteCount)) record.newVotes hfits, hold, hneg, wrapI64, wrapI64,
    wrapI64, Int.bmod_add_bmod, ← votesFor, Votes.net]
  congr 1
  omega

theorem countVote_eq (s : State) (w : Address) : deltaOf (countVote s.votes) w = wrapI64 (s.netVotes w) := by
  have hempty : deltaOf (∅ : Table Address Int) w = 0 := by simp [deltaOf]
  rw [countVote, deltaOf_foldl (fun _ record h => deltaOf_countRecord record h) _ (by rw [hempty]; decide), hempty,
    Int.zero_add, netVotes, total_values]

/-! ## Witnesses -/

theorem lookup_updateWitness (f : Witness → Witness) (witnesses : Table Address Witness) (a b : Address) :
    (updateWitness f witnesses a).lookup b = if b = a then (witnesses.lookup a).map f else witnesses.lookup b := by
  unfold updateWitness
  cases h : witnesses.lookup a with
  | none =>
    by_cases hb : b = a
    · rw [if_pos hb, hb]
      exact h
    · rw [if_neg hb]
  | some w =>
    rw [lookup_insert_eq]
    rfl

theorem lookup_updateWitnesses (f : Address → Witness → Witness) {keys : List Address} (hkeys : keys.Nodup)
    (witnesses : Table Address Witness) (b : Address) :
    (keys.foldl (fun witnesses a => updateWitness (f a) witnesses a) witnesses).lookup b =
      if b ∈ keys then (witnesses.lookup b).map (f b) else witnesses.lookup b := by
  induction keys generalizing witnesses with
  | nil => simp
  | cons a keys ih =>
    obtain ⟨ha, hkeys⟩ := nodup_cons.1 hkeys
    rw [foldl_cons, ih hkeys, lookup_updateWitness]
    by_cases hb : b = a
    · subst hb
      simp [ha]
    · simp [hb]

theorem lookup_addVotes (witnesses : Table Address Witness) (w : Address) :
    (addVotes deltas witnesses).lookup w = (witnesses.lookup w).map (·.addVotes (deltaOf deltas w)) := by
  rw [addVotes, lookup_updateWitnesses _ witnesses.keys_nodup]
  split
  · rfl
  · next hnot =>
    rw [AList.lookup_eq_none.2 hnot]
    rfl

theorem voteCount_updateWitnesses (f : Witness → Witness) (hf : ∀ w, (f w).voteCount = w.voteCount)
    (keys : List Address) (witnesses : Table Address Witness) (b : Address) :
    ((keys.foldl (updateWitness f) witnesses).lookup b).map (·.voteCount) = (witnesses.lookup b).map (·.voteCount) := by
  induction keys generalizing witnesses with
  | nil => rfl
  | cons a keys ih =>
    rw [foldl_cons, ih, lookup_updateWitness]
    split
    · next hb =>
      rw [hb, Option.map_map]
      congr 1
      funext w
      exact hf w
    · rfl

/-! ## Maintenance -/

section Pass

variable {chain : Chain} {s : State}

/-- Accounts change, but not their votes. -/
def SameVotes (s s' : State) : Prop := s' = { s with accounts := s'.accounts } ∧ ∀ a, s'.votesOf a = s.votesOf a

theorem SameVotes.refl (s : State) : SameVotes s s := ⟨rfl, fun _ => rfl⟩

theorem SameVotes.trans {s t u : State} (h : SameVotes s t) (h' : SameVotes t u) : SameVotes s u := by
  refine ⟨?_, fun a => (h'.2 a).trans (h.2 a)⟩
  rw [h'.1, h.1]

theorem sameVotes_creditAllowance (s : State) (a : Address) (pay : Int) : SameVotes s (s.creditAllowance a pay) := by
  unfold creditAllowance
  split
  · exact .refl s
  · next account hlook =>
    exact ⟨rfl, map_lookup_insert hlook rfl⟩

variable (sortOpt : Bool)

theorem sameVotes_payStandby : SameVotes s (payStandby chain s sortOpt) := by
  have hfold : ∀ (l : List (Address × Int)) (pay : Int → Int) (t : State),
      SameVotes t (l.foldl (fun s e => s.creditAllowance e.1 (pay e.2)) t) := by
    intro l pay
    induction l with
    | nil => exact SameVotes.refl
    | cons e l ih => exact fun t => (sameVotes_creditAllowance t e.1 _).trans (ih _)
  unfold payStandby
  dsimp only
  split
  · exact hfold _ (fun n => chain.outside.standbyPay n _ _) s
  · exact .refl s

theorem netVotes_of_empty (h : countWitnessEmpty s.votes) (w : Address) : s.netVotes w = 0 := by
  have hzero : ∀ record ∈ Assoc.values s.votes, record.net w = 0 := by
    intro record hrecord
    have hboth := List.all_eq_true.1 h record hrecord
    simp only [Bool.and_eq_true, List.isEmpty_iff] at hboth
    simp [Votes.net, hboth.1, hboth.2]
  rw [netVotes, total_values, List.map_congr_left hzero]
  simp

theorem voteCount_flipJobs (prevActive newActive : List Address) (w : Address) :
    (flipJobs s prevActive newActive).voteCount w = s.voteCount w := by
  rw [voteCount, flipJobs]
  rw [voteCount_updateWitnesses (fun w => { w with isJobs := true }) (fun _ => rfl),
    voteCount_updateWitnesses (fun w => { w with isJobs := false }) (fun _ => rfl), voteCount]

variable {w : Address}

theorem voteCount_updateActiveWitnesses (hnet : FitsI64 (s.netVotes w))
    (hcount : ∀ n, s.voteCount w = some n → FitsI64 (n + s.netVotes w)) :
    (updateActiveWitnesses s sortOpt).1.voteCount w = (s.voteCount w).map (· + s.netVotes w) := by
  rw [voteCount, updateActiveWitnesses]
  rw [lookup_addVotes, countVote_eq, wrapI64_of_fits hnet, voteCount]
  cases hlook : s.witnesses.lookup w with
  | none => rfl
  | some witness =>
    have hfits := hcount witness.voteCount (by rw [voteCount, hlook]; rfl)
    simp [map_some, Witness.addVotes, satI64_of_fits hfits]

theorem sameVotes_paid : SameVotes s (if chain.changeDelegation.getD 0 = 1 then s else payStandby chain s sortOpt) := by
  split
  · exact .refl s
  · exact sameVotes_payStandby sortOpt

theorem applyVotes_frame (chain : Chain) (s : State) :
    let s' := (applyVotes chain s).1
    (∀ a, s'.votesOf a = s.votesOf a) ∧ s'.votes = s.votes ∧ s'.delegation = s.delegation ∧
      s'.currentCycleNumber = s.currentCycleNumber ∧ s'.removeThePowerOfTheGr = s.removeThePowerOfTheGr := by
  unfold applyVotes
  split
  · exact ⟨fun _ => rfl, rfl, rfl, rfl, rfl⟩
  · obtain ⟨heq, hvotes⟩ : SameVotes (updateActiveWitnesses s _).1 _ :=
      sameVotes_paid (decide (chain.consensusLogicOptimization.getD 0 = 1))
    refine ⟨hvotes, ?_⟩
    simp only [flipJobs]
    rw [heq]
    exact ⟨rfl, rfl, rfl, rfl⟩

/-- **The pass that counts**, where nothing overflows. -/
theorem applyVotes_voteCount (hnet : FitsI64 (s.netVotes w))
    (hcount : ∀ n, s.voteCount w = some n → FitsI64 (n + s.netVotes w)) :
    (applyVotes chain s).1.voteCount w = (s.voteCount w).map (· + s.netVotes w) := by
  unfold applyVotes
  split
  · next hempty =>
    rw [netVotes_of_empty hempty]
    simp
  · rw [voteCount_flipJobs, voteCount, (sameVotes_paid (decide (chain.consensusLogicOptimization.getD 0 = 1))).1]
    exact voteCount_updateActiveWitnesses (decide (chain.consensusLogicOptimization.getD 0 = 1)) hnet hcount

/-- The state that the pass counts in. -/
theorem prepared_frame (chain : Chain) (s : State) :
    let t := accumulateVi chain (tryRemoveThePowerOfTheGr chain s)
    t.accounts = s.accounts ∧ t.votes = s.votes ∧ t.witnesses = (tryRemoveThePowerOfTheGr chain s).witnesses ∧
      t.currentCycleNumber = s.currentCycleNumber ∧
      t.removeThePowerOfTheGr = (tryRemoveThePowerOfTheGr chain s).removeThePowerOfTheGr := by
  unfold accumulateVi tryRemoveThePowerOfTheGr
  split_ifs <;> exact ⟨rfl, rfl, rfl, rfl, rfl⟩

theorem applyMaintenance_votes (chain : Chain) (s : State) :
    let s' := (applyMaintenance chain s).1
    (∀ a, s'.votesOf a = s.votesOf a) ∧ s'.votes = ∅ := by
  obtain ⟨haccounts, -⟩ := prepared_frame chain s
  obtain ⟨hvotes, -⟩ := applyVotes_frame chain (accumulateVi chain (tryRemoveThePowerOfTheGr chain s))
  have hsame : ∀ a, (accumulateVi chain (tryRemoveThePowerOfTheGr chain s)).votesOf a = s.votesOf a := by
    intro a
    rw [votesOf, haccounts, votesOf]
  unfold applyMaintenance
  dsimp only
  split
  · exact ⟨fun a => (hvotes a).trans (hsame a), rfl⟩
  · exact ⟨fun a => (hvotes a).trans (hsame a), rfl⟩

theorem applyMaintenance_flag (chain : Chain) (s : State) :
    (applyMaintenance chain s).1.removeThePowerOfTheGr = (tryRemoveThePowerOfTheGr chain s).removeThePowerOfTheGr := by
  obtain ⟨-, -, -, -, hflag⟩ := prepared_frame chain s
  obtain ⟨-, -, -, -, hvoted⟩ := applyVotes_frame chain (accumulateVi chain (tryRemoveThePowerOfTheGr chain s))
  unfold applyMaintenance
  dsimp only
  split
  · exact hvoted.trans hflag
  · exact hvoted.trans hflag

theorem applyMaintenance_voteCount (hnet : FitsI64 (s.netVotes w))
    (hcount : ∀ n, (tryRemoveThePowerOfTheGr chain s).voteCount w = some n → FitsI64 (n + s.netVotes w)) :
    (applyMaintenance chain s).1.voteCount w =
      ((tryRemoveThePowerOfTheGr chain s).voteCount w).map (· + s.netVotes w) := by
  obtain ⟨-, hrecords, hwitnesses, -⟩ := prepared_frame chain s
  have hsame : (accumulateVi chain (tryRemoveThePowerOfTheGr chain s)).netVotes w = s.netVotes w := by
    rw [netVotes, hrecords, netVotes]
  have hthere : (accumulateVi chain (tryRemoveThePowerOfTheGr chain s)).voteCount w =
      (tryRemoveThePowerOfTheGr chain s).voteCount w := by
    rw [voteCount, hwitnesses, voteCount]
  have hvoted : (applyVotes chain (accumulateVi chain (tryRemoveThePowerOfTheGr chain s))).1.voteCount w = _ :=
    applyVotes_voteCount (hsame ▸ hnet) (by rw [hsame, hthere]; exact hcount)
  rw [hsame, hthere] at hvoted
  unfold applyMaintenance
  dsimp only
  split
  · exact hvoted
  · exact hvoted

end Pass

/-! ## Transactions -/

structure VoteMove (s s' : State) (owner : Address) (old new : List Vote) : Prop where
  lookup : s.votesOf owner = some old
  votesOf : ∀ a, s'.votesOf a = if a = owner then some new else s.votesOf a
  records : s'.votes = s.votes ∧ new = old ∨
    s'.votes = s.votes.insert owner ⟨(s.votes.lookup owner).elim old (·.oldVotes), new⟩
  witnesses : s'.witnesses = s.witnesses
  delegation : s'.delegation = s.delegation
  currentCycleNumber : s'.currentCycleNumber = s.currentCycleNumber
  removeThePowerOfTheGr : s'.removeThePowerOfTheGr = s.removeThePowerOfTheGr

section Moves

variable {chain : Chain} {s s' : State} {result : ExecutionResult}

theorem recordVotes_eq (votesStore : Table Address Votes) (owner : Address) (account : Account) (new : List Vote) :
    recordVotes votesStore owner account new =
      votesStore.insert owner ⟨(votesStore.lookup owner).elim account.votes (·.oldVotes), new⟩ := by
  rw [recordVotes, voteRecord]
  cases votesStore.lookup owner <;> rfl

theorem votesOf_putAccount (s : State) (owner a : Address) (account : Account) :
    (s.putAccount owner account).votesOf a = if a = owner then some account.votes else s.votesOf a := by
  rw [votesOf, State.putAccount, lookup_insert_eq]
  split <;> rfl

theorem votesOf_lookup {a : Address} {account : Account} (h : s.accounts.lookup a = some account) :
    s.votesOf a = some account.votes := by
  rw [votesOf, h]
  rfl

theorem validateVotes_pos {votes : List Vote} {sum total : Int}
    (h : votes.foldlM (validateVote s) sum = .ok total) : ∀ v ∈ votes, 0 < v.voteCount := by
  induction votes generalizing sum with
  | nil => simp
  | cons v votes ih =>
    simp only [foldlM_cons, validateVote, bind_eq_ok, orFail_eq_ok, require_eq_ok] at h
    obtain ⟨next, ⟨-, -, -, hpos, -⟩, hrest⟩ := h
    rintro x (_ | ⟨_, hx⟩)
    · exact hpos
    · exact ih hrest x hx

theorem voteMove_voteWitness {c : VoteWitnessContract} (h : apply chain s (.voteWitness c) = .ok (s', result)) :
    ∃ owner old, decodeAddress c.ownerAddress = some owner ∧
      VoteMove (s.settled chain owner) s' owner old c.votes ∧ ∀ v ∈ c.votes, 0 < v.voteCount := by
  simp only [apply, validateVoteWitness, executeVoteWitness, requireOwner, account, bind_eq_ok,
    map_eq_ok, orFail_eq_ok, pure_eq_ok, Prod.mk.injEq] at h
  obtain ⟨-, ⟨-, -, -, -, -, -, sum, hsum, -⟩, t, ⟨owner, howner, account, hlook, rfl⟩, rfl, -⟩ := h
  refine ⟨owner, account.votes, howner, ⟨votesOf_lookup hlook, fun a => ?_, .inr ?_, rfl, rfl, rfl, rfl⟩,
    validateVotes_pos hsum⟩
  · exact votesOf_putAccount _ owner a _
  · exact recordVotes_eq _ owner account c.votes

theorem updateVoteAfterUnstake_cases (chain : Chain) (votesStore : Table Address Votes) (owner : Address)
    (account : Account) :
    (updateVoteAfterUnstake chain votesStore owner account = (votesStore, account)) ∨
      ∃ new, updateVoteAfterUnstake chain votesStore owner account =
        (recordVotes votesStore owner account new, { account with votes := new }) ∧ ∀ v ∈ new, 0 < v.voteCount := by
  unfold updateVoteAfterUnstake
  dsimp only
  split
  · exact .inl rfl
  · refine .inr ⟨_, rfl, fun v hv => ?_⟩
    simpa using (mem_filter.1 hv).2

variable {account account' : Account}

theorem unfrozenAccount_votes {c : UnfreezeBalanceV2Contract} (h : unfrozenAccount chain account c = .ok account') :
    account'.votes = account.votes := by
  simp only [unfrozenAccount, bind_eq_ok, pure_eq_ok] at h
  obtain ⟨-, -, -, -, rfl⟩ := h
  rfl

theorem applyWeightDelta_frame (chain : Chain) (s : State) (resource delta : Int) :
    ∃ weight power, s.applyWeightDelta chain resource delta =
      { s with totalWeight := weight, totalTronPowerWeight := power } := by
  unfold applyWeightDelta
  split
  · exact ⟨_, _, rfl⟩
  · split
    · exact ⟨_, _, rfl⟩
    · exact ⟨s.totalWeight, s.totalTronPowerWeight, rfl⟩

theorem voteMove_unfreezeBalanceV2 {c : UnfreezeBalanceV2Contract}
    (h : apply chain s (.unfreezeBalanceV2 c) = .ok (s', result)) :
    ∃ owner old new, decodeAddress c.ownerAddress = some owner ∧
      VoteMove (s.settled chain owner) s' owner old new ∧ (new = old ∨ ∀ v ∈ new, 0 < v.voteCount) := by
  simp only [apply, executeUnfreezeBalanceV2, requireOwner, account, bind_eq_ok, orFail_eq_ok,
    pure_eq_ok, Prod.mk.injEq] at h
  obtain ⟨-, -, owner, howner, account, hlook, account', hunfrozen, rfl, -⟩ := h
  have hsame := unfrozenAccount_votes hunfrozen
  obtain ⟨weight, power, hweight⟩ := applyWeightDelta_frame chain (s.settled chain owner) c.resource
    (weightDelta (frozenV2WithDelegated account c.resource)
      (satI64 (frozenV2WithDelegated account c.resource - c.unfreezeBalance)))
  rw [hweight]
  rcases updateVoteAfterUnstake_cases chain (s.settled chain owner).votes owner account' with heq | ⟨new, heq, hpos⟩
  · rw [heq]
    refine ⟨owner, account.votes, account'.votes, howner,
      ⟨votesOf_lookup hlook, fun a => ?_, .inl ⟨rfl, hsame⟩, rfl, rfl, rfl, rfl⟩, .inl hsame⟩
    exact votesOf_putAccount _ owner a _
  · rw [heq]
    refine ⟨owner, account.votes, new, howner, ⟨votesOf_lookup hlook, fun a => ?_, .inr ?_, rfl, rfl, rfl, rfl⟩, .inr hpos⟩
    · exact votesOf_putAccount _ owner a _
    · rw [← hsame]
      exact recordVotes_eq _ owner account' new

/-- The delegated branch of an unfreeze changes accounts and records, but no votes. -/
theorem unfreezeDelegated_votes {owner receiver : Address} {resource amount decrease : Int}
    (h : unfreezeDelegated chain s owner receiver account resource = .ok (s', account', amount, decrease)) :
    (∃ accounts records, s' = { s with accounts := accounts, delegatedResource := records }) ∧
      (∀ a, s'.votesOf a = s.votesOf a) ∧ account'.votes = account.votes := by
  simp only [unfreezeDelegated, checkAdd, bind_eq_ok, orFail_eq_ok, addI64_eq_some, pure_eq_ok, Prod.mk.injEq] at h
  obtain ⟨row, -, kind, -, ⟨t, decrease'⟩, hreceive, -, ⟨-, rfl⟩, rfl, rfl, -⟩ := h
  obtain ⟨⟨accounts, rfl⟩, hvotes⟩ := unfreezeReceiver_frame (f := Account.votes) (fun _ _ => rfl) hreceive
  unfold storeResource
  split
  · exact ⟨⟨_, _, rfl⟩, hvotes, rfl⟩
  · exact ⟨⟨_, _, rfl⟩, hvotes, rfl⟩

theorem unfreezeOwn_votes {resource amount decrease : Int}
    (h : unfreezeOwn chain account resource = .ok (account', amount, decrease)) : account'.votes = account.votes := by
  simp only [unfreezeOwn, bind_eq_ok, orFail_eq_ok] at h
  obtain ⟨kind, -, h⟩ := h
  cases kind with
  | bandwidth =>
    simp only [bind_eq_ok, pure_eq_ok, Prod.mk.injEq] at h
    obtain ⟨-, -, rfl, -⟩ := h
    rfl
  | energy =>
    simp only [bind_eq_ok, pure_eq_ok, Prod.mk.injEq] at h
    obtain ⟨-, -, rfl, -⟩ := h
    rfl

theorem voteMove_unfreezeBalance {c : UnfreezeBalanceContract}
    (h : apply chain s (.unfreezeBalance c) = .ok (s', result)) :
    ∃ owner old, decodeAddress c.ownerAddress = some owner ∧ VoteMove (s.settled chain owner) s' owner old [] := by
  simp only [apply, executeUnfreezeBalance, requireOwner, account, bind_eq_ok, orFail_eq_ok] at h
  obtain ⟨-, -, owner, howner, account, hlook, receiver, hreceiver, hexec⟩ := h
  cases receiver with
  | none =>
    simp only [bind_eq_ok, map_eq_ok, orFail_eq_ok, pure_eq_ok, Prod.mk.injEq] at hexec
    obtain ⟨-, ⟨⟨account', amount, decrease⟩, hown, rfl⟩, kind, -, rfl, -⟩ := hexec
    refine ⟨owner, account.votes, howner, votesOf_lookup hlook, fun a => ?_, .inr ?_, rfl, rfl, rfl, rfl⟩
    · exact votesOf_putAccount _ owner a _
    · rw [← unfreezeOwn_votes hown]
      exact recordVotes_eq _ owner account' []
  | some receiver =>
    simp only [bind_eq_ok, orFail_eq_ok, pure_eq_ok, Prod.mk.injEq] at hexec
    obtain ⟨⟨t, account', amount, decrease⟩, hdelegated, kind, -, rfl, -⟩ := hexec
    obtain ⟨⟨accounts, records, rfl⟩, hvotes, hsame⟩ := unfreezeDelegated_votes hdelegated
    refine ⟨owner, account.votes, howner, votesOf_lookup hlook, fun a => ?_, .inr ?_, rfl, rfl, rfl, rfl⟩
    · refine (votesOf_putAccount _ owner a _).trans ?_
      split
      · rfl
      · exact hvotes a
    · rw [← hsame]
      exact recordVotes_eq _ owner account' []

/-- A state with other allowances and other marks of the voters. -/
def SameTally (s s' : State) : Prop :=
  (∃ accounts delegation, s' = { s with accounts := accounts, delegation := delegation }) ∧
    ∀ a, s'.votesOf a = s.votesOf a

theorem sameTally_withdraw (chain : Chain) (s : State) (voter : Address) :
    SameTally s (withdrawReward chain s voter).1 := by
  obtain ⟨d, heq | ⟨account, n, hlook, heq⟩⟩ := withdrawReward_cases chain s voter
  · rw [heq]
    exact ⟨⟨_, _, rfl⟩, fun _ => rfl⟩
  · rw [heq]
    exact ⟨⟨_, _, rfl⟩, map_lookup_insert hlook rfl⟩

theorem sameTally_settled (chain : Chain) (s : State) (voter : Address) : SameTally s (s.settled chain voter) := by
  unfold settled withdrawRewardActuator
  split
  · exact ⟨⟨_, _, rfl⟩, fun _ => rfl⟩
  · exact sameTally_withdraw chain s voter

end Moves

/-! ## The tally -/

theorem elim_votesOf (s : State) (a : Address) (f : List Vote → Int) :
    (s.accounts.lookup a).elim 0 (fun account => f account.votes) = (s.votesOf a).elim 0 f := by
  rw [votesOf]
  cases s.accounts.lookup a <;> rfl

theorem elim_votes (s : State) (a w : Address) :
    (s.accounts.lookup a).elim 0 (fun account => votesFor account.votes w) = (s.votesOf a).elim 0 (votesFor · w) :=
  elim_votesOf s a (votesFor · w)

variable {s s' : State}

theorem liveVotes_congr (h : ∀ a, s'.votesOf a = s.votesOf a) (w : Address) : s'.liveVotes w = s.liveVotes w := by
  refine total_ext fun a => ?_
  rw [elim_votes, elim_votes, h]

theorem VoteMove.liveVotes {owner : Address} {old new : List Vote} (h : VoteMove s s' owner old new) (w : Address) :
    s'.liveVotes w = s.liveVotes w - votesFor old w + votesFor new w := by
  have hothers : ∀ a, a ≠ owner → (s'.accounts.lookup a).elim 0 (fun account => votesFor account.votes w) =
      (s.accounts.lookup a).elim 0 (fun account => votesFor account.votes w) := by
    intro a ha
    rw [elim_votes, elim_votes, h.votesOf, if_neg ha]
  have hupdate : s'.liveVotes w = s.liveVotes w - _ + _ := total_update owner hothers
  rw [elim_votes, elim_votes, h.votesOf, if_pos rfl, h.lookup] at hupdate
  exact hupdate

/-- The records agree with the accounts, and with them the counts are what the accounts say, up to a surplus. -/
structure Tallied (surplus : Address → Int) (s : State) : Prop where
  records : ∀ a record, s.votes.lookup a = some record → s.votesOf a = some record.newVotes
  counts : ∀ w n, s.voteCount w = some n → n + s.netVotes w = s.liveVotes w + surplus w

section Tally

variable {surplus : Address → Int} {s s' : State}

section

variable (h : Tallied surplus s)
include h

theorem Tallied.of_sameTally (hsame : SameTally s s') : Tallied surplus s' := by
  obtain ⟨⟨accounts, delegation, rfl⟩, hvotes⟩ := hsame
  refine ⟨fun a record hrecord => (hvotes a).trans (h.records a record hrecord), fun w n hn => ?_⟩
  rw [liveVotes_congr hvotes]
  exact h.counts w n hn

theorem Tallied.netVotes_of_move {owner : Address} {old new : List Vote} (hmove : VoteMove s s' owner old new)
    (w : Address) : s'.netVotes w = s.netVotes w - votesFor old w + votesFor new w := by
  rcases hmove.records with ⟨hsame, rfl⟩ | hrecord
  · rw [netVotes, hsame, netVotes]
    omega
  · rw [netVotes, hrecord, total_insert_eq, netVotes]
    cases hlook : s.votes.lookup owner with
    | none =>
      simp only [elim_none, Votes.net]
      omega
    | some record =>
      -- what the record says is new is what the account had
      have hnew := (h.records owner record hlook).symm.trans hmove.lookup
      simp only [elim_some, Votes.net, some.inj hnew]
      omega

theorem Tallied.of_move {owner : Address} {old new : List Vote} (hmove : VoteMove s s' owner old new)
    : Tallied surplus s' where
  records a record hrecord := by
    rw [hmove.votesOf]
    rcases hmove.records with ⟨hsame, rfl⟩ | hinsert
    · rw [hsame] at hrecord
      split
      · next ha =>
        rw [← h.records a record hrecord, ha, hmove.lookup]
      · exact h.records a record hrecord
    · rw [hinsert, lookup_insert_eq] at hrecord
      split at hrecord
      · next ha =>
        cases hrecord
        rw [if_pos ha]
      · next ha =>
        rw [if_neg ha]
        exact h.records a record hrecord
  counts w n hn := by
    rw [voteCount, hmove.witnesses] at hn
    have hcounts := h.counts w n hn
    rw [h.netVotes_of_move hmove, hmove.liveVotes]
    omega

theorem Tallied.of_maintenance {chain : Chain} (hflag : s.removeThePowerOfTheGr ≠ some 1)
    (hnet : ∀ w, FitsI64 (s.netVotes w)) (hcount : ∀ w n, s.voteCount w = some n → FitsI64 (n + s.netVotes w)) :
    let s' := (applyMaintenance chain s).1
    s'.votes = ∅ ∧ (∀ w n, s'.voteCount w = some n → n = s'.liveVotes w + surplus w) := by
  have hunarmed : tryRemoveThePowerOfTheGr chain s = s := if_neg hflag
  obtain ⟨hvotes, hempty⟩ := applyMaintenance_votes chain s
  refine ⟨hempty, fun w n hn => ?_⟩
  rw [applyMaintenance_voteCount (hnet w) (by rw [hunarmed]; exact hcount w), hunarmed] at hn
  obtain ⟨before, hbefore, rfl⟩ := map_eq_some_iff.1 hn
  rw [liveVotes_congr hvotes]
  exact h.counts w before hbefore

end

theorem tallied_of_counted (hempty : s.votes = ∅) (hcounts : ∀ w n, s.voteCount w = some n → n = s.liveVotes w + surplus w) :
    Tallied surplus s := by
  refine ⟨fun a record hrecord => ?_, fun w n hn => ?_⟩
  · rw [hempty] at hrecord
    cases hrecord
  · have hzero : s.netVotes w = 0 := by
      rw [netVotes, hempty]
      rfl
    rw [hzero, Int.add_zero]
    exact hcounts w n hn

end Tally

/-! ## Runs -/

/-- What happens over the cycles: transactions, passes, claims, and rewards for the witnesses. -/
inductive CycleAct
  | tx (chain : Chain) (tx : Tx)
  | maintenance (chain : Chain)
  | withdraw (chain : Chain) (voter : Address)
  | addReward (cycle : Int) (witness : Address) (value : Int)

def cycleStep (s : State) : CycleAct → State
  | .tx chain tx => step s (chain, tx)
  | .maintenance chain => (applyMaintenance chain s).1
  | .withdraw chain voter => (withdrawReward chain s voter).1
  | .addReward cycle witness value => { s with delegation := s.delegation.addReward witness cycle value }

def Tx.isVoting : Tx → Bool
  | .voteWitness _ | .unfreezeBalance _ | .unfreezeBalanceV2 _ => true
  | _ => false

/-- The account whose votes such a transaction changes. -/
def Tx.voter : Tx → Option Address
  | .voteWitness c => decodeAddress c.ownerAddress
  | .unfreezeBalance c => decodeAddress c.ownerAddress
  | .unfreezeBalanceV2 c => decodeAddress c.ownerAddress
  | _ => none

/-- The transactions among the actions change votes. -/
def CycleAct.isVoting : CycleAct → Bool
  | .tx _ t => t.isVoting
  | _ => true

/-- The pass does not overflow: not the net of the records for a witness, and not its new count. -/
def CountsFit (s : State) : CycleAct → Prop
  | .maintenance chain => ∀ w, FitsI64 (s.netVotes w) ∧
      ∀ n, (tryRemoveThePowerOfTheGr chain s).voteCount w = some n → FitsI64 (n + s.netVotes w)
  | _ => True

/-- **What a voting transaction does**: a settlement, then a change of votes to a list without negative counts. -/
theorem voting_of_apply {chain : Chain} {tx : Tx} (htx : tx.isVoting) {result : ExecutionResult}
    (h : apply chain s tx = .ok (s', result)) :
    ∃ owner old new, tx.voter = some owner ∧ VoteMove (s.settled chain owner) s' owner old new ∧
      (new = old ∨ ∀ v ∈ new, 0 < v.voteCount) := by
  cases tx with
  | voteWitness c =>
    obtain ⟨owner, old, howner, hmove, hpos⟩ := voteMove_voteWitness h
    exact ⟨owner, old, c.votes, howner, hmove, .inr hpos⟩
  | unfreezeBalance c =>
    obtain ⟨owner, old, howner, hmove⟩ := voteMove_unfreezeBalance h
    exact ⟨owner, old, [], howner, hmove, .inr (by simp)⟩
  | unfreezeBalanceV2 c => exact voteMove_unfreezeBalanceV2 h
  | _ => cases htx

/-- Counted, with the removal of the first witnesses' votes not pending. -/
theorem tallied_step {s : State} (h : Tallied (fun _ => 0) s ∧ s.removeThePowerOfTheGr ≠ some 1) {act : CycleAct}
    (hact : act.isVoting) (hfits : CountsFit s act) :
    Tallied (fun _ => 0) (cycleStep s act) ∧ (cycleStep s act).removeThePowerOfTheGr ≠ some 1 := by
  obtain ⟨htallied, hflag⟩ := h
  cases act with
  | tx chain tx =>
    rw [cycleStep, step]
    split
    · next s' result happly =>
      obtain ⟨owner, old, new, -, hmove, -⟩ := voting_of_apply hact happly
      have hsettled := sameTally_settled chain s owner
      refine ⟨(htallied.of_sameTally hsettled).of_move hmove, ?_⟩
      obtain ⟨⟨accounts, delegation, heq⟩, -⟩ := hsettled
      rw [hmove.removeThePowerOfTheGr, heq]
      exact hflag
    · exact ⟨htallied, hflag⟩
  | maintenance chain =>
    have hunarmed : tryRemoveThePowerOfTheGr chain s = s := if_neg hflag
    rw [CountsFit, hunarmed] at hfits
    obtain ⟨hempty, hcounts⟩ := htallied.of_maintenance hflag (fun w => (hfits w).1) fun w => (hfits w).2
    refine ⟨tallied_of_counted hempty hcounts, ?_⟩
    rw [cycleStep, applyMaintenance_flag, hunarmed]
    exact hflag
  | withdraw chain voter =>
    have hsame := sameTally_withdraw chain s voter
    refine ⟨htallied.of_sameTally hsame, ?_⟩
    obtain ⟨⟨accounts, delegation, heq⟩, -⟩ := hsame
    rw [cycleStep, heq]
    exact hflag
  | addReward cycle witness value => exact ⟨htallied.of_sameTally ⟨⟨_, _, rfl⟩, fun _ => rfl⟩, hflag⟩

/-- **After every pass, a witness's count is the sum of the votes that the accounts have for it.** -/
theorem counts_are_live {s₀ : State} (hcounts : ∀ w n, s₀.voteCount w = some n → n = s₀.liveVotes w)
    (hempty : s₀.votes = ∅) (hflag : s₀.removeThePowerOfTheGr ≠ some 1) {acts : List CycleAct}
    (hacts : ∀ act ∈ acts, act.isVoting) {chain : Chain}
    (hfits : Each cycleStep s₀ CountsFit (acts ++ [.maintenance chain])) :
    let s := after cycleStep s₀ (acts ++ [.maintenance chain])
    (∀ w n, s.voteCount w = some n → n = s.liveVotes w) ∧ s.votes = ∅ := by
  obtain ⟨hearlier, hlast⟩ := hfits.of_concat
  have hstart : Tallied (fun _ => 0) s₀ := tallied_of_counted hempty fun w n hn => by rw [hcounts w n hn, Int.add_zero]
  have heach : Each cycleStep s₀ (fun s act => act.isVoting ∧ CountsFit s act) acts :=
    fun earlier act later heq => ⟨hacts act (by simp [heq]), hearlier earlier act later heq⟩
  obtain ⟨htallied, hunarmed⟩ := History.invariant_each (I := fun s => Tallied (fun _ => 0) s ∧ s.removeThePowerOfTheGr ≠ some 1)
    ⟨hstart, hflag⟩ (fun s act h hact => tallied_step h hact.1 hact.2) heach
  rw [CountsFit, show tryRemoveThePowerOfTheGr chain (after cycleStep s₀ acts) = _ from if_neg hunarmed] at hlast
  obtain ⟨hdone, hlive⟩ := htallied.of_maintenance hunarmed (fun w => (hlast w).1) fun w => (hlast w).2
  rw [History.after_concat]
  exact ⟨fun w n hn => (hlive w n hn).trans (Int.add_zero _), hdone⟩

namespace Sample

/-- 5 TRX are frozen, and the receiver is a witness. -/
def beforeVotes : State :=
  { step (unstaked 10000000) (chainAt 0, .freezeBalanceV2 ⟨owner.val, 5000000, 0⟩) with
    witnesses := (∅ : Table Address Witness).insert receiver ⟨0, false⟩ }

def voted : List CycleAct := [.tx (chainAt 0) (.voteWitness ⟨owner.val, [⟨receiver.val, 3⟩]⟩)]

theorem votes_voted : (after cycleStep beforeVotes voted).votes =
    (∅ : Table Address Votes).insert owner ⟨[], [⟨receiver.val, 3⟩]⟩ :=
  AList.ext (by decide +kernel)

theorem voteCount_single {s : State} {witness : Witness}
    (h : s.witnesses = (∅ : Table Address Witness).insert receiver witness) {w : Address} {n : Int}
    (hn : s.voteCount w = some n) : n = witness.voteCount := by
  rw [voteCount, h, lookup_insert_eq] at hn
  split at hn
  · exact (some.inj hn).symm
  · cases hn

theorem countsFit_voted : CountsFit (after cycleStep beforeVotes voted) (.maintenance (chainAt 0)) := by
  intro w
  have hnet : (after cycleStep beforeVotes voted).netVotes w = 0 ∨ (after cycleStep beforeVotes voted).netVotes w = 3 := by
    rw [netVotes, votes_voted, total_insert_eq]
    by_cases hw : Vote.witness ⟨receiver.val, 3⟩ = some w <;> simp [Votes.net, votesFor, hw, Assoc.total]
  have hwitnesses : (after cycleStep beforeVotes voted).witnesses =
      (∅ : Table Address Witness).insert receiver ⟨0, false⟩ := AList.ext (by decide +kernel)
  refine ⟨by rcases hnet with h | h <;> rw [h] <;> decide, fun n hn => ?_⟩
  rw [voteCount_single hwitnesses hn]
  rcases hnet with h | h <;> rw [h] <;> decide

/-- Three votes are cast, and counted at the end of the cycle. -/
theorem counts_are_live_voted :
    (after cycleStep beforeVotes (voted ++ [.maintenance (chainAt 0)])).voteCount receiver = some 3 ∧
      (after cycleStep beforeVotes (voted ++ [.maintenance (chainAt 0)])).liveVotes receiver = 3 := by
  have hcounts : ∀ w n, beforeVotes.voteCount w = some n → n = beforeVotes.liveVotes w := by
    intro w n hn
    rw [voteCount_single rfl hn]
    rfl
  have hfits : Each cycleStep beforeVotes CountsFit (voted ++ [.maintenance (chainAt 0)]) :=
    .concat (.cons trivial (History.each_nil _)) countsFit_voted
  have hvoted : (after cycleStep beforeVotes (voted ++ [.maintenance (chainAt 0)])).voteCount receiver = some 3 := by
    decide +kernel
  obtain ⟨hlive, -⟩ := counts_are_live hcounts (AList.ext (by decide +kernel)) (by decide +kernel) (by decide) hfits
  exact ⟨hvoted, (hlive receiver 3 hvoted).symm⟩

end Sample

end TronGoblin.Stake
