import TronGoblin.Tvm.Reward

/-!
# Votes

Model of `tron-actuator/src/vote_witness.rs` and of `update_vote_after_unstake` in `tron-tvm/src/votes.rs`.
The first change of an account's votes in a cycle records the votes as they were; the record's new votes
follow every later change.

* `State.recordVotes`: what the three operations that change votes have in common.
* `validateVoteWitness`, `executeVoteWitness`: votes are replaced.
* `updateVoteAfterUnstake`: votes are trimmed to the stake that is left.
-/

namespace TronGoblin.Stake

open Assoc (Table)
open Checked (require orFail addI64)

/-- The record of an account's votes, made from its current votes where there is none. -/
def voteRecord (votesStore : Table Address Votes) (owner : Address) (account : Account) : Votes :=
  (votesStore.lookup owner).getD ⟨account.votes, []⟩

/-- The votes store after the account's votes have become `newVotes`. -/
def recordVotes (votesStore : Table Address Votes) (owner : Address) (account : Account) (newVotes : List Vote) :
    Table Address Votes :=
  votesStore.insert owner { voteRecord votesStore owner account with newVotes := newVotes }

structure VoteWitnessContract where
  ownerAddress : Bytes
  votes : List Vote
  deriving DecidableEq

def MAX_VOTE_NUMBER : Nat := 30

/-- The checks of one vote, and the sum with it. -/
def validateVote (s : State) (sum : Int) (v : Vote) : Except ActuatorError Int := do
  let candidate ← orFail (Market.decodeAddress v.voteAddress) .invalidVoteAddress
  require (0 < v.voteCount) .nonPositiveVoteCount
  require (s.accounts.lookup candidate).isSome .candidateAccountMissing
  require (s.witnesses.lookup candidate).isSome .candidateWitnessMissing
  orFail (addI64 sum v.voteCount) .overflow

def checkMul (a b : Int) : Except ActuatorError Int :=
  if Checked.FitsI64 (a * b) then .ok (a * b) else .error .overflow

def validateVoteWitness (s : State) (c : VoteWitnessContract) : Except ActuatorError Unit := do
  let owner ← requireOwner c.ownerAddress
  let n := c.votes.length
  require (n ≠ 0) .emptyVoteList
  require (n ≤ MAX_VOTE_NUMBER) (.tooManyVotes n MAX_VOTE_NUMBER)
  let sum ← c.votes.foldlM (validateVote s) 0
  let ownerAccount ← s.account owner
  let required ← checkMul sum TRX_PRECISION
  let tronPower := tronPower ownerAccount
  require (required ≤ tronPower) (.insufficientTronPower required tronPower)

def executeVoteWitness (chain : Chain) (s : State) (c : VoteWitnessContract) : Except ActuatorError State := do
  let owner ← requireOwner c.ownerAddress
  let s := s.settled chain owner
  let ownerAccount ← s.account owner
  let s := { s with votes := recordVotes s.votes owner ownerAccount c.votes }
  return s.putAccount owner { ownerAccount with votes := c.votes }

/-- The votes that are left of an account's after it has been left with less stake. -/
def trimmed (chain : Chain) (totalVote ownedTronPower : Int) (votes : List Vote) : List Vote :=
  (votes.map fun v => { v with voteCount := chain.outside.voteShare v.voteCount totalVote ownedTronPower }).filter
    fun v => 0 < v.voteCount

/-- `update_vote_after_unstake`: the votes store and the account after it. -/
def updateVoteAfterUnstake (chain : Chain) (votesStore : Table Address Votes) (owner : Address)
    (account : Account) : Table Address Votes × Account :=
  let totalVote := sumI64 (account.votes.map (·.voteCount))
  let ownedTronPower := tronPower account
  if account.votes.isEmpty ∨ totalVote = 0 ∨ totalVote * TRX_PRECISION ≤ ownedTronPower then (votesStore, account)
  else
    let trimmed := trimmed chain totalVote ownedTronPower account.votes
    (recordVotes votesStore owner account trimmed, { account with votes := trimmed })

end TronGoblin.Stake
