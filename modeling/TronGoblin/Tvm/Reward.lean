import TronGoblin.Actuator.Stake

/-!
# Voter rewards

Model of the payout side of `tron-tvm/src/reward.rs`.  The vote index of a witness grows, at the end of each
cycle, by the reward of that cycle for one vote; a voter is paid the growth over the cycles it has not been
paid for yet, times its votes.  Rows of the index are written from `i128`s and read back unchanged; they are
integers here.

* `viWindowReward`, `computeRewardWindow`: what votes have earned from one cycle to another.
* `withdrawReward`: pay a voter up to the current cycle, and move its marks.
* `State.settled`: the state after the settlement with which a change of votes begins.
-/

namespace TronGoblin.Stake

open Checked (satI64)

/-- The factor by which the vote index is scaled. -/
def REWARD_VI_DECIMAL : Int := 1000000000000000000

/-- The nearest integer of 128 bits. -/
def satI128 (n : Int) : Int :=
  max (-0x80000000000000000000000000000000) (min n 0x7fffffffffffffffffffffffffffffff)

namespace Delegation

variable (d : Delegation) (address : Address)

def getBeginCycle : Int := (d.beginCycle.lookup address).getD 0

/-- A voter without an end mark has `REMARK`. -/
def getEndCycle : Int := (d.endCycle.lookup address).getD (-1)

variable (cycle : Int)

def getAccountVote : Option (List Vote) := d.accountVote.lookup (cycle, address)

def getReward : Int := (d.reward.lookup (cycle, address)).getD 0

def setBeginCycle (number : Int) : Delegation := { d with beginCycle := d.beginCycle.insert address number }

def setEndCycle (number : Int) : Delegation := { d with endCycle := d.endCycle.insert address number }

def setAccountVote (votes : List Vote) : Delegation :=
  { d with accountVote := d.accountVote.insert (cycle, address) votes }

def addReward (cycle value : Int) : Delegation :=
  { d with reward := d.reward.insert (cycle, address) (BigEndian.wrapI64 (d.getReward address cycle + value)) }

def readVi : Int := (d.witnessVi.lookup (cycle, address)).getD 0

end Delegation

/-- The witness that a vote is for, where its address has the length of one. -/
def Vote.witness (vote : Vote) : Option Address :=
  if h : vote.voteAddress.length = 21 then some ⟨vote.voteAddress, h⟩ else none

def voteReward (d : Delegation) (beginCycle endCycle : Int) (vote : Vote) : Int :=
  match vote.witness with
  | none => 0
  | some witness =>
    let delta := d.readVi witness (endCycle - 1) - d.readVi witness (beginCycle - 1)
    if delta ≤ 0 then 0 else satI64 ((satI128 (delta * vote.voteCount)).tdiv REWARD_VI_DECIMAL)

def viWindowReward (d : Delegation) (beginCycle endCycle : Int) (votes : List Vote) : Int :=
  votes.foldl (fun reward vote => satI64 (reward + voteReward d beginCycle endCycle vote)) 0

variable (chain : Chain)

def computeRewardWindow (d : Delegation) (beginCycle endCycle : Int) (votes : List Vote) : Int :=
  if endCycle ≤ beginCycle then 0
  else
    let newAlgorithmCycle := chain.newRewardAlgorithmEffectiveCycle.getD 0x7fffffffffffffff
    let oldEndCycle := min endCycle newAlgorithmCycle
    let (reward, beginCycle) :=
      if beginCycle < newAlgorithmCycle then (chain.outside.oldReward beginCycle oldEndCycle votes, oldEndCycle)
      else (0, beginCycle)
    if beginCycle < endCycle then satI64 (reward + viWindowReward d beginCycle endCycle votes) else reward

variable (s : State)

/-- The catch-up of the one cycle for which the votes were recorded: its reward, and the cycle to go on from. -/
def catchUp (address : Address) : Int × Int :=
  let d := s.delegation
  let beginCycle := d.getBeginCycle address
  if beginCycle + 1 = d.getEndCycle address ∧ beginCycle < s.currentCycleNumber then
    match d.getAccountVote address beginCycle with
    | some votes =>
      (satI64 (0 + computeRewardWindow chain d beginCycle (d.getEndCycle address) votes), beginCycle + 1)
    | none => (0, beginCycle + 1)
  else (0, beginCycle)

def State.payAllowance (address : Address) (account : Account) (paid : Int) : State :=
  if 0 < paid then s.putAccount address { account with allowance := satI64 (account.allowance + paid) } else s

/-- `withdraw_reward`: the state after it, and what was paid. -/
def withdrawReward (address : Address) : State × Int :=
  match s.accounts.lookup address with
  | none => (s, 0)
  | some account =>
    let d := s.delegation
    let currentCycle := s.currentCycleNumber
    if currentCycle < d.getBeginCycle address then (s, 0)
    else if d.getBeginCycle address = currentCycle ∧ (d.getAccountVote address currentCycle).isSome then (s, 0)
    else
      let (paid, beginCycle) := catchUp chain s address
      if account.votes.isEmpty then
        let s := { s with delegation := d.setBeginCycle address (currentCycle + 1) }
        (s.payAllowance address account paid, paid)
      else
        let paid :=
          if beginCycle < currentCycle then
            satI64 (paid + computeRewardWindow chain d beginCycle currentCycle account.votes)
          else paid
        let s := s.payAllowance address account paid
        let d := (d.setBeginCycle address currentCycle).setEndCycle address (currentCycle + 1)
        ({ s with delegation := d.setAccountVote address currentCycle account.votes }, paid)

def withdrawRewardActuator (address : Address) : State × Int :=
  if chain.changeDelegation.getD 0 = 0 then (s, 0) else withdrawReward chain s address

def State.settled (address : Address) : State :=
  (withdrawRewardActuator chain s address).1

end TronGoblin.Stake
