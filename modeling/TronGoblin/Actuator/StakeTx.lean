import TronGoblin.Actuator.Delegate
import TronGoblin.Actuator.Freeze
import TronGoblin.Lib.History

/-!
# Staking transactions

The transactions that change stakes, delegations and votes, and runs of them.

* `apply`: a transaction that passes its validator is executed; `step`: one that fails changes nothing.
* `run_keeps`: what every executed transaction of some kind keeps, every run of them keeps.
-/

namespace TronGoblin.Stake

open History (after)

inductive Tx
  | voteWitness (c : VoteWitnessContract)
  | freezeBalance (c : FreezeBalanceContract)
  | unfreezeBalance (c : UnfreezeBalanceContract)
  | freezeBalanceV2 (c : FreezeBalanceV2Contract)
  | unfreezeBalanceV2 (c : UnfreezeBalanceV2Contract)
  | withdrawExpireUnfreeze (c : WithdrawExpireUnfreezeContract)
  | cancelAllUnfreezeV2 (c : CancelAllUnfreezeV2Contract)
  | delegateResource (c : DelegateResourceContract)
  | undelegateResource (c : UnDelegateResourceContract)
  deriving DecidableEq

/-- A transaction that passes its validator is executed.  What a failed one has written is dropped with the
session it is executed in. -/
def apply (chain : Chain) (s : State) : Tx → Except ActuatorError (State × ExecutionResult)
  | .voteWitness c => do
    validateVoteWitness s c
    (fun s => (s, .default)) <$> executeVoteWitness chain s c
  | .freezeBalance c => do
    validateFreezeBalance chain s c
    executeFreezeBalance chain s c
  | .unfreezeBalance c => do
    validateUnfreezeBalance chain s c
    executeUnfreezeBalance chain s c
  | .freezeBalanceV2 c => do
    validateFreezeBalanceV2 chain s c
    executeFreezeBalanceV2 chain s c
  | .unfreezeBalanceV2 c => do
    validateUnfreezeBalanceV2 chain s c
    executeUnfreezeBalanceV2 chain s c
  | .withdrawExpireUnfreeze c => do
    validateWithdrawExpireUnfreeze chain s c
    executeWithdrawExpireUnfreeze chain s c
  | .cancelAllUnfreezeV2 c => do
    validateCancelAllUnfreezeV2 chain s c
    executeCancelAllUnfreezeV2 chain s c
  | .delegateResource c => do
    validateDelegateResource chain s c
    executeDelegateResource chain s c
  | .undelegateResource c => do
    validateUndelegateResource chain s c
    executeUndelegateResource chain s c

def step (s : State) (a : Chain × Tx) : State :=
  match apply a.1 s a.2 with
  | .ok (s', _) => s'
  | .error _ => s

def Tx.isLegacy : Tx → Bool
  | .freezeBalance _ | .unfreezeBalance _ => true
  | _ => false

/-- The staking transactions of the second form. -/
def Tx.isV2 : Tx → Bool
  | .freezeBalanceV2 _ | .unfreezeBalanceV2 _ | .withdrawExpireUnfreeze _ | .cancelAllUnfreezeV2 _
  | .delegateResource _ | .undelegateResource _ => true
  | _ => false

theorem run_keeps {P : State → Prop} {Q : Tx → Prop}
    (h : ∀ chain s tx s' result, Q tx → P s → apply chain s tx = .ok (s', result) → P s') {s₀ : State} (h₀ : P s₀)
    {acts : List (Chain × Tx)} (hacts : ∀ a ∈ acts, Q a.2) : P (after step s₀ acts) := by
  induction acts using List.reverseRecOn with
  | nil => exact h₀
  | append_singleton acts a ih =>
    have hP := ih fun b hb => hacts b (List.mem_append_left _ hb)
    rw [History.after_concat, step]
    split
    · next s' result happly =>
      exact h a.1 _ a.2 s' result (hacts a (by simp)) hP happly
    · exact hP

/-! ## Two accounts -/

namespace Sample

def owner : Address := ⟨[0x41] ++ List.replicate 20 1, rfl⟩

def receiver : Address := ⟨0x41 :: List.replicate 20 2, rfl⟩

/-- A chain with every option on, at a block time. -/
def chainAt (now : Int) : Chain where
  latestBlockHeaderTimestamp := some now
  allowDelegateResource := some 1
  allowNewResourceModel := some 1
  allowTvmConstantinople := some 1
  allowTvmSolidity059 := some 1
  allowMultiSign := some 1
  allowNewReward := some 1
  unfreezeDelayDays := some 14
  allowCancelAllUnfreezeV2 := some 1
  maxDelegateLockPeriod := some 864000
  changeDelegation := some 1
  newRewardAlgorithmEffectiveCycle := some 0
  consensusLogicOptimization := some 1
  witnessStandbyAllowance := some 0
  outside := ⟨fun _ _ => 0, fun count _ _ => count, fun _ _ _ => 0, fun _ _ _ => 0, []⟩

/-- Nothing is staked yet: the owner has a balance, and the receiver an account. -/
def unstaked (balance : Int) : State where
  accounts := ((∅ : Assoc.Table Address Account).insert receiver .default).insert owner
    { Account.default with balance := balance }
  delegatedResource := ∅
  votes := ∅
  witnesses := ∅
  activeWitnesses := none
  delegation := ⟨∅, ∅, ∅, ∅, ∅, ∅, ∅⟩
  totalWeight := .zero
  totalTronPowerWeight := 0
  currentCycleNumber := 0
  removeThePowerOfTheGr := none

theorem lookup_unstaked {balance : Int} {a : Address} {account : Account}
    (h : (unstaked balance).accounts.lookup a = some account) :
    account = { Account.default with balance := balance } ∨ account = .default := by
  rw [unstaked, Assoc.lookup_insert_eq, Assoc.lookup_insert_eq] at h
  split at h
  · exact Or.inl (Option.some.inj h).symm
  · split at h
    · exact Or.inr (Option.some.inj h).symm
    · cases h

theorem total_unstaked (f : Address → Account → Int) (balance : Int) :
    Assoc.total f (unstaked balance).accounts =
      f owner { Account.default with balance := balance } + (f receiver .default + 0) := rfl

end Sample

end TronGoblin.Stake
