import TronGoblin.Consensus.VoteTally

/-!
# The vote index

What a voter is paid is bounded by the growth of the index of each witness it has voted for, times its votes; what
the index of a witness grows by in a cycle, times the witness's count, is bounded by the reward of the cycle.

* `weighed`, `Delegation.growth`: votes times the growth of the index, without rounding.
* `State.due`: what an account is due, up to the cycle that runs.
* `owed_le`: a payment is at most what is due.
* `grown_le`: what the index grows by.
* `accumulated_readVi`: the index after the pass that brings it up to date.
-/

namespace TronGoblin.Stake

open Assoc Checked List Delegation State

/-! ## Votes, weighed -/

/-- The sum of the votes of a list, each times the value of its witness. -/
def weighed (votes : List Vote) (f : Address → Int) : Int :=
  (votes.map fun v => v.witness.elim 0 fun w => f w * v.voteCount).sum

@[simp] theorem weighed_nil (f : Address → Int) : weighed [] f = 0 := rfl

theorem weighed_cons (v : Vote) (votes : List Vote) (f : Address → Int) :
    weighed (v :: votes) f = (v.witness.elim 0 fun w => f w * v.voteCount) + weighed votes f := sum_cons

theorem weighed_add (votes : List Vote) (f g : Address → Int) :
    weighed votes (fun w => f w + g w) = weighed votes f + weighed votes g := by
  induction votes with
  | nil => rfl
  | cons v votes ih =>
    rw [weighed_cons, weighed_cons, weighed_cons, ih]
    cases v.witness with
    | none => simp
    | some w =>
      simp only [Option.elim_some, Int.add_mul]
      omega

variable {f : Address → Int}

theorem weighed_eq_zero (h : ∀ w, f w = 0) (votes : List Vote) : weighed votes f = 0 := by
  induction votes with
  | nil => rfl
  | cons v votes ih =>
    rw [weighed_cons, ih]
    cases v.witness <;> simp [h]

def NonnegVotes (votes : List Vote) : Prop := ∀ v ∈ votes, 0 ≤ v.voteCount

theorem weighed_nonneg {votes : List Vote} (hvotes : NonnegVotes votes) (hf : ∀ w, 0 ≤ f w) : 0 ≤ weighed votes f := by
  induction votes with
  | nil => exact le_refl 0
  | cons v votes ih =>
    have hhead : 0 ≤ v.witness.elim 0 fun w => f w * v.voteCount := by
      cases v.witness with
      | none => exact le_refl 0
      | some w => exact Int.mul_nonneg (hf w) (hvotes v mem_cons_self)
    have htail := ih fun u hu => hvotes u (mem_cons_of_mem v hu)
    rw [weighed_cons]
    omega

theorem votesFor_nonneg {votes : List Vote} (hvotes : NonnegVotes votes) (w : Address) : 0 ≤ votesFor votes w := by
  induction votes with
  | nil => exact le_refl 0
  | cons v votes ih =>
    have hhead := hvotes v mem_cons_self
    have htail := ih fun u hu => hvotes u (mem_cons_of_mem v hu)
    rw [votesFor_cons]
    split <;> omega

theorem weighed_eq_total (votes : List Vote) {witnesses : Table Address Witness}
    (h : ∀ w, witnesses.lookup w = none → f w = 0) :
    weighed votes f = Assoc.total (fun w _ => f w * votesFor votes w) witnesses := by
  induction votes with
  | nil => simp [total_zero]
  | cons v votes ih =>
    have hhead : Assoc.total (fun w _ => f w * if v.witness = some w then v.voteCount else 0) witnesses =
        v.witness.elim 0 fun w => f w * v.voteCount := by
      cases hv : v.witness with
      | none => simp [total_zero]
      | some x =>
        have hsingle := total_single (fun w _ => f w * v.voteCount) witnesses x
        have hterm : ∀ w, (f w * if some x = some w then v.voteCount else 0) =
            if w = x then f w * v.voteCount else 0 := by
          intro w
          by_cases hw : w = x
          · simp [hw]
          · simp [hw, Ne.symm hw]
        simp only [hterm, hsingle, Option.elim_some]
        cases hx : witnesses.lookup x with
        | none => simp [h x hx]
        | some _ => rfl
    simp only [weighed_cons, votesFor_cons, Int.mul_add, total_add, hhead, ih]

/-! ## What a voter is paid -/

/-- What the index of a witness grows by from one cycle to another. -/
def Delegation.growth (d : Delegation) (beginCycle endCycle : Int) (w : Address) : Int :=
  d.readVi w (endCycle - 1) - d.readVi w (beginCycle - 1)

theorem growth_self (d : Delegation) (cycle : Int) (w : Address) : d.growth cycle cycle w = 0 := Int.sub_self _

theorem satI128_le {n : Int} (h : 0 ≤ n) : 0 ≤ satI128 n ∧ satI128 n ≤ n := by
  rw [satI128]
  omega

theorem decimal_pos : 0 < REWARD_VI_DECIMAL := by decide

section Paid

variable {d : Delegation} {beginCycle endCycle : Int} {votes : List Vote}

theorem voteReward_le {v : Vote} (hv : 0 ≤ v.voteCount) (hgrowth : ∀ w, 0 ≤ d.growth beginCycle endCycle w) :
    0 ≤ voteReward d beginCycle endCycle v ∧ REWARD_VI_DECIMAL * voteReward d beginCycle endCycle v ≤
        v.witness.elim 0 fun w => d.growth beginCycle endCycle w * v.voteCount := by
  unfold voteReward
  cases v.witness with
  | none => simp
  | some w =>
    have hprod : 0 ≤ d.growth beginCycle endCycle w * v.voteCount := Int.mul_nonneg (hgrowth w) hv
    dsimp only
    split
    · simpa using hprod
    · obtain ⟨hpos, hle⟩ := satI128_le hprod
      have hdiv : 0 ≤ (satI128 (d.growth beginCycle endCycle w * v.voteCount)).tdiv REWARD_VI_DECIMAL :=
        Int.tdiv_nonneg hpos (Int.le_of_lt decimal_pos)
      obtain ⟨hsat, hsatle⟩ := satI64_le hdiv
      refine ⟨hsat, ?_⟩
      calc REWARD_VI_DECIMAL * satI64 _
          ≤ REWARD_VI_DECIMAL * _ := Int.mul_le_mul_of_nonneg_left hsatle (Int.le_of_lt decimal_pos)
        _ ≤ satI128 (d.growth beginCycle endCycle w * v.voteCount) := by
            rw [Int.tdiv_eq_ediv_of_nonneg hpos]
            exact Int.mul_ediv_self_le (Int.ne_of_gt decimal_pos)
        _ ≤ _ := hle

theorem viWindowReward_le (hvotes : NonnegVotes votes) (hgrowth : ∀ w, 0 ≤ d.growth beginCycle endCycle w) :
    0 ≤ viWindowReward d beginCycle endCycle votes ∧
      REWARD_VI_DECIMAL * viWindowReward d beginCycle endCycle votes ≤ weighed votes (d.growth beginCycle endCycle) := by
  suffices hfold : ∀ acc : Int, 0 ≤ acc →
      let r := votes.foldl (fun reward vote => satI64 (reward + voteReward d beginCycle endCycle vote)) acc
      0 ≤ r ∧ REWARD_VI_DECIMAL * r ≤ REWARD_VI_DECIMAL * acc + weighed votes (d.growth beginCycle endCycle) by
    simpa [viWindowReward] using hfold 0 (le_refl 0)
  induction votes with
  | nil => intro acc hacc; simpa using hacc
  | cons v votes ih =>
    intro acc hacc
    obtain ⟨hpos, hle⟩ := voteReward_le (hvotes v mem_cons_self) hgrowth
    obtain ⟨hsat, hsatle⟩ := satI64_le (Int.add_nonneg hacc hpos)
    obtain ⟨hrest, hrestle⟩ := ih (fun u hu => hvotes u (mem_cons_of_mem v hu)) _ hsat
    have hmul := Int.mul_le_mul_of_nonneg_left hsatle (Int.le_of_lt decimal_pos)
    rw [Int.mul_add] at hmul
    rw [weighed_cons, foldl_cons]
    exact ⟨hrest, by omega⟩

/-- The vote index is in use from the first cycle, and voters are rewarded. -/
structure Rewarding (seeds : List (Address × Int)) (chain : Chain) : Prop where
  changeDelegation : chain.changeDelegation = some 1
  newAlgorithm : chain.newRewardAlgorithmEffectiveCycle = some 0
  genesisWitnesses : chain.outside.genesisWitnesses = seeds

variable {seeds : List (Address × Int)} {chain : Chain}

theorem computeRewardWindow_le (hchain : Rewarding seeds chain) (hbegin : 0 ≤ beginCycle)
    (hvotes : NonnegVotes votes) (hgrowth : ∀ w, 0 ≤ d.growth beginCycle endCycle w) :
    0 ≤ computeRewardWindow chain d beginCycle endCycle votes ∧
      REWARD_VI_DECIMAL * computeRewardWindow chain d beginCycle endCycle votes ≤
        weighed votes (d.growth beginCycle endCycle) := by
  unfold computeRewardWindow
  rw [hchain.newAlgorithm]
  split
  · simpa using weighed_nonneg hvotes hgrowth
  · next hlt =>
    have hnot : ¬ beginCycle < (some (0 : Int)).getD 0x7fffffffffffffff := not_lt.2 hbegin
    dsimp only
    rw [if_neg hnot]
    rw [if_pos (by omega)]
    obtain ⟨hpos, hwindow⟩ := viWindowReward_le hvotes hgrowth
    obtain ⟨hsat, hsatle⟩ := satI64_le hpos
    rw [Int.zero_add]
    refine ⟨hsat, le_trans ?_ hwindow⟩
    exact Int.mul_le_mul_of_nonneg_left hsatle (Int.le_of_lt decimal_pos)

end Paid

/-! ## Settlement -/

namespace State

variable (s : State) (a : Address)

/-- The account was paid in the cycle that runs. -/
def SettledUp : Prop :=
  s.currentCycleNumber < s.delegation.getBeginCycle a ∨
    s.delegation.getBeginCycle a = s.currentCycleNumber ∧ (s.delegation.getAccountVote a s.currentCycleNumber).isSome

instance : Decidable (s.SettledUp a) := inferInstanceAs (Decidable (_ ∨ _))

/-- What `withdraw_reward` pays an account that was not paid in the cycle. -/
def owed (chain : Chain) (votes : List Vote) : Int :=
  let (paid, beginCycle) := catchUp chain s a
  if votes.isEmpty then paid
  else if beginCycle < s.currentCycleNumber then
    satI64 (paid + computeRewardWindow chain s.delegation beginCycle s.currentCycleNumber votes)
  else paid

/-- The marks after it. -/
def marked (votes : List Vote) : Delegation :=
  if votes.isEmpty then s.delegation.setBeginCycle a (s.currentCycleNumber + 1)
  else
    ((s.delegation.setBeginCycle a s.currentCycleNumber).setEndCycle a (s.currentCycleNumber + 1)).setAccountVote a
      s.currentCycleNumber votes

/-- What an account with these votes is due, without rounding and scaled as the index is.  The votes of the
recorded cycle count for that cycle alone. -/
def due (votes : List Vote) : Int :=
  let d := s.delegation
  let beginCycle := d.getBeginCycle a
  let cycle := s.currentCycleNumber
  if cycle < beginCycle then 0
  else if beginCycle + 1 = d.getEndCycle a ∧ beginCycle < cycle then
    ((d.getAccountVote a beginCycle).elim 0 fun recorded => weighed recorded (d.growth beginCycle (beginCycle + 1))) +
      weighed votes (d.growth (beginCycle + 1) cycle)
  else weighed votes (d.growth beginCycle cycle)

end State

section Settlement

variable {chain : Chain} {s : State} {a : Address} {votes : List Vote}

theorem withdrawReward_eq {account : Account} (hlook : s.accounts.lookup a = some account) :
    withdrawReward chain s a = if s.SettledUp a then (s, 0)
      else
        ({ s.payAllowance a account (s.owed a chain account.votes) with delegation := s.marked a account.votes },
          s.owed a chain account.votes) := by
  by_cases h : s.SettledUp a
  · rw [if_pos h]
    unfold withdrawReward
    rw [hlook]
    dsimp only
    rcases h with hlater | hnow
    · rw [if_pos hlater]
    · rw [if_neg (by omega), if_pos hnow]
  · obtain ⟨hlater, hnow⟩ := not_or.1 h
    unfold withdrawReward owed marked
    rw [hlook]
    dsimp only
    rw [if_neg hlater, if_neg hnow]
    split
    · unfold payAllowance
      split <;> rfl
    · rfl

theorem due_of_settledUp (h : s.SettledUp a) : s.due a votes = 0 := by
  unfold due
  dsimp only
  rcases h with hlater | ⟨hnow, -⟩
  · rw [if_pos hlater]
  · rw [hnow, if_neg (lt_irrefl _), if_neg (fun h => lt_irrefl _ h.2)]
    exact weighed_eq_zero (growth_self _ _) votes

/-- The index of a witness does not fall over the cycles that are over. -/
def State.Rising (s : State) : Prop :=
  ∀ w b e, b ≤ e → e ≤ s.currentCycleNumber → 0 ≤ s.delegation.growth b e w

theorem owed_le {seeds : List (Address × Int)} (hchain : Rewarding seeds chain) (hrising : s.Rising)
    (hbegin : 0 ≤ s.delegation.getBeginCycle a) (hsettled : ¬ s.SettledUp a)
    (hrecorded : ∀ cycle recorded, s.delegation.getAccountVote a cycle = some recorded → NonnegVotes recorded)
    (hvotes : NonnegVotes votes) :
    0 ≤ s.owed a chain votes ∧ REWARD_VI_DECIMAL * s.owed a chain votes ≤ s.due a votes := by
  have hle : s.delegation.getBeginCycle a ≤ s.currentCycleNumber := not_lt.1 fun h => hsettled (.inl h)
  -- the cycle of the recorded votes, and the cycle to go on from
  obtain ⟨first, next, hcatch, hfirst, hnext, hnextle, hdue⟩ : ∃ first next, catchUp chain s a = (first, next) ∧
      0 ≤ first ∧ 0 ≤ next ∧ next ≤ s.currentCycleNumber ∧
        REWARD_VI_DECIMAL * first + weighed votes (s.delegation.growth next s.currentCycleNumber) ≤ s.due a votes := by
    unfold catchUp due
    dsimp only
    rw [if_neg (not_lt.2 hle)]
    split
    · next hmark =>
      cases hlook : s.delegation.getAccountVote a (s.delegation.getBeginCycle a) with
      | none => exact ⟨0, _, rfl, le_refl 0, by omega, by omega, by simp⟩
      | some recorded =>
        have hgrowth := fun w => hrising w (s.delegation.getBeginCycle a) (s.delegation.getBeginCycle a + 1) (by omega)
          (by omega)
        obtain ⟨hpos, hwindow⟩ := computeRewardWindow_le hchain hbegin (hrecorded _ recorded hlook) hgrowth
        obtain ⟨hsat, hsatle⟩ := satI64_le hpos
        have hmul := Int.mul_le_mul_of_nonneg_left hsatle (Int.le_of_lt decimal_pos)
        refine ⟨_, _, rfl, ?_, by omega, by omega, ?_⟩
        · rw [← hmark.1, Int.zero_add]
          exact hsat
        · rw [← hmark.1, Int.zero_add]
          simp only [Option.elim_some]
          omega
    · exact ⟨0, _, rfl, le_refl 0, hbegin, hle, by simp⟩
  have hgrowth := fun w => hrising w next s.currentCycleNumber hnextle (le_refl _)
  have hrest := weighed_nonneg hvotes hgrowth
  unfold owed
  rw [hcatch]
  dsimp only
  split_ifs
  · exact ⟨hfirst, by omega⟩
  · obtain ⟨hpos, hwindow⟩ := computeRewardWindow_le hchain hnext hvotes hgrowth
    obtain ⟨hsat, hsatle⟩ := satI64_le (Int.add_nonneg hfirst hpos)
    have hmul := Int.mul_le_mul_of_nonneg_left hsatle (Int.le_of_lt decimal_pos)
    rw [Int.mul_add] at hmul
    exact ⟨hsat, by omega⟩
  · exact ⟨hfirst, by omega⟩

/-! ### The marks -/

variable (b : Address)

theorem marked_getBeginCycle :
    (s.marked a votes).getBeginCycle b =
      if b = a then if votes.isEmpty then s.currentCycleNumber + 1 else s.currentCycleNumber
      else s.delegation.getBeginCycle b := by
  unfold marked getBeginCycle
  split
  · rw [setBeginCycle, lookup_insert_eq]
    split <;> rfl
  · rw [setAccountVote, setEndCycle, setBeginCycle, lookup_insert_eq]
    split <;> rfl

theorem marked_getEndCycle :
    (s.marked a votes).getEndCycle b =
      if b = a ∧ ¬ votes.isEmpty then s.currentCycleNumber + 1 else s.delegation.getEndCycle b := by
  unfold marked getEndCycle
  split
  · next h => simp [h, setBeginCycle]
  · next h =>
    rw [setAccountVote, setEndCycle, lookup_insert_eq]
    by_cases hb : b = a
    · simp [hb, h]
    · simp [hb, setBeginCycle]

theorem marked_getAccountVote (cycle : Int) :
    (s.marked a votes).getAccountVote b cycle =
      if b = a ∧ cycle = s.currentCycleNumber ∧ ¬ votes.isEmpty then some votes else s.delegation.getAccountVote b cycle := by
  unfold marked getAccountVote
  split
  · next h => simp [h, setBeginCycle]
  · next h =>
    rw [setAccountVote, lookup_insert_eq]
    by_cases hb : b = a
    · by_cases hcycle : cycle = s.currentCycleNumber
      · simp [hb, hcycle, h]
      · simp [hcycle, setEndCycle, setBeginCycle]
    · simp [hb, setEndCycle, setBeginCycle]

theorem settledUp_marked {t : State} (hcycle : t.currentCycleNumber = s.currentCycleNumber)
    (hmarks : t.delegation = s.marked a votes) : t.SettledUp a := by
  unfold SettledUp
  rw [hcycle, hmarks, marked_getBeginCycle, marked_getAccountVote, if_pos rfl]
  by_cases hempty : votes.isEmpty
  · left
    rw [if_pos hempty]
    omega
  · right
    simp [hempty]

theorem marked_frame (s : State) (a : Address) (votes : List Vote) :
    (s.marked a votes).reward = s.delegation.reward ∧ (s.marked a votes).witnessVi = s.delegation.witnessVi := by
  unfold marked
  split <;> exact ⟨rfl, rfl⟩

end Settlement

/-! ## The growth of the index -/

def Delegation.grown (d : Delegation) (cycle : Int) (w : Address) (count : Int) : Int :=
  if d.getReward w cycle = 0 ∨ count = 0 then d.readVi w (cycle - 1)
  else satI128 (d.readVi w (cycle - 1) + (satI128 (d.getReward w cycle * REWARD_VI_DECIMAL)).tdiv count)

theorem grown_le {d : Delegation} {cycle : Int} {w : Address} {count : Int}
    (hpre : 0 ≤ d.readVi w (cycle - 1)) (hmax : d.readVi w (cycle - 1) ≤ 0x7fffffffffffffffffffffffffffffff)
    (hreward : 0 ≤ d.getReward w cycle) (hcount : 0 ≤ count) :
    d.readVi w (cycle - 1) ≤ d.grown cycle w count ∧ d.grown cycle w count ≤ 0x7fffffffffffffffffffffffffffffff ∧
      (d.grown cycle w count - d.readVi w (cycle - 1)) * count ≤ REWARD_VI_DECIMAL * d.getReward w cycle := by
  have hscaled : 0 ≤ d.getReward w cycle * REWARD_VI_DECIMAL := Int.mul_nonneg hreward (Int.le_of_lt decimal_pos)
  unfold grown
  split
  · rw [Int.sub_self, Int.zero_mul, Int.mul_comm]
    exact ⟨le_refl _, hmax, hscaled⟩
  · next hnot =>
    obtain ⟨hpos, hle⟩ := satI128_le hscaled
    have hdelta := Int.tdiv_nonneg hpos hcount
    have hmul : (satI128 (d.getReward w cycle * REWARD_VI_DECIMAL)).tdiv count * count ≤
        d.getReward w cycle * REWARD_VI_DECIMAL := by
      rw [Int.tdiv_eq_ediv_of_nonneg hpos]
      exact Int.le_trans (Int.ediv_mul_le _ fun h => hnot (.inr h)) hle
    generalize (satI128 (d.getReward w cycle * REWARD_VI_DECIMAL)).tdiv count = delta at hdelta hmul
    have hbounds : d.readVi w (cycle - 1) ≤ satI128 (d.readVi w (cycle - 1) + delta) ∧
        satI128 (d.readVi w (cycle - 1) + delta) ≤ 0x7fffffffffffffffffffffffffffffff ∧
          satI128 (d.readVi w (cycle - 1) + delta) - d.readVi w (cycle - 1) ≤ delta := by
      rw [satI128]
      omega
    refine ⟨hbounds.1, hbounds.2.1, ?_⟩
    rw [Int.mul_comm REWARD_VI_DECIMAL]
    exact Int.le_trans (Int.mul_le_mul_of_nonneg_right hbounds.2.2 hcount) hmul

section Accumulate

variable {d : Delegation} {cycle : Int}

theorem setWitnessVi_readVi (w x : Address) (vi c : Int) :
    (d.setWitnessVi w cycle vi).readVi x c = if c = cycle ∧ x = w then vi else d.readVi x c := by
  unfold readVi setWitnessVi
  rw [lookup_insert_eq]
  by_cases h : c = cycle ∧ x = w
  · simp [h]
  · have hkey : (c, x) ≠ (cycle, w) := fun he => h ⟨congrArg Prod.fst he, congrArg Prod.snd he⟩
    simp [h, hkey]

theorem accumulateWitnessVi_readVi {w : Address} (hnone : d.witnessVi.lookup (cycle, w) = none) (count : Int) (x : Address)
    (c : Int) :
    (accumulateWitnessVi d cycle w count).readVi x c =
      if c = cycle ∧ x = w then d.grown cycle w count else d.readVi x c := by
  unfold accumulateWitnessVi grown
  dsimp only
  split
  · split
    · exact setWitnessVi_readVi w x _ c
    · next hzero =>
      by_cases h : c = cycle ∧ x = w
      · have hread : d.readVi w cycle = 0 := by
          rw [readVi, hnone]
          rfl
        rw [if_pos h, h.1, h.2, hread]
        exact (Decidable.not_not.1 hzero).symm
      · rw [if_neg h]
  · exact setWitnessVi_readVi w x _ c

theorem accumulateWitnessVi_frame (d : Delegation) (cycle : Int) (w : Address) (count : Int) :
    ∃ vi, accumulateWitnessVi d cycle w count = { d with witnessVi := vi } ∧
      ∀ c x, ¬ (c = cycle ∧ x = w) → vi.lookup (c, x) = d.witnessVi.lookup (c, x) := by
  have hset : ∀ vi, ∃ table, d.setWitnessVi w cycle vi = { d with witnessVi := table } ∧
      ∀ c x, ¬ (c = cycle ∧ x = w) → table.lookup (c, x) = d.witnessVi.lookup (c, x) := by
    intro vi
    refine ⟨_, rfl, fun c x hne => ?_⟩
    rw [lookup_insert_eq, if_neg fun he => hne ⟨congrArg Prod.fst he, congrArg Prod.snd he⟩]
  unfold accumulateWitnessVi
  dsimp only
  split
  · split
    · exact hset _
    · exact ⟨d.witnessVi, rfl, fun _ _ _ => rfl⟩
  · exact hset _

def accumulated (d : Delegation) (cycle : Int) (l : List (Address × Witness)) : Delegation :=
  l.foldl (fun d e => accumulateWitnessVi d cycle e.1 e.2.voteCount) d

theorem accumulated_frame (d : Delegation) (cycle : Int) (l : List (Address × Witness)) :
    ∃ vi, accumulated d cycle l = { d with witnessVi := vi } ∧
      ∀ c x, c ≠ cycle → vi.lookup (c, x) = d.witnessVi.lookup (c, x) := by
  induction l generalizing d with
  | nil => exact ⟨d.witnessVi, rfl, fun _ _ _ => rfl⟩
  | cons e l ih =>
    obtain ⟨vi, heq, hsame⟩ := accumulateWitnessVi_frame d cycle e.1 e.2.voteCount
    obtain ⟨vi', heq', hsame'⟩ := ih (accumulateWitnessVi d cycle e.1 e.2.voteCount)
    refine ⟨vi', heq'.trans (by rw [heq]), fun c x hne => (hsame' c x hne).trans ?_⟩
    rw [heq]
    exact hsame c x fun h => hne h.1

theorem accumulated_readVi {l : List (Address × Witness)} (hl : (l.map Prod.fst).Nodup)
    (hnone : ∀ w, d.witnessVi.lookup (cycle, w) = none) (x : Address) (c : Int) :
    (accumulated d cycle l).readVi x c =
      if c = cycle then (l.lookup x).elim 0 fun witness => d.grown cycle x witness.voteCount else d.readVi x c := by
  -- witnesses are independent of each other
  suffices h : ∀ (l : List (Address × Witness)) (d : Delegation), (l.map Prod.fst).Nodup →
      (∀ e ∈ l, d.witnessVi.lookup (cycle, e.1) = none) → (accumulated d cycle l).readVi x cycle =
          (l.lookup x).elim (d.readVi x cycle) fun witness => d.grown cycle x witness.voteCount by
    split
    · next hc =>
      rw [hc, h l d hl fun e _ => hnone e.1, readVi, hnone]
      rfl
    · next hc =>
      obtain ⟨vi, heq, hsame⟩ := accumulated_frame d cycle l
      rw [heq, readVi, hsame c x hc, readVi]
  intro l
  induction l with
  | nil => exact fun _ _ _ => rfl
  | cons e l ih =>
    intro d hl hnone
    obtain ⟨hfresh, hl⟩ := nodup_cons.1 hl
    obtain ⟨vi, heq, hsame⟩ := accumulateWitnessVi_frame d cycle e.1 e.2.voteCount
    have hrest : ∀ e' ∈ l, (accumulateWitnessVi d cycle e.1 e.2.voteCount).witnessVi.lookup (cycle, e'.1) = none := by
      intro e' he'
      rw [heq]
      refine (hsame cycle e'.1 fun h => hfresh ?_).trans (hnone e' (mem_cons_of_mem e he'))
      exact h.2 ▸ mem_map_of_mem he'
    have hhere := accumulateWitnessVi_readVi (hnone e mem_cons_self) e.2.voteCount
    have hgrown : ∀ count, (accumulateWitnessVi d cycle e.1 e.2.voteCount).grown cycle x count = d.grown cycle x count := by
      intro count
      have hpre : (accumulateWitnessVi d cycle e.1 e.2.voteCount).readVi x (cycle - 1) = d.readVi x (cycle - 1) := by
        rw [hhere, if_neg fun h => by omega]
      have hpool : (accumulateWitnessVi d cycle e.1 e.2.voteCount).getReward x cycle = d.getReward x cycle := by
        rw [heq]
        rfl
      rw [grown, hpre, hpool, grown]
    have htail := ih (accumulateWitnessVi d cycle e.1 e.2.voteCount) hl hrest
    refine htail.trans ?_
    simp only [hgrown, hhere]
    by_cases hx : x = e.1
    · have hlookup : l.lookup e.1 = none := by
        rw [lookup_eq_none_iff]
        intro p hp
        rw [bne_iff_ne]
        intro heq
        exact hfresh (heq ▸ mem_map_of_mem hp)
      subst hx
      rw [lookup_cons, hlookup]
      simp
    · have hbeq : (x == e.1) = false := beq_eq_false_iff_ne.2 hx
      rw [lookup_cons, hbeq]
      simp [hx]

/-! ### Scanning -/

variable (witnesses : Table Address Witness)

theorem scanned_perm :
    (scanned witnesses).Perm (witnesses.entries.map fun e => (e.1, e.2)) := perm_insertionSort _ _

theorem scanned_nodup : ((scanned witnesses).map Prod.fst).Nodup := by
  refine ((scanned_perm witnesses).map Prod.fst).nodup_iff.2 ?_
  rw [map_map]
  exact witnesses.keys_nodup

theorem lookup_of_mem {l : List (Address × Witness)} (hl : (l.map Prod.fst).Nodup) {x : Address} {w : Witness}
    (h : (x, w) ∈ l) : l.lookup x = some w := by
  induction l with
  | nil => cases h
  | cons e l ih =>
    obtain ⟨hfresh, hl⟩ := nodup_cons.1 hl
    rw [lookup_cons]
    rcases mem_cons.1 h with rfl | hmem
    · simp
    · have hne : x ≠ e.1 := fun he => hfresh (he ▸ mem_map_of_mem hmem)
      rw [beq_eq_false_iff_ne.2 hne]
      exact ih hl hmem

theorem lookup_scanned (x : Address) : (scanned witnesses).lookup x = witnesses.lookup x := by
  have hmem : ∀ w, (x, w) ∈ scanned witnesses ↔ witnesses.lookup x = some w := by
    intro w
    rw [(scanned_perm witnesses).mem_iff, ← Option.mem_def, AList.mem_lookup_iff, mem_map]
    constructor
    · rintro ⟨⟨_, _⟩, he, heq⟩
      cases heq
      exact he
    · exact fun he => ⟨⟨x, w⟩, he, rfl⟩
  cases hlook : witnesses.lookup x with
  | some w => exact lookup_of_mem (scanned_nodup witnesses) ((hmem w).2 hlook)
  | none =>
    rw [lookup_eq_none_iff]
    intro e he
    rw [bne_iff_ne]
    rintro rfl
    cases hlook.symm.trans ((hmem e.2).1 he)

end Accumulate

end TronGoblin.Stake
