import TronGoblin.Tvm.FrameUndo

/-!
# What a reverted frame leaves behind

* `Logged`: the three logs of a run against its touches, by composition; `Logged.undo` is the revert.
* `run_logged`: a tree of frames.
* `reverted_frames_restore`: whenever a frame ends in revert, the stores are as when it was entered, if the
  logs are enough for what was done in it.
* `reverted_frames_leave_traces`: what is left otherwise.
-/

namespace TronGoblin.Tvm

open List Option PendingTransfer Vm Stores Function Op
open UndoLog (undo putBack undo_append unwindTo_append undo_putBack_update)

variable {env : Env} {s s₁ s₂ x : Stores} {a : Address} {key : String} {C C₁ C₂ : List PendingTransfer}
  {K K₁ K₂ : List (Address × ContractState)} {J J₁ J₂ : List StakingEntry} {T T₁ T₂ : List Touch}

/-! ## Logs and touches -/

/-- The logs of a run from `s` to `s₁` against its touches. -/
structure Logged (s s₁ : Stores) (C : List PendingTransfer) (K : List (Address × ContractState))
    (J : List StakingEntry) (T : List Touch) : Prop where
  others : (∀ key, .delegated key false ∉ T) → (undoStaking J s₁).others = s.others
  contractState : (∀ a, .contractState a false ∉ T) → (undoContractState K s₁).contractState = s.contractState
  restored : ∀ a, SnapshotFirst a T → ∀ x : Stores, (undoStaking J x).accounts a = s.accounts a
  spared : ∀ a, .snapshot a ∉ T → ∀ x : Stores, (undoStaking J x).accounts a = x.accounts a
  row : ∀ a, .snapshot a ∉ T → (∀ key p, .opened a key p ∈ T → p) → RowLogged a C T (s.accounts a) (s₁.accounts a)
  paired : Paired T

section

variable (h : T.filter (Touch.onAccount a) = [])
include h

theorem snapshot_notMem_of_untouched : .snapshot a ∉ T := by
  intro hmem
  have := filter_eq_nil_iff.1 h _ hmem
  simp [Touch.onAccount] at this

theorem token_untouched (key : String) : T.filter (Touch.onToken a key) = [] := by
  rw [filter_eq_nil_iff] at h ⊢
  intro t ht hon
  refine h t ht ?_
  cases t <;> simp_all [Touch.onAccount, Touch.onToken]

end

theorem Logged.eq_of_untouched (h : Logged s s₁ C K J T) (hT : T.filter (Touch.onAccount a) = []) :
    s₁.accounts a = s.accounts a := by
  refine (h.row a (snapshot_notMem_of_untouched hT) ?_).eq_of_untouched (token_untouched hT)
  intro key p hmem
  have := filter_eq_nil_iff.1 hT _ hmem
  simp [Touch.onAccount] at this

theorem Logged.refl : Logged s s [] [] [] [] where
  others _ := rfl
  contractState _ := rfl
  restored a h := by simp [SnapshotFirst] at h
  spared _ _ _ := rfl
  row _ _ _ := RowLogged.refl fun _ => rfl
  paired _ _ := Or.inl rfl

theorem undoContractState_congr (K : List (Address × ContractState)) (h : x.contractState = s.contractState) :
    (undoContractState K x).contractState = (undoContractState K s).contractState := by
  rw [undoContractState_eq, undoContractState_eq, h]

theorem Logged.trans (h₁ : Logged s s₁ C₁ K₁ J₁ T₁) (h₂ : Logged s₁ s₂ C₂ K₂ J₂ T₂) :
    Logged s s₂ (C₂ ++ C₁) (K₂ ++ K₁) (J₂ ++ J₁) (T₁ ++ T₂) where
  others := by
    intro hT
    rw [undoStaking, undo_append]
    have hmid := h₂.others fun key hmem => hT key (mem_append_right _ hmem)
    exact (undoStaking_others J₁ hmid).trans
      (h₁.others fun key hmem => hT key (mem_append_left _ hmem))
  contractState := by
    intro hT
    rw [undoContractState, undo_append]
    have hmid := h₂.contractState fun a hmem => hT a (mem_append_right _ hmem)
    exact (undoContractState_congr K₁ hmid).trans
      (h₁.contractState fun a hmem => hT a (mem_append_left _ hmem))
  restored := by
    intro a hfirst x
    rw [undoStaking, undo_append]
    by_cases hT₁ : T₁.filter (Touch.onAccount a) = []
    · -- nothing happens to the account in the first part
      have hfirst₂ : SnapshotFirst a T₂ := by
        rwa [SnapshotFirst, filter_append, hT₁, nil_append] at hfirst
      exact (h₁.spared a (snapshot_notMem_of_untouched hT₁) _).trans
        ((h₂.restored a hfirst₂ x).trans (h₁.eq_of_untouched hT₁))
    · refine h₁.restored a ?_ _
      unfold SnapshotFirst at hfirst ⊢
      rwa [filter_append, List.head?_append_of_ne_nil _ hT₁] at hfirst
  spared := by
    intro a hT x
    rw [undoStaking, undo_append]
    exact (h₁.spared a (fun hmem => hT (mem_append_left _ hmem)) _).trans
      (h₂.spared a (fun hmem => hT (mem_append_right _ hmem)) x)
  row := by
    intro a hT hintact
    exact (h₁.row a (fun hmem => hT (mem_append_left _ hmem))
      (fun key p hmem => hintact key p (mem_append_left _ hmem))).trans
      (h₂.row a (fun hmem => hT (mem_append_right _ hmem))
        (fun key p hmem => hintact key p (mem_append_right _ hmem))) h₁.paired
  paired := by
    intro a key
    rw [filter_append]
    rcases h₁.paired a key with hnil | ⟨p, y, rest, hcons⟩
    · rw [hnil]
      exact h₂.paired a key
    · rw [hcons]
      exact Or.inr ⟨p, y, _, rfl⟩

/-- **The revert.**  All three logs are unwound, the transfers first. -/
theorem Logged.undo (h : Logged s s₁ C K J T) (hT : Undoable T) :
    undoStaking J (undoContractState K (undoTransfers C s₁)) = s := by
  obtain ⟨htransfers, hcs⟩ := undoTransfers_others C s₁
  have hothers : (undoContractState K (undoTransfers C s₁)).others = s₁.others := by
    rw [undoContractState_eq, ← htransfers]
    rfl
  refine eq_of_parts ?_ ?_ ?_
  · rw [undoStaking_others J hothers]
    exact h.others hT.delegated
  · intro a
    rcases hT.accounts a with hfirst | htokens
    · exact h.restored a hfirst _
    · rw [h.spared a htokens.unsnapped, undoContractState_eq]
      exact (h.row a htokens.unsnapped htokens.intact).undo htokens.notNested
  · rw [undoStaking_contractState, undoContractState_congr K hcs]
    exact h.contractState hT.contractState

/-! ## One write -/

/-- A write that touches no account row. -/
theorem Logged.of_others (haccounts : s₁.accounts = s.accounts) (hcs : s₁.contractState = s.contractState)
    (hJ : ∀ x : Stores, (undoStaking J x).accounts = x.accounts)
    (hundo : (∀ key, .delegated key false ∉ T) → (undoStaking J s₁).others = s.others)
    (hT : ∀ t ∈ T, ∃ key present, t = .delegated key present) : Logged s s₁ [] [] J T := by
  have hnone : ∀ a, T.filter (Touch.onAccount a) = [] := by
    intro a
    rw [filter_eq_nil_iff]
    intro t ht
    obtain ⟨key, present, rfl⟩ := hT t ht
    simp [Touch.onAccount]
  exact {
    others := hundo
    contractState := fun _ => hcs
    restored := by
      intro a hfirst
      rw [SnapshotFirst, hnone a] at hfirst
      cases hfirst
    spared := fun a _ x => by rw [hJ]
    row := by
      intro a _ _
      rw [haccounts]
      exact RowLogged.refl (token_untouched (hnone a))
    paired := fun a key => Or.inl (token_untouched (hnone a) key) }

/-- One entry, for a row of another store or for a weight. -/
theorem Logged.of_entry {e : StakingEntry} (haccounts : s₁.accounts = s.accounts)
    (hcs : s₁.contractState = s.contractState) (he : ∀ x : Stores, (e.reverse x).accounts = x.accounts)
    (hundo : (e.reverse s₁).others = s.others) : Logged s s₁ [] [] [e] [] :=
  Logged.of_others haccounts hcs he (fun _ => hundo) (by simp)

theorem weight_back (weight delta : Int64) : weight + delta + -delta = weight := by
  rw [Int64.add_assoc, Int64.add_right_neg, Int64.add_zero]

/-- A write to an account row that was logged first. -/
theorem Logged.of_snapshot (hfirst : ∀ x : Stores, (undoStaking J x).accounts = putBack (a, s.accounts a) x.accounts)
    (hrest : ∀ b, b ≠ a → s₁.accounts b = s.accounts b) (hcs : s₁.contractState = s.contractState)
    (hothers : (undoStaking J s₁).others = s.others) : Logged s s₁ [] [] J [.snapshot a] where
  others _ := hothers
  contractState _ := hcs
  restored := by
    intro b hb x
    have hba : a = b := by
      by_contra hne
      simp [SnapshotFirst, Touch.onAccount, hne] at hb
    subst hba
    rw [hfirst]
    simp [putBack]
  spared := by
    intro b hb x
    have hba : b ≠ a := by
      rintro rfl
      simp at hb
    rw [hfirst]
    simp [putBack, hba]
  row := by
    intro b hb _
    have hba : b ≠ a := by
      rintro rfl
      simp at hb
    rw [hrest b hba]
    exact RowLogged.refl fun _ => rfl
  paired _ _ := Or.inl rfl

/-- The state with other stores and longer logs. -/
def Vm.extended (vm : Vm) (s : Stores) (C : List PendingTransfer) (K : List (Address × ContractState))
    (J : List StakingEntry) : Vm :=
  { vm with
    stores := s
    committed := C ++ vm.committed
    csJournal := K ++ vm.csJournal
    stakingJournal := J ++ vm.stakingJournal }

theorem Vm.extended_extended (vm : Vm) :
    (vm.extended s₁ C₁ K₁ J₁).extended s₂ C₂ K₂ J₂ = vm.extended s₂ (C₂ ++ C₁) (K₂ ++ K₁) (J₂ ++ J₁) := by
  simp [extended]

theorem putDelegationRow_eq (key : Bytes) (row : Option Bytes) (x : Stores) :
    putDelegationRow key row x = { x with delegation := update x.delegation key (row.or (x.delegation key)) } := by
  cases row <;> simp [putDelegationRow]

theorem putBack_three {K V : Type} [DecidableEq K] (f : K → V) (k₁ k₂ k₃ : K) (v₁ v₂ v₃ : V) :
    putBack (k₁, f k₁) (putBack (k₂, f k₂) (putBack (k₃, f k₃)
      (update (update (update f k₁ v₁) k₂ v₂) k₃ v₃))) = f := by
  funext k
  simp only [putBack, update_apply]
  split_ifs <;> simp_all

variable {vm : Vm}

theorem settleReward_logged (addr : Address) (rows : Settlement) :
    ∃ s₁ J, vm.settleReward env addr rows = vm.extended s₁ [] [] J ∧ Logged vm.stores s₁ [] [] J [.snapshot addr] := by
  suffices h : ∀ y : Stores, y.others = vm.stores.others → y.contractState = vm.stores.contractState →
      (∀ b, b ≠ addr → y.accounts b = vm.stores.accounts b) →
      Logged vm.stores (putDelegationRow (accountVoteKey env.currentCycle addr) rows.accountVote
          (putDelegationRow (endCycleKey addr) rows.endCycle (putDelegationRow (beginCycleKey addr) rows.beginCycle y)))
        [] [] [.delegation (accountVoteKey env.currentCycle addr)
            (vm.stores.delegation (accountVoteKey env.currentCycle addr)),
          .delegation (endCycleKey addr) (vm.stores.delegation (endCycleKey addr)),
          .delegation (beginCycleKey addr) (vm.stores.delegation (beginCycleKey addr)),
          .account addr (vm.stores.accounts addr)] [.snapshot addr] by
    cases hrow : rows.account with
    | none =>
      refine ⟨_, _, ?_, h vm.stores rfl rfl fun _ _ => rfl⟩
      rw [settleReward, hrow]
      rfl
    | some account =>
      refine ⟨_, _, ?_, h (vm.stores.putAccount addr account) rfl rfl fun b hb => ?_⟩
      · rw [settleReward, hrow]
        rfl
      · exact (putAccount_accounts _ _ _).trans (if_neg hb)
  intro y hothers hcs haccounts
  have hdelegation : y.delegation = vm.stores.delegation := by
    change y.others.delegation = vm.stores.others.delegation
    rw [hothers]
  simp only [putDelegationRow_eq]
  refine Logged.of_snapshot (fun _ => rfl) haccounts hcs ?_
  rw [← hothers]
  simp [StakingEntry.reverse, others, hdelegation, putBack_three]

theorem putVotes_logged (addr : Address) (votes : Bytes) :
    ∃ s₁ J, vm.putVotesJournaled addr votes = vm.extended s₁ [] [] J ∧ Logged vm.stores s₁ [] [] J [] := by
  refine ⟨_, [.votes addr (vm.stores.votes addr)], rfl, Logged.of_entry rfl rfl (fun _ => rfl) ?_⟩
  simp [StakingEntry.reverse, others, putBack, snapshotVotes, journal]

theorem putIndexRows_logged (owner receiver : Address) (ownerRow receiverRow : Option Bytes) :
    ∃ s₁ J, vm.putIndexRows owner receiver ownerRow receiverRow = vm.extended s₁ [] [] J ∧
      Logged vm.stores s₁ [] [] J [] := by
  refine ⟨_, [.delegatedResourceIndex (v2FromKey owner receiver)
    (vm.stores.resourceIndex (v2FromKey owner receiver)) (v2ToKey owner receiver)
    (vm.stores.resourceIndex (v2ToKey owner receiver))], rfl,
    Logged.of_entry rfl rfl (fun _ => rfl) ?_⟩
  have hrows : putBack (v2ToKey owner receiver, vm.stores.resourceIndex (v2ToKey owner receiver))
      (putBack (v2FromKey owner receiver, vm.stores.resourceIndex (v2FromKey owner receiver))
        (update (update vm.stores.resourceIndex (v2FromKey owner receiver) ownerRow)
          (v2ToKey owner receiver) receiverRow)) = vm.stores.resourceIndex := by
    funext k
    simp only [putBack, update_apply]
    split_ifs <;> simp_all
  simp [StakingEntry.reverse, others, journalIndexRows, journal, hrows]

theorem weight_logged {e : StakingEntry} (delta : Int64) (h : Logged vm.stores s₁ [] [] [e] []) :
    ∃ s₂ J, (if delta = 0 then vm else vm.extended s₁ [] [] [e]) = vm.extended s₂ [] [] J ∧
      Logged vm.stores s₂ [] [] J [] := by
  split
  · exact ⟨vm.stores, [], rfl, Logged.refl⟩
  · exact ⟨s₁, [e], rfl, h⟩

theorem write_logged (w : BridgeWrite) :
    ∃ s₁ J, vm.write env w = vm.extended s₁ [] [] J ∧ Logged vm.stores s₁ [] [] J (w.touches vm) := by
  cases w with
  | putAccount addr account =>
    refine ⟨_, [.account addr (vm.stores.accounts addr)], rfl, Logged.of_snapshot ?_ ?_ rfl rfl⟩
    · exact fun x => rfl
    · intro b hb
      exact (putAccount_accounts _ _ _).trans (if_neg hb)
  | settleReward addr rows => exact settleReward_logged addr rows
  | putVotes addr votes => exact putVotes_logged addr votes
  | trimVotes addr votes =>
    cases votes with
    | some votes => exact putVotes_logged addr votes
    | none =>
      refine ⟨_, [.votes addr (vm.stores.votes addr)], rfl, Logged.of_entry rfl rfl (fun _ => rfl) ?_⟩
      simp [StakingEntry.reverse, others, putBack]
  | putDelegated key record =>
    refine ⟨_, [.delegatedResource key (vm.stores.delegatedResource key)], rfl,
      Logged.of_others rfl rfl (fun _ => rfl) ?_ ?_⟩
    on_goal 2 =>
      intro t ht
      exact ⟨key, _, mem_singleton.1 ht⟩
    intro hpresent
    have hsome : (vm.stores.delegatedResource key).isSome := by
      by_contra habsent
      rw [Bool.not_eq_true] at habsent
      refine hpresent key ?_
      rw [BridgeWrite.touches, habsent]
      exact mem_singleton.2 rfl
    obtain ⟨row, hrow⟩ := isSome_iff_exists.1 hsome
    have hback : putBack (key, some ((vm.stores.delegatedResource key).getD []))
        (update vm.stores.delegatedResource key (some record)) =
          vm.stores.delegatedResource := by
      rw [hrow, getD_some, ← hrow]
      exact UndoLog.putBack_update _ _ _
    simp [StakingEntry.reverse, others, journal, hback]
  | delegateIndex owner receiver ownerRow receiverRow =>
    exact putIndexRows_logged owner receiver (some ownerRow) (some receiverRow)
  | undelegateIndex owner receiver => exact putIndexRows_logged owner receiver none none
  | addNetWeight delta =>
    exact weight_logged (e := .netWeight delta) delta (.of_entry rfl rfl (fun _ => rfl) (by
      simp [StakingEntry.reverse, others, journal, weight_back]))
  | addEnergyWeight delta =>
    exact weight_logged (e := .energyWeight delta) delta (.of_entry rfl rfl (fun _ => rfl) (by
      simp [StakingEntry.reverse, others, journal, weight_back]))
  | addTronPowerWeight delta =>
    exact weight_logged (e := .tronPowerWeight delta) delta (.of_entry rfl rfl (fun _ => rfl) (by
      simp [StakingEntry.reverse, others, journal, weight_back]))

/-! ## The frame's own transfer -/

/-- A transfer as the `call` hook makes it. -/
structure Transfers (env : Env) (inputs : CallInputs) (s : Stores) (t : PendingTransfer) : Prop where
  caller : t.callerAddr = inputs.caller
  target : t.targetAddr = inputs.targetAddress
  distinct : inputs.caller ≠ inputs.targetAddress
  callerPre : t.callerPre = (callerAccount env inputs s).assetV2 t.tokenIdKey
  targetPre : t.targetPre = (targetAccount env inputs s).assetV2 t.tokenIdKey

theorem Transfers.ne {inputs : CallInputs} {t : PendingTransfer} (h : Transfers env inputs s t) :
    t.callerAddr ≠ t.targetAddr := by
  rw [h.caller, h.target]
  exact h.distinct

theorem callStart_transfers {inputs : CallInputs} {t : PendingTransfer}
    (h : callStart env vm inputs = .run (some t)) : Transfers env inputs vm.stores t := by
  unfold callStart at h
  dsimp only at h
  split at h
  · cases h
  split at h
  · cases h
  rename_i hvalue
  split at h
  · cases h
  split at h
  · cases h
  cases h
  exact ⟨rfl, rfl, fun heq => hvalue (Or.inr heq), rfl, rfl⟩

variable {inputs : CallInputs} {t : PendingTransfer}

theorem applyTransfer_rest (hcaller : a ≠ t.callerAddr) (htarget : a ≠ t.targetAddr) :
    (applyTransfer env inputs t s).accounts a = s.accounts a := by
  rw [applyTransfer, putAccount_accounts, if_neg htarget, putAccount_accounts, if_neg hcaller]

/-- A transfer changes the one token of a row that is intact, and has noted what was there. -/
theorem Transfers.row (h : Transfers env inputs s t) (ha : a = t.callerAddr ∨ a = t.targetAddr)
    (hintact : Intact env (s.accounts a)) :
    ∃ account v, s.accounts a = some account ∧
      (applyTransfer env inputs t s).accounts a = some (account.setAsset t.tokenIdKey v) ∧
      t.pre a t.tokenIdKey = some (account.assetV2 t.tokenIdKey) := by
  obtain ⟨account, hrow, himport⟩ := hintact
  have hdistinct := h.ne
  rcases ha with rfl | rfl
  · have hread : callerAccount env inputs s = account := by
      rw [callerAccount, ← h.caller, hrow, getD_some, himport]
    refine ⟨account, some (t.callerPre.getD 0 - inputs.tronTokenValue), hrow, ?_, ?_⟩
    · rw [applyTransfer, putAccount_accounts, if_neg hdistinct, putAccount_accounts, if_pos rfl, hread]
    · rw [pre, if_pos rfl, if_neg hdistinct.symm, if_pos rfl, h.callerPre, hread]
  · have hread : targetAccount env inputs s = account := by
      rw [targetAccount, ← h.target, hrow, getD_some, himport]
    refine ⟨account, some (min (t.targetPre.getD 0 + inputs.tronTokenValue) I64_MAX), hrow, ?_, ?_⟩
    · rw [applyTransfer, putAccount_accounts, if_pos rfl, hread]
    · rw [pre, if_pos rfl, if_pos rfl, h.targetPre, hread]

theorem PendingTransfer.pre_of_key (hkey : key ≠ t.tokenIdKey) : t.pre a key = none :=
  if_neg (Ne.symm hkey)

theorem PendingTransfer.pre_of_rest (hcaller : a ≠ t.callerAddr) (htarget : a ≠ t.targetAddr) : t.pre a key = none := by
  simp [pre, hcaller.symm, htarget.symm]

/-- The touches of a token inside a frame, with the frame's own transfer around them. -/
theorem around_onToken (hdistinct : t.callerAddr ≠ t.targetAddr) (ha : a = t.callerAddr ∨ a = t.targetAddr) :
    (t.opens env s ++ T ++ t.closes).filter (Touch.onToken a t.tokenIdKey) =
      .opened a t.tokenIdKey (Intact env (s.accounts a)) ::
        (T.filter (Touch.onToken a t.tokenIdKey) ++ [.closed a t.tokenIdKey]) := by
  rcases ha with rfl | rfl
  · simp [opens, closes, Touch.onToken, hdistinct.symm]
  · simp [opens, closes, Touch.onToken, hdistinct]

theorem around_onToken_rest (h : key ≠ t.tokenIdKey ∨ a ≠ t.callerAddr ∧ a ≠ t.targetAddr) :
    (t.opens env s ++ T ++ t.closes).filter (Touch.onToken a key) = T.filter (Touch.onToken a key) := by
  rcases h with hkey | ⟨hcaller, htarget⟩
  · simp [opens, closes, Touch.onToken, hkey.symm]
  · simp [opens, closes, Touch.onToken, hcaller.symm, htarget.symm]

/-- The row of an account of the transfer. -/
theorem RowLogged.around (ht : Transfers env inputs s t) (hpaired : Paired T)
    (ha : a = t.callerAddr ∨ a = t.targetAddr) (hintact : Intact env (s.accounts a))
    (h : RowLogged a C T ((applyTransfer env inputs t s).accounts a) (s₁.accounts a)) :
    RowLogged a (t :: C) (t.opens env s ++ T ++ t.closes) (s.accounts a) (s₁.accounts a) := by
  obtain ⟨account, v, hrow, hpost, hpre⟩ := ht.row ha hintact
  have hdistinct := ht.ne
  have hasset : ∀ k, k ≠ t.tokenIdKey →
      assetOf ((applyTransfer env inputs t s).accounts a) k = assetOf (s.accounts a) k := by
    intro k hk
    simp [hpost, hrow, assetOf, Account.setAsset, hk]
  refine ⟨?_, ?_, ?_, ?_⟩
  · rw [h.shape, hpost, hrow]
    rfl
  · intro k hk
    by_cases hkey : k = t.tokenIdKey
    · subst hkey
      rw [around_onToken hdistinct ha] at hk
      cases hk
    · rw [around_onToken_rest (Or.inl hkey)] at hk
      obtain ⟨heq, hold⟩ := h.untouched k hk
      rw [oldestPre, hold, pre_of_key hkey]
      exact ⟨heq.trans (hasset k hkey), rfl⟩
  · intro k hk hnested
    by_cases hkey : k = t.tokenIdKey
    · subst hkey
      rw [around_onToken hdistinct ha] at hnested
      rcases hpaired a t.tokenIdKey with hnil | ⟨p, y, rest, hcons⟩
      · -- no other transfer of the token inside: the own one decides
        rw [oldestPre, (h.untouched _ hnil).2, hpre, hrow]
        rfl
      · rw [hcons] at hnested
        exact absurd hnested id
    · rw [around_onToken_rest (Or.inl hkey)] at hk hnested
      rw [oldestPre, h.touched k hk hnested, hasset k hkey]
      rfl
  · intro hnone
    rw [hrow] at hnone
    cases hnone

theorem Logged.around (ht : Transfers env inputs s t) (h : Logged (applyTransfer env inputs t s) s₁ C K J T) :
    Logged s s₁ (t :: C) K J (t.opens env s ++ T ++ t.closes) := by
  have hmem : ∀ y ∈ T, y ∈ t.opens env s ++ T ++ t.closes := fun y hy => by simp [hy]
  have hdistinct := ht.ne
  refine ⟨?_, ?_, ?_, ?_, ?_, ?_⟩
  · intro hT
    exact h.others fun key hy => hT key (hmem _ hy)
  · intro hT
    exact h.contractState fun a hy => hT a (hmem _ hy)
  · intro a hfirst x
    -- the own transfer comes first, so it is of other accounts
    have hrest : a ≠ t.callerAddr ∧ a ≠ t.targetAddr := by
      constructor <;> rintro rfl <;>
        simp [SnapshotFirst, opens, closes, Touch.onAccount, filter_cons] at hfirst
      split at hfirst <;> simp at hfirst
    have hinner : SnapshotFirst a T := by
      simpa [SnapshotFirst, opens, closes, Touch.onAccount, hrest.1.symm, hrest.2.symm] using hfirst
    rw [h.restored a hinner x, applyTransfer_rest hrest.1 hrest.2]
  · intro a hT x
    exact h.spared a (fun hy => hT (hmem _ hy)) x
  · intro a hT hintact
    have hinner := h.row a (fun hy => hT (hmem _ hy)) fun key p hy => hintact key p (hmem _ hy)
    by_cases ha : a = t.callerAddr ∨ a = t.targetAddr
    · refine hinner.around ht h.paired ha ?_
      apply hintact t.tokenIdKey
      rcases ha with rfl | rfl <;> simp [opens]
    · have hrest : a ≠ t.callerAddr ∧ a ≠ t.targetAddr := not_or.1 ha
      rw [applyTransfer_rest hrest.1 hrest.2] at hinner
      refine ⟨hinner.shape, ?_, ?_, ?_⟩
      · intro k hk
        rw [around_onToken_rest (Or.inr hrest)] at hk
        rw [oldestPre, pre_of_rest hrest.1 hrest.2, or_none]
        exact hinner.untouched k hk
      · intro k hk hnested
        rw [around_onToken_rest (Or.inr hrest)] at hk hnested
        rw [oldestPre, pre_of_rest hrest.1 hrest.2, or_none]
        exact hinner.touched k hk hnested
      · intro hnone k
        rw [around_onToken_rest (Or.inr hrest)]
        exact hinner.absent hnone k
  · intro a key
    by_cases hown : key = t.tokenIdKey ∧ (a = t.callerAddr ∨ a = t.targetAddr)
    · obtain ⟨rfl, ha⟩ := hown
      rw [around_onToken hdistinct ha]
      cases T.filter (Touch.onToken a t.tokenIdKey) with
      | nil => exact Or.inr ⟨_, _, _, rfl⟩
      | cons y rest => exact Or.inr ⟨_, y, _, rfl⟩
    · rw [around_onToken_rest]
      · exact h.paired a key
      · rw [not_and_or, not_or] at hown
        exact hown

/-! ## Frames -/

/-- Inside a frame that was entered at `vm`: longer logs, and the frame's markers on the stacks. -/
def Vm.opened (vm : Vm) (pending : List (Option PendingTransfer)) (interp : Option Address) (s : Stores)
    (C : List PendingTransfer) (K : List (Address × ContractState)) (J : List StakingEntry) : Vm :=
  { stores := s
    stakingJournal := J ++ vm.stakingJournal
    pending := pending
    committed := C ++ vm.committed
    committedStarts := vm.committed.length :: vm.committedStarts
    csJournal := K ++ vm.csJournal
    csJournalStarts := vm.csJournal.length :: vm.csJournalStarts
    stakingStarts := vm.stakingJournal.length :: vm.stakingStarts
    dynEnergyFrames := interp.toList ++ vm.dynEnergyFrames
    interpMarkers := interp.isSome :: vm.interpMarkers
    depth := vm.depth + 1 }

theorem Vm.opened_extended (vm : Vm) (pending : List (Option PendingTransfer)) (interp : Option Address) :
    (vm.opened pending interp s₁ C₁ K₁ J₁).extended s₂ C₂ K₂ J₂ =
      vm.opened pending interp s₂ (C₂ ++ C₁) (K₂ ++ K₁) (J₂ ++ J₁) := by
  simp [opened, extended]

/-- The stores when the frame's energy is recorded. -/
def recorded (result : FrameResult) (interp : Option Address) (s : Stores) : Stores :=
  match interp with
  | some target =>
    if result.isHalt then s
    else if 0 < result.baseSpent then addEnergyUsage target result.baseSpent s
    else s
  | none => s

theorem recorded_parts (result : FrameResult) (interp : Option Address) (s : Stores) :
    (recorded result interp s).others = s.others ∧ (recorded result interp s).accounts = s.accounts := by
  unfold recorded
  split
  · split_ifs <;> exact ⟨rfl, rfl⟩
  · exact ⟨rfl, rfl⟩

variable {result : FrameResult} {interp : Option Address} {vm' : Vm}

theorem popMarker_eq {markers : List Bool} {frames : List Address}
    (hmarkers : vm'.interpMarkers = interp.isSome :: markers)
    (hframes : vm'.dynEnergyFrames = interp.toList ++ frames) :
    vm'.popMarker result = { vm' with
      interpMarkers := markers
      dynEnergyFrames := frames
      stores := recorded result interp vm'.stores } := by
  cases interp with
  | none =>
    simp only [isSome_none] at hmarkers
    simp only [toList_none, nil_append] at hframes
    simp [popMarker, hmarkers, recorded, ← hframes]
  | some target =>
    simp only [popMarker, hmarkers, recordFrameEnergy, hframes, recorded]
    split_ifs <;> rfl

/-- What a frame adds to the log of transfers: its own one when it has ended. -/
def ownLog (own : Option PendingTransfer) (C : List PendingTransfer) : List PendingTransfer :=
  own.toList ++ C

/-- After a frame that was entered at `vm`: longer logs, or what was logged is undone. -/
def Vm.ended (vm : Vm) (result : FrameResult) (s : Stores) (C : List PendingTransfer)
    (K : List (Address × ContractState)) (J : List StakingEntry) : Vm :=
  if result.isOk then vm.extended s C K J
  else { vm with stores := undoStaking J (undoContractState K (undoTransfers C s)) }

theorem callEnd_eq (own : Option PendingTransfer) : (vm.opened (own :: vm.pending) interp s C K J).callEnd result =
    vm.ended result (recorded result interp s) (ownLog own C) K J := by
  rw [callEnd, popMarker_eq rfl rfl]
  cases hok : result.isOk <;> cases own <;>
    simp [ended, closeFrame, opened, popPending, unwindCommitted, restoreCsJournalIfReverted,
      unwindStakingJournalIfReverted, hok, extended, ownLog, unwindTo_append]

theorem recorded_undoTransfers (C : List PendingTransfer) (s : Stores) :
    recorded result interp (undoTransfers C s) = undoTransfers C (recorded result interp s) := by
  induction C generalizing s with
  | nil => rfl
  | cons t C ih =>
    have hone : recorded result interp (unwindTransfer t s) = unwindTransfer t (recorded result interp s) := by
      unfold recorded
      split
      · split_ifs <;> rfl
      · rfl
    change recorded result interp (undoTransfers C (unwindTransfer t s)) =
      undoTransfers C (unwindTransfer t (recorded result interp s))
    rw [← hone]
    exact ih _

theorem createEnd_eq : (vm.opened vm.pending interp s C K J).createEnd result =
    vm.ended result (recorded result interp s) C K J := by
  have hcommitted : (vm.opened vm.pending interp s C K J).closeFrame.unwindCommitted result =
      { (vm.opened vm.pending interp s C K J).closeFrame with
        committedStarts := vm.committedStarts
        committed := if result.isOk then C ++ vm.committed else vm.committed
        stores := if result.isOk then s else undoTransfers C s } := by
    cases hok : result.isOk <;> simp [unwindCommitted, closeFrame, opened, hok, unwindTo_append]
  rw [createEnd, hcommitted, popMarker_eq rfl rfl]
  cases hok : result.isOk <;>
    simp [ended, closeFrame, opened, restoreCsJournalIfReverted, unwindStakingJournalIfReverted, hok, extended,
      unwindTo_append, recorded_undoTransfers]

/-! ### The two ends of a frame -/

def FrameKind.pending (own : Option PendingTransfer) (vm : Vm) : FrameKind → List (Option PendingTransfer)
  | .call _ => own :: vm.pending
  | .create => vm.pending

variable {kind : FrameKind} {own : Option PendingTransfer}

section

variable (h : kind.start env vm = .run own)
include h

/-- Entering a frame makes its transfer, and logs nothing. -/
theorem enter_run :
    ∃ s₀, kind.enter env vm = vm.opened (kind.pending own vm) none s₀ [] [] [] ∧
      ∀ {s₁ C K J T}, Logged s₀ s₁ C K J T → Logged vm.stores s₁ (ownLog own C) K J (around env vm.stores own T) := by
  cases kind with
  | create =>
    cases h
    exact ⟨vm.stores, rfl, fun hlog => hlog⟩
  | call inputs =>
    have hstart : callStart env vm inputs = .run own := h
    cases own with
    | none =>
      refine ⟨vm.stores, ?_, fun hlog => hlog⟩
      rw [FrameKind.enter, hstart]
      rfl
    | some t =>
      refine ⟨applyTransfer env inputs t vm.stores, ?_, fun hlog => hlog.around (callStart_transfers hstart)⟩
      rw [FrameKind.enter, hstart]
      rfl

theorem leave_eq : kind.leave result (vm.opened (kind.pending own vm) interp s C K J) =
    vm.ended result (recorded result interp s) (ownLog own C) K J := by
  cases kind with
  | create =>
    cases h
    exact createEnd_eq
  | call inputs => exact callEnd_eq own

end

theorem leave_refused (h : kind.start env vm = .fail) : kind.leave refused (kind.enter env vm) = vm := by
  cases kind with
  | create => cases h
  | call inputs =>
    have hstart : callStart env vm inputs = .fail := h
    have henter : FrameKind.enter env vm (.call inputs) = vm.opened (none :: vm.pending) none vm.stores [] [] [] := by
      rw [FrameKind.enter, hstart]
      rfl
    rw [henter]
    exact callEnd_eq none

/-! ### The interpreter -/

theorem Logged.of_contractState (target : Address) {f : Address → Option ContractState}
    (hf : ∀ b, b ≠ target → f b = s.contractState b) :
    Logged s { s with contractState := f } [] [(target, (s.contractState target).getD default)] []
      [.contractState target (s.contractState target).isSome] where
  others _ := rfl
  contractState := by
    intro hpresent
    have hsome : (s.contractState target).isSome := by
      by_contra habsent
      rw [Bool.not_eq_true] at habsent
      exact hpresent target (by rw [habsent]; exact mem_singleton.2 rfl)
    obtain ⟨row, hrow⟩ := isSome_iff_exists.1 hsome
    funext b
    rw [undoContractState_eq]
    by_cases hb : b = target
    · subst hb
      simp [putBack, hrow]
    · simp [putBack, hb, hf b hb]
  restored a hfirst := by simp [SnapshotFirst, Touch.onAccount] at hfirst
  spared _ _ _ := rfl
  row _ _ _ := RowLogged.refl fun _ => rfl
  paired _ _ := Or.inl rfl

theorem interp_logged (pending : List (Option PendingTransfer)) (target : Address) :
    ∃ interp s₁ K, (vm.opened pending none s [] [] []).initializeInterp env target =
        vm.opened pending interp s₁ [] K [] ∧
      (∀ t ∈ interp, t ∈ K.map Prod.fst) ∧
      Logged s s₁ [] K [] (interpTouches env (vm.opened pending none s [] [] []) target) := by
  unfold initializeInterp interpTouches
  split
  · refine ⟨some target, _, [(target, (s.contractState target).getD default)], rfl, by simp, ?_⟩
    split
    · exact Logged.of_contractState target fun b hb => update_of_ne hb _ _
    · exact Logged.of_contractState target fun _ _ => rfl
  · exact ⟨none, s, [], rfl, by simp, Logged.refl⟩

/-- The energy of the frame goes to a row that was logged. -/
theorem Logged.recorded (h : Logged s s₁ C K J T) (hinterp : ∀ t ∈ interp, t ∈ K.map Prod.fst) :
    Logged s (recorded result interp s₁) C K J T := by
  obtain ⟨hothers, haccounts⟩ := recorded_parts result interp s₁
  have hcs : (undoContractState K (Tvm.recorded result interp s₁)).contractState =
      (undoContractState K s₁).contractState := by
    unfold Tvm.recorded
    split
    · rename_i target
      have hlogged : target ∈ (K.map fun e => (e.1, some e.2)).map Prod.fst := by
        simpa using hinterp target rfl
      split_ifs
      · rfl
      · rw [undoContractState_eq, undoContractState_eq]
        exact undo_putBack_update hlogged _ _
      · rfl
    · rfl
  refine { h with others := ?_, contractState := ?_, row := ?_ }
  · intro hT
    rw [undoStaking_others J hothers]
    exact h.others hT
  · intro hT
    rw [hcs]
    exact h.contractState hT
  · intro a hT hintact
    rw [haccounts]
    exact h.row a hT hintact

/-! ## Trees of frames -/

/-- A run that has extended the logs, against its touches. -/
def RunLogged (vm vm' : Vm) (T : List Touch) : Prop :=
  ∃ s C K J, vm' = vm.extended s C K J ∧ Logged vm.stores s C K J T

theorem RunLogged.refl : RunLogged vm vm [] := ⟨vm.stores, [], [], [], rfl, Logged.refl⟩

theorem RunLogged.trans {vm₁ vm₂ : Vm} (h₁ : RunLogged vm vm₁ T₁) (h₂ : RunLogged vm₁ vm₂ T₂) :
    RunLogged vm vm₂ (T₁ ++ T₂) := by
  obtain ⟨s₁, C₁, K₁, J₁, rfl, hlog₁⟩ := h₁
  obtain ⟨s₂, C₂, K₂, J₂, rfl, hlog₂⟩ := h₂
  exact ⟨s₂, C₂ ++ C₁, K₂ ++ K₁, J₂ ++ J₁, vm.extended_extended, hlog₁.trans hlog₂⟩

/-- The state inside a frame, against the touches of the frame. -/
def FrameLogged (kind : FrameKind) (own : Option PendingTransfer) (result : FrameResult) (vm vm' : Vm)
    (T : List Touch) : Prop :=
  ∃ interp s C K J, vm' = vm.opened (kind.pending own vm) interp s C K J ∧
    Logged vm.stores (recorded result interp s) (ownLog own C) K J T

section

variable (hstart : kind.start env vm = .run own)
include hstart

theorem enter_logged : FrameLogged kind own result vm (kind.enter env vm) (around env vm.stores own []) := by
  obtain ⟨s₀, henter, haround⟩ := enter_run hstart
  exact ⟨none, s₀, [], [], [], henter, haround Logged.refl⟩

theorem body_logged (target : Address) (hbody : RunLogged ((kind.enter env vm).initializeInterp env target) vm' T) :
    FrameLogged kind own result vm vm'
      (around env vm.stores own (interpTouches env (kind.enter env vm) target ++ T)) := by
  obtain ⟨s₀, henter, haround⟩ := enter_run hstart
  rw [henter] at hbody ⊢
  obtain ⟨interp, s₁, K₁, hinit, hin, hlog₁⟩ := interp_logged (kind.pending own vm) target
  rw [hinit] at hbody
  obtain ⟨s₂, C, K₂, J, rfl, hlog₂⟩ := hbody
  refine ⟨interp, s₂, C ++ [], K₂ ++ K₁, J ++ [], vm.opened_extended _ _, ?_⟩
  refine haround ((hlog₁.trans hlog₂).recorded ?_)
  intro t ht
  rw [map_append]
  exact mem_append_right _ (hin t ht)

end

theorem FrameLogged.leave (h : FrameLogged kind own result vm vm' T) (hstart : kind.start env vm = .run own)
    (hT : result.isOk = false → Undoable T) :
    RunLogged vm (kind.leave result vm') (if result.isOk then T else []) ∧
      (result.isOk = false → (kind.leave result vm').stores = vm.stores) := by
  obtain ⟨interp, s, C, K, J, rfl, hlog⟩ := h
  rw [leave_eq hstart, ended]
  cases hok : result.isOk with
  | true => exact ⟨⟨_, _, _, _, rfl, hlog⟩, Bool.noConfusion⟩
  | false =>
    rw [hlog.undo (hT hok)]
    exact ⟨RunLogged.refl, fun _ => rfl⟩

/-- A frame that has run, with what is done inside. -/
theorem FrameLogged.ends {op : Op} (h : FrameLogged kind own result vm vm' (op.inside env vm))
    (hstart : kind.start env vm = .run own) (hreverts : op.reverts env vm = !result.isOk)
    (hrun : op.run env vm = kind.leave result vm') (hundo : RevertUndoable env vm op) :
    RunLogged vm (op.run env vm) (op.kept env vm) ∧ RevertRestores env vm op := by
  have hleave := h.leave hstart fun hok => hundo (by rw [hreverts, hok]; rfl)
  rw [RevertRestores, kept, hreverts, hrun]
  cases hok : result.isOk with
  | true =>
    rw [hok] at hleave
    exact ⟨hleave.1, fun h => nomatch h⟩
  | false =>
    rw [hok] at hleave
    exact ⟨hleave.1, fun _ => hleave.2 rfl⟩

mutual

/-- **Frames.**  The logs follow every tree, and every frame that ends in revert is undone. -/
theorem run_logged (op : Op) (vm : Vm) (h : op.EveryFrame env (RevertUndoable env) vm) :
    RunLogged vm (op.run env vm) (op.kept env vm) ∧ op.EveryFrame env (RevertRestores env) vm := by
  cases op with
  | bridge w =>
    obtain ⟨s₁, J, hrun, hlog⟩ := write_logged w
    exact ⟨⟨s₁, [], [], J, hrun, hlog⟩, trivial⟩
  | frame kind interp body result =>
    obtain ⟨hundo, hbody⟩ := h
    cases hstart : kind.start env vm with
    | fail =>
      have hrun : (frame kind interp body result).run env vm = vm := by
        simp only [run, hstart]
        exact leave_refused hstart
      have hkept : (frame kind interp body result).kept env vm = [] := by
        simp [kept, reverts, hstart]
      rw [hrun, hkept]
      refine ⟨RunLogged.refl, ?_, ?_⟩
      · intro _
        rw [hrun]
      · simp [hstart]
    | run own =>
      have hreverts : (frame kind interp body result).reverts env vm = !result.isOk := by
        simp [reverts, hstart]
      cases interp with
      | none =>
        have hinside : (frame kind none body result).inside env vm = around env vm.stores own [] := by
          simp [inside, hstart]
        have hrun : (frame kind none body result).run env vm = kind.leave result (kind.enter env vm) := by
          simp [run, hstart]
        obtain ⟨hlog, hrestores⟩ :=
          (hinside ▸ enter_logged hstart).ends hstart hreverts hrun hundo
        exact ⟨hlog, hrestores, by simp⟩
      | some target =>
        rw [hstart] at hbody
        obtain ⟨hlog, hall⟩ := runAll_logged body _ hbody
        have hinside : (frame kind (some target) body result).inside env vm =
            around env vm.stores own (interpTouches env (kind.enter env vm) target ++
              keptAll env ((kind.enter env vm).initializeInterp env target) body) := by
          simp [inside, hstart]
        have hrun : (frame kind (some target) body result).run env vm = kind.leave result
            (runAll env ((kind.enter env vm).initializeInterp env target) body) := by
          simp [run, hstart]
        obtain ⟨hlog, hrestores⟩ :=
          (hinside ▸ body_logged hstart target hlog).ends hstart hreverts hrun hundo
        refine ⟨hlog, hrestores, ?_⟩
        rw [hstart]
        exact hall

theorem runAll_logged (ops : List Op) (vm : Vm) (h : EveryFrameAll env (RevertUndoable env) vm ops) :
    RunLogged vm (runAll env vm ops) (keptAll env vm ops) ∧ EveryFrameAll env (RevertRestores env) vm ops := by
  cases ops with
  | nil => exact ⟨RunLogged.refl, trivial⟩
  | cons op ops =>
    obtain ⟨hop, hops⟩ := h
    obtain ⟨hlog, hevery⟩ := run_logged op vm hop
    obtain ⟨hlogs, hall⟩ := runAll_logged ops _ hops
    exact ⟨hlog.trans hlogs, hevery, hall⟩

end

/-! ## What is left -/

def sampleAddress (n : UInt8) : Address := ⟨List.replicate 21 n, rfl⟩

/-- Nothing is imported, and a missing contract state is created. -/
def sampleEnv : Env where
  assetRows := fun _ _ => none
  createdFields := fun _ => []
  isActivePrecompile := fun _ => false
  dynamicEnergy := true
  caughtUp := fun prior => (prior.getD ⟨0, 0, 7⟩, prior.isNone)
  currentCycle := 7

def sampleRow (n : UInt8) (tokens : Option Int) : Account :=
  ⟨(sampleAddress n).1, fun key => if key = "1000001" then tokens else none, false, []⟩

/-- Accounts 1, 2 and 3; the first has tokens, the first two have a contract state. -/
def sampleVm : Vm where
  stores :=
    { accounts := fun a =>
        if a = sampleAddress 1 then some (sampleRow 1 (some 10))
        else if a = sampleAddress 2 then some (sampleRow 2 none)
        else if a = sampleAddress 3 then some (sampleRow 3 none)
        else none
      votes := fun _ => none
      delegatedResource := fun _ => none
      resourceIndex := fun _ => none
      delegation := fun _ => none
      contractState := fun a =>
        if a = sampleAddress 1 ∨ a = sampleAddress 2 then some ⟨5, 0, 7⟩ else none
      totalNetWeight := 100
      totalEnergyWeight := 100
      totalTronPowerWeight := 100 }
  stakingJournal := []
  pending := []
  committed := []
  committedStarts := []
  csJournal := []
  csJournalStarts := []
  stakingStarts := []
  dynEnergyFrames := []
  interpMarkers := []
  depth := 0

def sampleOk : FrameResult := ⟨true, false, 3⟩

def sampleRevert : FrameResult := ⟨false, false, 3⟩

/-- A call with tokens. -/
def sampleCall (caller target : UInt8) (value : Nat) (body : List Op) (result : FrameResult) : Op :=
  .frame (.call ⟨sampleAddress caller, sampleAddress target, 1000001, value⟩) (some (sampleAddress target))
    body result

/-- A transaction that calls contract 1 and succeeds. -/
def sampleTx (body : List Op) : Op := sampleCall 9 1 0 body sampleOk

def tokensOf (s : Stores) (n : UInt8) : Option Int := assetOf (s.accounts (sampleAddress n)) "1000001"

/-- **A reverted frame leaves no trace**, if the logs are enough for every frame that ends in revert. -/
theorem reverted_frames_restore (env : Env) (vm : Vm) (op : Op)
    (h : op.EveryFrame env (RevertUndoable env) vm) : op.EveryFrame env (RevertRestores env) vm :=
  (run_logged op vm h).2

/-- A transfer to contract 2, which votes, stakes for another account and reverts. -/
def sampleUndone : Op :=
  sampleCall 1 2 4 [.bridge (.putVotes (sampleAddress 2) [1]), .bridge (.addNetWeight 5),
    .bridge (.putAccount (sampleAddress 3) { sampleRow 3 none with others := [1] })] sampleRevert

theorem reverted_frames_restore_sample :
    tokensOf sampleVm.stores 2 = none ∧ RevertRestores sampleEnv sampleVm sampleUndone := by
  refine ⟨by decide +kernel, (reverted_frames_restore sampleEnv sampleVm sampleUndone ?_).1⟩
  refine ⟨fun _ => ?_, trivial, trivial, trivial, trivial⟩
  have hinside : sampleUndone.inside sampleEnv sampleVm =
      [.opened (sampleAddress 1) "1000001" (Intact sampleEnv (some (sampleRow 1 (some 10)))),
        .opened (sampleAddress 2) "1000001" (Intact sampleEnv (some (sampleRow 2 none))),
        .contractState (sampleAddress 2) true, .snapshot (sampleAddress 3),
        .closed (sampleAddress 1) "1000001", .closed (sampleAddress 2) "1000001"] := rfl
  have hne : sampleAddress 1 ≠ sampleAddress 2 ∧ sampleAddress 1 ≠ sampleAddress 3 ∧
      sampleAddress 2 ≠ sampleAddress 3 := by decide
  change Undoable (sampleUndone.inside sampleEnv sampleVm)
  rw [hinside]
  refine ⟨?_, by simp, by simp⟩
  intro a
  by_cases ha : sampleAddress 3 = a
  · subst ha
    exact Or.inl (by simp [SnapshotFirst, Touch.onAccount, hne.2.1, hne.2.2])
  · refine Or.inr ⟨by simp [Ne.symm ha], ?_, ?_⟩
    · intro key p hmem
      simp only [mem_cons, Touch.opened.injEq, reduceCtorEq, not_mem_nil, or_false] at hmem
      rcases hmem with ⟨-, -, rfl⟩ | ⟨-, -, rfl⟩
      · exact ⟨_, rfl, rfl⟩
      · exact ⟨_, rfl, rfl⟩
    · intro key
      by_cases h₁ : sampleAddress 1 = a
      · subst h₁
        by_cases hkey : "1000001" = key <;> simp [Touch.onToken, hne.1.symm, hkey, NotNested]
      · by_cases h₂ : sampleAddress 2 = a <;> by_cases hkey : "1000001" = key <;>
          simp [Touch.onToken, h₁, h₂, hkey, NotNested]

/-- Frames that end in revert and leave something behind: a transfer inside another one, a stake after a
transfer, a transfer to a new account, a contract without a state, a new delegation. -/
theorem reverted_frames_leave_traces :
    tokensOf sampleVm.stores 2 = none ∧
      tokensOf ((sampleTx [sampleCall 1 2 10 [sampleCall 2 3 4 [] sampleOk] sampleRevert]).run
        sampleEnv sampleVm).stores 2 = some 10 ∧
      tokensOf ((sampleTx [sampleCall 1 2 10 [.bridge (.putAccount (sampleAddress 2)
        { sampleRow 2 (some 10) with others := [1] })] sampleRevert]).run
        sampleEnv sampleVm).stores 2 = some 10 ∧
      (sampleVm.stores.accounts (sampleAddress 4)).isNone ∧
      (((sampleTx [sampleCall 1 4 10 [] sampleRevert]).run sampleEnv sampleVm).stores.accounts
        (sampleAddress 4)).isSome ∧
      sampleVm.stores.contractState (sampleAddress 3) = none ∧
      ((sampleTx [sampleCall 1 3 0 [] sampleRevert]).run sampleEnv sampleVm).stores.contractState
        (sampleAddress 3) = some ⟨0, 0, 0⟩ ∧
      sampleVm.stores.delegatedResource [1] = none ∧
      ((sampleTx [sampleCall 1 2 0 [.bridge (.putDelegated [1] [2])] sampleRevert]).run
        sampleEnv sampleVm).stores.delegatedResource [1] = some [] := by
  decide +kernel

end TronGoblin.Tvm
