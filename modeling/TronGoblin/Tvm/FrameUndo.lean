import TronGoblin.Tvm.Frames

/-!
# What the logs of a frame undo

* `Touch`, `Op.inside`: what is done inside a frame and not undone by a frame below it: token transfers
  with their beginning and end, snapshots of account rows, delegated-resource and contract-state rows.
* `Undoable`: when the three logs bring everything back: an account is restored from its first snapshot
  if no transfer came before, and else transfer by transfer, the ones that ended first last.
* `undoTransfers_some`: the transfers of an account, undone.
* `RowLogged`: the transfers of a run against its touches, for the row of one account.
-/

namespace TronGoblin.Tvm

open List Account
open UndoLog (undo putBack undo_append unwindTo_append undo_putBack_update)

/-! ## Touches -/

inductive Touch where
  /-- A transfer of a token to or from the account begins, and the frame of the callee with it. -/
  | opened (a : Address) (key : String) (intact : Prop)
  /-- That frame has ended. -/
  | closed (a : Address) (key : String)
  | snapshot (a : Address)
  | delegated (key : Bytes) (present : Bool)
  | contractState (a : Address) (present : Bool)

open Touch

def Touch.onAccount (a : Address) : Touch → Bool
  | .opened b _ _ => b = a
  | .closed b _ => b = a
  | .snapshot b => b = a
  | .delegated _ _ => false
  | .contractState _ _ => false

def Touch.onToken (a : Address) (key : String) : Touch → Bool
  | .opened b k _ => b = a ∧ k = key
  | .closed b k => b = a ∧ k = key
  | .snapshot _ => false
  | .delegated _ _ => false
  | .contractState _ _ => false

variable (env : Env)

/-- The row is there and has all its assets inline. -/
def Intact (row : Option Account) : Prop :=
  ∃ account, row = some account ∧ account.importAllAsset env = account

def PendingTransfer.opens (s : Stores) (t : PendingTransfer) : List Touch :=
  [.opened t.callerAddr t.tokenIdKey (Intact env (s.accounts t.callerAddr)),
    .opened t.targetAddr t.tokenIdKey (Intact env (s.accounts t.targetAddr))]

variable (t : PendingTransfer)

def PendingTransfer.closes : List Touch :=
  [.closed t.callerAddr t.tokenIdKey, .closed t.targetAddr t.tokenIdKey]

/-- What is done in a frame, with its own transfer around it. -/
def around (s : Stores) (own : Option PendingTransfer) (touches : List Touch) : List Touch :=
  match own with
  | some t => t.opens env s ++ touches ++ t.closes
  | none => touches

variable (vm : Vm)

def BridgeWrite.touches : BridgeWrite → List Touch
  | .putAccount addr _ => [.snapshot addr]
  | .settleReward addr _ => [.snapshot addr]
  | .putDelegated key _ => [.delegated key (vm.stores.delegatedResource key).isSome]
  | _ => []

def interpTouches (target : Address) : List Touch :=
  if env.dynamicEnergy then [.contractState target (vm.stores.contractState target).isSome] else []

def Op.reverts : Op → Bool
  | .bridge _ => false
  | .frame kind _ _ result =>
    match kind.start env vm with
    | .fail => true
    | .run _ => !result.isOk

mutual

/-- What an operation does, frames that end in revert left out. -/
def Op.inside (env : Env) (vm : Vm) : Op → List Touch
  | .bridge w => w.touches vm
  | .frame kind interp body _ =>
    match kind.start env vm, interp with
    | .fail, _ => []
    | .run own, none => around env vm.stores own []
    | .run own, some target =>
      around env vm.stores own (interpTouches env (kind.enter env vm) target ++
        Op.keptAll env ((kind.enter env vm).initializeInterp env target) body)

def Op.keptAll (env : Env) (vm : Vm) : List Op → List Touch
  | [] => []
  | op :: ops => (if op.reverts env vm then [] else op.inside env vm) ++ Op.keptAll env (op.run env vm) ops

end

def Op.kept (op : Op) : List Touch :=
  if op.reverts env vm then [] else op.inside env vm

/-! ## When the logs are enough -/

/-- The first that happens to the account is a snapshot. -/
def SnapshotFirst (a : Address) (touches : List Touch) : Prop :=
  (touches.filter (onAccount a)).head? = some (.snapshot a)

/-- The first transfer has ended before the next one begins. -/
def NotNested : List Touch → Prop
  | .opened _ _ _ :: .opened _ _ _ :: _ => False
  | _ => True

/-- No snapshot, and each token is restored by its first transfer. -/
structure TokenwiseUndoable (a : Address) (touches : List Touch) : Prop where
  unsnapped : .snapshot a ∉ touches
  intact : ∀ key p, .opened a key p ∈ touches → p
  notNested : ∀ key, NotNested (touches.filter (onToken a key))

structure Undoable (touches : List Touch) : Prop where
  accounts : ∀ a, SnapshotFirst a touches ∨ TokenwiseUndoable a touches
  delegated : ∀ key, .delegated key false ∉ touches
  contractState : ∀ a, .contractState a false ∉ touches

mutual

/-- A property of all frames of a tree, each at the state in which it is entered. -/
def Op.EveryFrame (env : Env) (P : Vm → Op → Prop) (vm : Vm) : Op → Prop
  | .bridge _ => True
  | .frame kind interp body result =>
    P vm (.frame kind interp body result) ∧
      match kind.start env vm, interp with
      | .run _, some target =>
        Op.EveryFrameAll env P ((kind.enter env vm).initializeInterp env target) body
      | _, _ => True

def Op.EveryFrameAll (env : Env) (P : Vm → Op → Prop) (vm : Vm) : List Op → Prop
  | [] => True
  | op :: ops => op.EveryFrame env P vm ∧ Op.EveryFrameAll env P (op.run env vm) ops

end

/-- If the frame ends in revert, the logs are enough. -/
def RevertUndoable (op : Op) : Prop :=
  op.reverts env vm = true → Undoable (op.inside env vm)

/-- If the frame ends in revert, the stores are what they were when it was entered. -/
def RevertRestores (op : Op) : Prop :=
  op.reverts env vm = true → (op.run env vm).stores = vm.stores

/-! ## Undoing, store by store -/

abbrev undoStaking (log : List StakingEntry) (s : Stores) : Stores := undo StakingEntry.reverse log s

abbrev undoTransfers (log : List PendingTransfer) (s : Stores) : Stores := undo unwindTransfer log s

abbrev undoContractState (log : List (Address × ContractState)) (s : Stores) : Stores :=
  undo Vm.restoreContractState log s

/-- All but account and contract-state rows. -/
def Stores.others (s : Stores) : Stores :=
  { s with accounts := fun _ => none, contractState := fun _ => none }

theorem Stores.eq_of_parts {s s' : Stores} (hothers : s.others = s'.others)
    (haccounts : ∀ a, s.accounts a = s'.accounts a) (hcs : s.contractState = s'.contractState) :
    s = s' := by
  have haccounts : s.accounts = s'.accounts := funext haccounts
  cases s
  cases s'
  simp only [Stores.others, Stores.mk.injEq, true_and] at hothers haccounts hcs ⊢
  exact ⟨haccounts, hothers.1, hothers.2.1, hothers.2.2.1, hothers.2.2.2.1, hcs, hothers.2.2.2.2⟩

variable {s s' x y : Stores} {a : Address} {key : String}

theorem StakingEntry.reverse_others (e : StakingEntry) (h : x.others = y.others) :
    (e.reverse x).others = (e.reverse y).others := by
  have hpart : ∀ z : Stores, (e.reverse z).others = (e.reverse z.others).others := by
    intro z
    cases e <;> rfl
  rw [hpart x, hpart y, h]

theorem undoStaking_others (log : List StakingEntry) (h : x.others = y.others) :
    (undoStaking log x).others = (undoStaking log y).others := by
  induction log generalizing x y with
  | nil => exact h
  | cons e log ih => exact ih (e.reverse_others h)

theorem undoStaking_contractState (log : List StakingEntry) (x : Stores) :
    (undoStaking log x).contractState = x.contractState := by
  induction log generalizing x with
  | nil => rfl
  | cons e log ih =>
    refine (ih _).trans ?_
    cases e <;> rfl

variable (log : List PendingTransfer)

theorem undoTransfers_others (x : Stores) :
    (undoTransfers log x).others = x.others ∧ (undoTransfers log x).contractState = x.contractState := by
  induction log generalizing x with
  | nil => exact ⟨rfl, rfl⟩
  | cons t log ih => exact ih (unwindTransfer t x)

theorem undoContractState_eq (log : List (Address × ContractState)) (x : Stores) :
    undoContractState log x =
      { x with contractState := undo putBack (log.map fun e => (e.1, some e.2)) x.contractState } := by
  induction log generalizing x with
  | nil => rfl
  | cons e log ih =>
    exact ih _

/-! ## Undoing transfers, account by account -/

/-- What the transfer found, if it is of this account and token. -/
def PendingTransfer.pre (a : Address) (key : String) : Option (Option Int) :=
  if t.tokenIdKey = key then
    if t.targetAddr = a then some t.targetPre
    else if t.callerAddr = a then some t.callerPre
    else none
  else none

/-- What the transfer that ended first found. -/
def oldestPre (a : Address) (key : String) : List PendingTransfer → Option (Option Int)
  | [] => none
  | t :: log => (oldestPre a key log).or (t.pre a key)

theorem oldestPre_append (new old : List PendingTransfer) :
    oldestPre a key (new ++ old) = (oldestPre a key old).or (oldestPre a key new) := by
  induction new with
  | nil => simp [oldestPre]
  | cons t new ih => rw [cons_append, oldestPre, ih, oldestPre, Option.or_assoc]

def Account.withAssets (account : Account) (assets : String → Option (Option Int)) : Account :=
  { account with assetV2 := fun key => (assets key).getD (account.assetV2 key) }

theorem Account.withAssets_none (account : Account) (assets : String → Option (Option Int))
    (h : ∀ key, assets key = none) : account.withAssets assets = account := by
  simp [withAssets, h]

theorem Stores.putAccount_accounts (x : Stores) (b : Address) (account : Account) :
    (x.putAccount b account).accounts a = if a = b then some account else x.accounts a := by
  simp [putAccount, Function.update_apply]

variable {account : Account}

theorem putBackAsset (b : Address) (key : String) (pre : Option Int) (h : x.accounts a = some account) :
    (x.putAccount b (((x.accounts b).getD default).setAsset key pre)).accounts a =
      some (account.withAssets fun k => if key = k ∧ b = a then some pre else none) := by
  rw [Stores.putAccount_accounts]
  split
  · rename_i hab
    subst hab
    rw [h]
    simp only [Option.getD_some, setAsset, withAssets, and_true]
    congr 2
    funext k
    by_cases hk : key = k
    · subst hk
      simp
    · simp [hk, Ne.symm hk]
  · rename_i hab
    rw [h, withAssets_none]
    intro k
    rw [if_neg]
    exact fun hk => hab hk.2.symm

theorem unwindTransfer_some (h : x.accounts a = some account) :
    (unwindTransfer t x).accounts a = some (account.withAssets (t.pre a)) := by
  have hcaller := putBackAsset t.callerAddr t.tokenIdKey t.callerPre h
  rw [unwindTransfer, putBackAsset t.targetAddr t.tokenIdKey t.targetPre hcaller]
  congr 1
  simp only [withAssets, PendingTransfer.pre]
  congr 1
  funext k
  by_cases hk : t.tokenIdKey = k <;> by_cases ht : t.targetAddr = a <;>
    by_cases hc : t.callerAddr = a <;> simp [hk, ht, hc]

theorem unwindTransfer_none (ht : t.pre a t.tokenIdKey = none) : (unwindTransfer t x).accounts a = x.accounts a := by
  have hne : a ≠ t.targetAddr ∧ a ≠ t.callerAddr := by
    constructor <;> rintro rfl <;> simp [PendingTransfer.pre] at ht
    split at ht <;> simp at ht
  rw [unwindTransfer, Stores.putAccount_accounts, if_neg hne.1, Stores.putAccount_accounts, if_neg hne.2]

/-- Undone transfers leave each token as the transfer that ended first has found it. -/
theorem undoTransfers_some (h : x.accounts a = some account) :
    (undoTransfers log x).accounts a = some (account.withAssets fun key => oldestPre a key log) := by
  induction log generalizing x account with
  | nil => simp [h, withAssets_none, oldestPre]
  | cons t log ih =>
    rw [undoTransfers, UndoLog.undo_cons]
    rw [ih (unwindTransfer_some t h)]
    congr 1
    simp only [withAssets, oldestPre]
    congr 1
    funext k
    cases oldestPre a k log <;> simp

theorem undoTransfers_none (h : ∀ key, oldestPre a key log = none) :
    (undoTransfers log x).accounts a = x.accounts a := by
  induction log generalizing x with
  | nil => rfl
  | cons t log ih =>
    have hparts : ∀ key, oldestPre a key log = none ∧ t.pre a key = none := fun key =>
      Option.or_eq_none_iff.1 (h key)
    rw [undoTransfers, UndoLog.undo_cons]
    rw [ih (fun key => (hparts key).1), unwindTransfer_none t (hparts _).2]

/-! ## The row of one account -/

def Account.bare (account : Account) : Account := { account with assetV2 := fun _ => none }

def assetOf (row : Option Account) (key : String) : Option Int := row.bind fun account => account.assetV2 key

theorem row_eq {r r' : Option Account} (hshape : r'.map bare = r.map bare)
    (hassets : ∀ key, assetOf r' key = assetOf r key) : r' = r := by
  cases r with
  | none => simpa using hshape
  | some account =>
    cases r' with
    | none => simp at hshape
    | some account' =>
      have hfun : account'.assetV2 = account.assetV2 := funext hassets
      cases account
      cases account'
      simp_all [bare]

/-- The transfers of a run against its touches, for an account without a snapshot. -/
structure RowLogged (a : Address) (log : List PendingTransfer) (touches : List Touch)
    (r r' : Option Account) : Prop where
  shape : r'.map bare = r.map bare
  untouched : ∀ key, touches.filter (onToken a key) = [] → assetOf r' key = assetOf r key ∧ oldestPre a key log = none
  touched : ∀ key, touches.filter (onToken a key) ≠ [] →
    NotNested (touches.filter (onToken a key)) → oldestPre a key log = some (assetOf r key)
  absent : r = none → ∀ key, touches.filter (onToken a key) = []

/-- A transfer that has begun has also ended. -/
def Paired (touches : List Touch) : Prop :=
  ∀ a key, touches.filter (onToken a key) = [] ∨
    ∃ p y rest, touches.filter (onToken a key) = .opened a key p :: y :: rest

variable {C C₁ C₂ : List PendingTransfer} {T T₁ T₂ : List Touch} {r r₁ r₂ : Option Account}

theorem RowLogged.refl (hT : ∀ key, T.filter (onToken a key) = []) : RowLogged a [] T r r :=
  ⟨rfl, fun _ _ => ⟨rfl, rfl⟩, fun key h => absurd (hT key) h, fun _ => hT⟩

theorem RowLogged.trans (h₁ : RowLogged a C₁ T₁ r r₁) (h₂ : RowLogged a C₂ T₂ r₁ r₂)
    (hpaired : Paired T₁) : RowLogged a (C₂ ++ C₁) (T₁ ++ T₂) r r₂ where
  shape := h₂.shape.trans h₁.shape
  untouched := by
    intro key hkey
    rw [filter_append, append_eq_nil_iff] at hkey
    obtain ⟨heq₁, hold₁⟩ := h₁.untouched key hkey.1
    obtain ⟨heq₂, hold₂⟩ := h₂.untouched key hkey.2
    rw [oldestPre_append, hold₁, hold₂]
    exact ⟨heq₂.trans heq₁, rfl⟩
  touched := by
    intro key hkey hnested
    rw [filter_append] at hkey hnested
    rw [oldestPre_append]
    rcases hpaired a key with hnil | ⟨p, y, rest, hcons⟩
    · -- the first transfer is in the second part
      rw [hnil, nil_append] at hkey hnested
      obtain ⟨heq, hold⟩ := h₁.untouched key hnil
      rw [hold, h₂.touched key hkey hnested, heq]
      rfl
    · have hfirst : NotNested (T₁.filter (onToken a key)) := by
        rw [hcons] at hnested ⊢
        cases y <;> exact hnested
      rw [h₁.touched key (by rw [hcons]; simp) hfirst]
      rfl
  absent := by
    intro hr key
    have hr₁ : r₁ = none := by
      have := h₁.shape
      rw [hr] at this
      simpa using this
    rw [filter_append, h₁.absent hr key, h₂.absent hr₁ key]
    rfl

theorem RowLogged.eq_of_untouched (h : RowLogged a C T r r₁) (hT : ∀ key, T.filter (onToken a key) = []) : r₁ = r :=
  row_eq h.shape fun key => (h.untouched key (hT key)).1

theorem RowLogged.undo (h : RowLogged a C T (s.accounts a) (x.accounts a))
    (hnested : ∀ key, NotNested (T.filter (onToken a key))) :
    (undoTransfers C x).accounts a = s.accounts a := by
  cases hrow : s.accounts a with
  | none =>
    have hT := h.absent hrow
    rw [undoTransfers_none C fun key => (h.untouched key (hT key)).2, h.eq_of_untouched hT, hrow]
  | some account =>
    have hshape := h.shape
    rw [hrow] at hshape
    obtain ⟨account', hrow', hbare⟩ := Option.map_eq_some_iff.1 hshape
    rw [undoTransfers_some C hrow']
    refine row_eq ?_ ?_
    · simpa [bare, withAssets] using hbare
    · intro key
      by_cases hkey : T.filter (onToken a key) = []
      · obtain ⟨heq, hold⟩ := h.untouched key hkey
        rw [hrow, hrow'] at heq
        simpa [assetOf, withAssets, hold] using heq
      · have hold := h.touched key hkey (hnested key)
        rw [hrow] at hold
        simp [assetOf, withAssets, hold]

end TronGoblin.Tvm
