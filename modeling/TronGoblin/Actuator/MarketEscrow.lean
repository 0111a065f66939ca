import TronGoblin.Actuator.Market
import TronGoblin.Lib.History

/-!
# Market orders conserve escrow

What an owner has in a token is the balance and what the owner's active orders hold.

* `placed`, `canceled`: what an executed transaction has written.
* `Inv`: every active order is listed in its owner's record, and the records count right.
* `orders_conserve_escrow`: over every run, what an owner has changes by the fees only, the records
  count the active orders, and no order is refunded twice.
-/

namespace TronGoblin.Market

open Assoc Checked List MarketState Account History
open BigEndian (wrapI64)

/-! ## Holdings -/

def Account.holding (account : Account) (token : Bytes) : Int :=
  if token = TRX_TOKEN_ID then account.balance else (account.assetV2.lookup token).getD 0

/-- An owner's balance in a token; nothing without an account. -/
def MarketState.balance (s : MarketState) (owner : Address) (token : Bytes) : Int :=
  match s.accounts.lookup owner with
  | some account => account.holding token
  | none => 0

def MarketOrder.ActiveOf (owner : Address) (order : MarketOrder) : Prop :=
  order.state = .active ∧ order.ownerAddress = owner.val

instance (owner : Address) (order : MarketOrder) : Decidable (order.ActiveOf owner) :=
  inferInstanceAs (Decidable (_ ∧ _))

/-- What an order holds of an owner's tokens. -/
def MarketOrder.holds (owner : Address) (token : Bytes) (order : MarketOrder) : Int :=
  if order.ActiveOf owner ∧ order.sellTokenId = token then order.sellTokenQuantityRemain else 0

/-- The remaining sell quantity of an owner's active orders in a token. -/
def MarketState.escrow (s : MarketState) (owner : Address) (token : Bytes) : Int :=
  Assoc.total (fun _ order => order.holds owner token) s.orders

def MarketState.activeOrders (s : MarketState) (owner : Address) : Int :=
  Assoc.total (fun _ order => if order.ActiveOf owner then 1 else 0) s.orders

/-! ## Tokens -/

variable {fmt : Format} {chain : Chain} {s s' : MarketState} {result : ExecutionResult}

/-- The token ids that validators let through. -/
def ValidToken (id : Bytes) : Prop := id = TRX_TOKEN_ID ∨ isNumber id = true

theorem isAsciiDigit_lt {b : UInt8} (h : isAsciiDigit b = true) : b < 0x80 := by
  simp only [isAsciiDigit, Bool.and_eq_true, decide_eq_true_eq] at h
  exact UInt8.lt_of_le_of_lt h.2 (by decide)

theorem fromUtf8Lossy_number {id : Bytes} (h : isNumber id = true) : fmt.fromUtf8Lossy id = id := by
  simp only [isNumber, Bool.and_eq_true, all_eq_true] at h
  exact fmt.fromUtf8Lossy_ascii id fun c hc => isAsciiDigit_lt (h.1.2 c hc)

theorem holding_insert {account : Account} {id : Bytes} (hid : id ≠ TRX_TOKEN_ID) (n : Int) (token : Bytes) :
    holding { account with assetV2 := account.assetV2.insert id n } token =
      account.holding token + if token = id then n - (account.assetV2.lookup id).getD 0 else 0 := by
  unfold holding
  by_cases h : token = id
  · subst h
    simp only [hid, if_false, if_true, AList.lookup_insert, Option.getD_some]
    omega
  · simp [h]

theorem holding_balance (account : Account) (n : Int) (token : Bytes) :
    holding { account with balance := n } token =
      account.holding token + if token = TRX_TOKEN_ID then n - account.balance else 0 := by
  unfold holding
  split <;> simp only
  all_goals omega

theorem debitToken_holding {account account' : Account} {id : Bytes} {amount : Int}
    (hid : ValidToken id) (h : debitToken fmt account id amount = .ok account') (token : Bytes) :
    account'.holding token = account.holding token + if token = id then -amount else 0 := by
  unfold debitToken at h
  by_cases htrx : id = TRX_TOKEN_ID
  · subst htrx
    simp [checkSub] at h
    obtain ⟨-, -, -, rfl⟩ := h
    rw [holding_balance]
    split <;> omega
  · have hkey : fmt.fromUtf8Lossy id = id := fromUtf8Lossy_number (hid.resolve_left htrx)
    simp [htrx, checkSub, hkey] at h
    obtain ⟨-, slot, hslot, -, -, rfl⟩ := h
    rw [hkey] at hslot
    rw [holding_insert htrx, hslot, Option.getD_some]
    split <;> omega

theorem creditToken_holding {account account' : Account} {id : Bytes} {amount : Int}
    (hid : ValidToken id) (h : creditToken fmt account id amount = .ok account') (token : Bytes) :
    account'.holding token = account.holding token + if token = id then amount else 0 := by
  unfold creditToken at h
  by_cases htrx : id = TRX_TOKEN_ID
  · subst htrx
    simp [checkAdd] at h
    obtain ⟨-, rfl⟩ := h
    rw [holding_balance]
    split <;> omega
  · have hkey : fmt.fromUtf8Lossy id = id := fromUtf8Lossy_number (hid.resolve_left htrx)
    rw [hkey] at h
    simp [htrx, checkAdd] at h
    obtain ⟨-, rfl⟩ := h
    rw [holding_insert htrx]
    split <;> omega

/-! ## Executed transactions -/

variable (fee : Int)

theorem disposeFee_frame : (disposeFeeToBlackhole chain s fee).orders = s.orders ∧
    (disposeFeeToBlackhole chain s fee).marketAccount = s.marketAccount := by
  unfold disposeFeeToBlackhole
  split
  · exact ⟨rfl, rfl⟩
  · split
    · exact ⟨rfl, rfl⟩
    · split <;> exact ⟨rfl, rfl⟩

theorem disposeFee_accounts {owner : Address} (h : owner ≠ blackhole) :
    (disposeFeeToBlackhole chain s fee).accounts.lookup owner = s.accounts.lookup owner := by
  unfold disposeFeeToBlackhole
  split
  · rfl
  · split
    · rfl
    · split
      · rfl
      · exact AList.lookup_insert_ne h

theorem decodeAddress_val {bytes : Bytes} {owner : Address} (h : decodeAddress bytes = some owner) :
    owner.val = bytes := by
  unfold decodeAddress at h
  split at h
  · split at h
    · cases h
      rfl
    · cases h
  · cases h

theorem requireFewOrders_count {owner : Address} {u : Unit} (h : requireFewOrders s owner = .ok u) :
    (s.record owner).count < 100 := by
  unfold requireFewOrders at h
  unfold record
  split at h <;> rename_i hlook
  · rw [hlook]
    exact require_eq_ok.1 h
  · rw [hlook]
    simp

/-- The rows an executed transaction has written: the owner's account, one order, the owner's record. -/
structure Wrote (s s' : MarketState) (owner : Address) (account : Account) (orderId : Bytes)
    (order : MarketOrder) (record : MarketAccountOrder) : Prop where
  accounts : ∀ o, o ≠ blackhole → s'.accounts.lookup o = if o = owner then some account else s.accounts.lookup o
  orders : s'.orders = s.orders.insert orderId order
  records : ∀ o, s'.record o = if o = owner then record else s.record o

theorem record_insert (owner : Address) (r : MarketAccountOrder) (o : Address) :
    ((s.marketAccount.insert owner r).lookup o).getD ⟨o.val, [], 0, 0⟩ = if o = owner then r else s.record o := by
  rw [lookup_insert_eq]
  split <;> rfl

theorem Wrote.after_fee (chain : Chain) (fee : Int) {owner : Address} {account : Account}
    {orderId : Bytes} {order : MarketOrder} {record : MarketAccountOrder}
    (h : s' = { disposeFeeToBlackhole chain s fee with
      accounts := (disposeFeeToBlackhole chain s fee).accounts.insert owner account
      orders := (disposeFeeToBlackhole chain s fee).orders.insert orderId order
      marketAccount := (disposeFeeToBlackhole chain s fee).marketAccount.insert owner record }) :
    Wrote s s' owner account orderId order record := by
  subst h
  constructor
  · intro o ho
    rw [lookup_insert_eq, disposeFee_accounts fee ho]
  · rw [(disposeFee_frame fee).1]
  · intro o
    rw [(disposeFee_frame fee).2]
    exact record_insert owner record o

theorem disposeFee_record (owner : Address) : (disposeFeeToBlackhole chain s fee).record owner = s.record owner := by
  unfold record
  rw [(disposeFee_frame fee).2]

/-- The owner has paid a fee, and got `moved` of a token. -/
def Account.Paid (account account' : Account) (fee : Int) (traded : Bytes) (moved : Int) : Prop :=
  ∀ token, account'.holding token = account.holding token - (if token = TRX_TOKEN_ID then fee else 0) +
    if token = traded then moved else 0

theorem placed {c : MarketSellAssetContract} (h : apply fmt chain s (.sell c) = .ok (s', result)) :
    ∃ owner account account', owner.val = c.ownerAddress ∧ s.accounts.lookup owner = some account ∧
      ValidToken c.sellTokenId ∧ (s.record owner).count < 100 ∧
      account.Paid account' result.fee c.sellTokenId (-c.sellTokenQuantity) ∧
      Wrote s s' owner account' result.orderId (newOrder chain owner result.orderId c)
        ((s.record owner).addOrder result.orderId) := by
  simp only [apply, validateMarketSellAsset, executeMarketSellAsset, requireOwner, checkSub, bind_eq_ok, require_eq_ok,
    orFail_eq_ok, pure_eq_ok, subI64_eq_some] at h
  obtain ⟨-, ⟨-, -, owner, howner, -, -, -, hsell, -, -, -, -, -, -, -, -, _, hfew, -⟩, hexec⟩ := h
  obtain ⟨owner', howner', account, haccount, balance, ⟨-, rfl⟩, account', hdebit, hres⟩ := hexec
  obtain rfl : owner = owner' := Option.some.inj (howner.symm.trans howner')
  simp only [disposeFee_record, Prod.mk.injEq] at hres
  obtain ⟨hs', rfl⟩ := hres
  refine ⟨owner, account, account', decodeAddress_val howner, haccount, hsell, requireFewOrders_count hfew, ?_, ?_⟩
  · intro token
    rw [debitToken_holding hsell hdebit, holding_balance]
    dsimp only
    split <;> omega
  · exact Wrote.after_fee chain _ hs'.symm

/-! ## The invariant -/

structure Inv (s : MarketState) : Prop where
  /-- An active order is listed in its owner's record. -/
  listed : ∀ id order o, s.orders.lookup id = some order → order.ActiveOf o → id ∈ (s.record o).orders
  tokens : ∀ id order, s.orders.lookup id = some order → ValidToken order.sellTokenId
  count_eq : ∀ o, (s.record o).count = (s.record o).orders.length
  active_eq : ∀ o, s.activeOrders o = (s.record o).orders.length
  count_le : ∀ o, (s.record o).count ≤ 100

theorem lookup_of_listed {owner : Address} {id : Bytes} (h : id ∈ (s.record owner).orders) :
    s.marketAccount.lookup owner = some (s.record owner) := by
  unfold record at h ⊢
  cases hlook : s.marketAccount.lookup owner with
  | none =>
    rw [hlook] at h
    simp at h
  | some r => rfl

theorem canceled {c : MarketCancelOrderContract} (hs : Inv s) (h : apply fmt chain s (.cancel c) = .ok (s', result)) :
    ∃ owner account account' order, owner.val = c.ownerAddress ∧
      s.accounts.lookup owner = some account ∧ s.orders.lookup c.orderId = some order ∧
      order.ActiveOf owner ∧ account.Paid account' result.fee order.sellTokenId order.sellTokenQuantityRemain ∧
      Wrote s s' owner account' c.orderId order.cancel ((s.record owner).removeOrder c.orderId) := by
  simp only [apply, validateMarketCancelOrder, executeMarketCancelOrder, requireOwner, checkSub, bind_eq_ok,
    require_eq_ok, orFail_eq_ok, pure_eq_ok, subI64_eq_some] at h
  obtain ⟨-, ⟨-, -, owner, howner, -, -, order, horder, -, hactive, -, hown, -⟩, hexec⟩ := h
  obtain ⟨owner', howner', order', horder', account, haccount, balance, ⟨-, rfl⟩, account', hcredit, hres⟩ := hexec
  obtain rfl : owner = owner' := Option.some.inj (howner.symm.trans howner')
  obtain rfl : order = order' := Option.some.inj (horder.symm.trans horder')
  rw [Prod.mk.injEq] at hres
  obtain ⟨hs', rfl⟩ := hres
  have hlook := lookup_of_listed (hs.listed _ _ owner horder ⟨hactive, hown⟩)
  rw [removeFromRecord, (disposeFee_frame _).2, hlook] at hs'
  refine ⟨owner, account, account', order, decodeAddress_val howner, haccount, horder,
    ⟨hactive, hown⟩, ?_, Wrote.after_fee chain (chain.marketCancelFee.getD 0) ?_⟩
  · intro token
    rw [creditToken_holding (hs.tokens _ _ horder) hcredit, holding_balance]
    dsimp only
    split <;> omega
  · rw [← hs', (disposeFee_frame _).2]

section Written

variable {owner o : Address} {account account' : Account} {id : Bytes} {order order' : MarketOrder}
  {record : MarketAccountOrder}

theorem activeOf_iff (h : order.ActiveOf owner) : order.ActiveOf o ↔ o = owner := by
  constructor
  · intro ho
    exact Subtype.ext (ho.2.symm.trans h.2)
  · rintro rfl
    exact h

theorem not_activeOf_cancel : ¬ order.cancel.ActiveOf o := by
  rintro ⟨h, -⟩
  cases h

theorem newOrder_activeOf (c : MarketSellAssetContract) :
    (newOrder chain owner id c).ActiveOf owner := ⟨rfl, rfl⟩

section

variable (h : Wrote s s' owner account id order record)
include h

theorem Wrote.balance (ho : o ≠ blackhole) (token : Bytes) :
    s'.balance o token = if o = owner then account.holding token else s.balance o token := by
  unfold MarketState.balance
  rw [h.accounts o ho]
  by_cases how : o = owner
  · rw [if_pos how, if_pos how]
  · rw [if_neg how, if_neg how]

theorem Wrote.total (f : MarketOrder → Int) :
    Assoc.total (fun _ => f) s'.orders = Assoc.total (fun _ => f) s.orders - (s.orders.lookup id).elim 0 f + f order := by
  rw [h.orders]
  exact total_insert_eq ..

end

theorem holds_of_activeOf (h : order.ActiveOf owner) (token : Bytes) :
    order.holds o token = if o = owner ∧ order.sellTokenId = token then order.sellTokenQuantityRemain else 0 := by
  simp [MarketOrder.holds, activeOf_iff h]

theorem holds_cancel (token : Bytes) : order.cancel.holds o token = 0 := by
  unfold MarketOrder.holds
  rw [if_neg]
  exact fun h => not_activeOf_cancel h.1

theorem Wrote.conserves (h : Wrote s s' owner account' id order record) (hacc : s.accounts.lookup owner = some account)
    {fee moved : Int} {traded token : Bytes} (hpaid : account.Paid account' fee traded moved)
    (hholds : order.holds o token =
      (s.orders.lookup id).elim 0 (·.holds o token) - if o = owner ∧ traded = token then moved else 0)
    (ho : o ≠ blackhole) :
    s'.balance o token + s'.escrow o token = s.balance o token + s.escrow o token -
      if o = owner ∧ token = TRX_TOKEN_ID then fee else 0 := by
  have hescrow : s'.escrow o token = _ := h.total _
  rw [h.balance ho, hescrow, hholds, escrow]
  by_cases how : o = owner
  · subst how
    simp only [MarketState.balance, hacc, hpaid token, if_true, true_and, eq_comm (a := traded)]
    omega
  · simp [how]

theorem wrapI64_small {n : Int} (h₀ : -1 ≤ n) (h : n ≤ 101) : wrapI64 n = n :=
  wrapI64_of_fits ⟨by omega, by omega⟩

variable (hs : Inv s)
include hs

/-- A written row keeps the invariant if the record still lists what it has to and counts right. -/
theorem Inv.write (h : Wrote s s' owner account id order record) (htoken : ValidToken order.sellTokenId)
    (hnew : ∀ o, order.ActiveOf o → o = owner ∧ id ∈ record.orders)
    (hkeep : ∀ k ∈ (s.record owner).orders, k ≠ id → k ∈ record.orders) (hcount : record.count = record.orders.length)
    (hle : record.count ≤ 100)
    (hact : ∀ o, (if order.ActiveOf o then (1 : Int) else 0) = (s.orders.lookup id).elim 0
        (fun old => if old.ActiveOf o then 1 else 0) +
      if o = owner then (record.orders.length : Int) - (s.record owner).orders.length else 0) :
    Inv s' := by
  have hlookup : ∀ k, s'.orders.lookup k = if k = id then some order else s.orders.lookup k := by
    intro k
    rw [h.orders, lookup_insert_eq]
  constructor
  · intro k ord o hk ho
    rw [hlookup] at hk
    rw [h.records]
    by_cases hki : k = id
    · rw [if_pos hki] at hk
      cases hk
      obtain ⟨how, hmem⟩ := hnew o ho
      rwa [if_pos how, hki]
    · rw [if_neg hki] at hk
      have hmem := hs.listed k ord o hk ho
      split
      · rename_i how
        subst how
        exact hkeep k hmem hki
      · exact hmem
  · intro k ord hk
    rw [hlookup] at hk
    split at hk
    · cases hk
      exact htoken
    · exact hs.tokens k ord hk
  · intro o
    rw [h.records]
    split
    · exact hcount
    · exact hs.count_eq o
  · intro o
    have htotal := h.total fun order => if order.ActiveOf o then 1 else 0
    have ha := hs.active_eq o
    rw [hact] at htotal
    rw [activeOrders] at ha ⊢
    rw [h.records]
    split <;> simp_all
    omega
  · intro o
    rw [h.records]
    split
    · exact hle
    · exact hs.count_le o

theorem Inv.place {c : MarketSellAssetContract} (hsell : ValidToken c.sellTokenId) (hfew : (s.record owner).count < 100)
    (h : Wrote s s' owner account id (newOrder chain owner id c) ((s.record owner).addOrder id))
    (hid : s.orders.lookup id = none) : Inv s' := by
  have hc := hs.count_eq owner
  have hcount : ((s.record owner).addOrder id).count = (s.record owner).count + 1 :=
    wrapI64_small (by omega) (by omega)
  have hlen : ((s.record owner).addOrder id).orders.length = (s.record owner).orders.length + 1 :=
    length_append
  refine hs.write h hsell ?_ ?_ ?_ ?_ ?_
  · intro o ho
    refine ⟨(activeOf_iff (newOrder_activeOf c)).1 ho, ?_⟩
    simp [MarketAccountOrder.addOrder]
  · intro k hk _
    exact mem_append_left _ hk
  · omega
  · omega
  · intro o
    simp [hid, hlen, activeOf_iff (newOrder_activeOf c)]

theorem Inv.cancel (h : Wrote s s' owner account id order.cancel ((s.record owner).removeOrder id))
    (hid : s.orders.lookup id = some order) (hactive : order.ActiveOf owner) : Inv s' := by
  have hc := hs.count_eq owner
  have hle := hs.count_le owner
  have hmem := hs.listed id order owner hid hactive
  have hpos : 0 < (s.record owner).orders.length := length_pos_of_mem hmem
  have hcount : ((s.record owner).removeOrder id).count = (s.record owner).count - 1 :=
    wrapI64_small (by omega) (by omega)
  have hlen : ((s.record owner).removeOrder id).orders.length = (s.record owner).orders.length - 1 :=
    length_erase_of_mem hmem
  refine hs.write h (hs.tokens id order hid) ?_ ?_ ?_ ?_ ?_
  · intro o ho
    exact absurd ho not_activeOf_cancel
  · intro k hk hne
    exact (mem_erase_of_ne hne).2 hk
  · omega
  · omega
  · intro o
    simp only [hid, hlen, activeOf_iff hactive, not_activeOf_cancel, Option.elim_some, if_false]
    split <;> omega

end Written

/-! ## Runs -/

/-- No orders, and no record that counts any. -/
structure NoOrders (s : MarketState) : Prop where
  orders : s.orders = ∅
  listed : ∀ o, (s.record o).orders = []
  counted : ∀ o, (s.record o).count = 0

/-- The id of the order that a transaction places. -/
def placedId (fmt : Format) (s : MarketState) (a : Chain × MarketTx) : Option Bytes :=
  match a.2, apply fmt a.1 s a.2 with
  | .sell _, .ok (_, result) => some result.orderId
  | _, _ => none

def FreshId (fmt : Format) (l : Ledger) (a : Chain × MarketTx) : Prop :=
  ∀ id ∈ placedId fmt l.state a, l.state.orders.lookup id = none

instance (fmt : Format) (l : Ledger) (a : Chain × MarketTx) : Decidable (FreshId fmt l a) :=
  inferInstanceAs (Decidable (∀ id ∈ placedId fmt l.state a, l.state.orders.lookup id = none))

theorem Inv.start (h : NoOrders s) : Inv s := by
  have hnone : ∀ id, s.orders.lookup id = none := fun id => by rw [h.orders, AList.lookup_empty]
  constructor
  · intro id order o hid
    rw [hnone] at hid
    cases hid
  · intro id order hid
    rw [hnone] at hid
    cases hid
  · intro o
    rw [h.counted, h.listed]
    rfl
  · intro o
    rw [activeOrders, h.orders, h.listed]
    rfl
  · intro o
    rw [h.counted]
    omega

/-- What holds after every transaction of a run from `s₀`. -/
structure Kept (s₀ : MarketState) (l : Ledger) : Prop where
  inv : Inv l.state
  conserved : ∀ o, o ≠ blackhole → ∀ token,
    l.state.balance o token + l.state.escrow o token = s₀.balance o token + s₀.escrow o token -
      if token = TRX_TOKEN_ID then feesCharged l.executed o else 0
  /-- A refunded order is never active again. -/
  settled : ∀ id ∈ refunded l.executed, ∃ order, l.state.orders.lookup id = some order ∧ order.state ≠ .active
  once : (refunded l.executed).Nodup

theorem feesCharged_concat (executed : List (MarketTx × ExecutionResult)) (tx : MarketTx) (o : Address) :
    feesCharged (executed ++ [(tx, result)]) o =
      feesCharged executed o + if tx.ownerAddress = o.val then result.fee else 0 := by
  induction executed with
  | nil => simp [feesCharged]
  | cons e executed ih =>
    simp only [feesCharged, cons_append, foldr_cons] at ih ⊢
    omega

theorem Kept.fees {s₀ : MarketState} {l : Ledger} (hl : Kept s₀ l) {tx : MarketTx} {owner : Address}
    (howner : owner.val = tx.ownerAddress)
    (hstep : ∀ o, o ≠ blackhole → ∀ token, s'.balance o token + s'.escrow o token =
      l.state.balance o token + l.state.escrow o token - if o = owner ∧ token = TRX_TOKEN_ID then result.fee else 0)
    (o : Address) (ho : o ≠ blackhole) (token : Bytes) :
    s'.balance o token + s'.escrow o token = s₀.balance o token + s₀.escrow o token -
      if token = TRX_TOKEN_ID then feesCharged (l.executed ++ [(tx, result)]) o else 0 := by
  have hown : tx.ownerAddress = o.val ↔ o = owner := by
    rw [← howner, Subtype.ext_iff, eq_comm]
  rw [hstep o ho, hl.conserved o ho, feesCharged_concat]
  simp only [hown]
  by_cases ht : token = TRX_TOKEN_ID
  · simp only [ht, and_true, if_true]
    omega
  · simp [ht]

theorem Kept.step {s₀ : MarketState} {l : Ledger} (hl : Kept s₀ l) {a : Chain × MarketTx}
    (ha : FreshId fmt l a) : Kept s₀ (step fmt l a) := by
  obtain ⟨chain, tx⟩ := a
  unfold Market.step
  split
  · exact hl
  · rename_i s' result happly
    cases tx with
    | sell c =>
      obtain ⟨owner, account, account', howner, hacc, hsell, hfew, hhold, hw⟩ := placed happly
      have hid : l.state.orders.lookup result.orderId = none := by
        apply ha
        rw [placedId]
        simp only [happly]
        rfl
      refine ⟨hl.inv.place hsell hfew hw hid, ?_, ?_, ?_⟩
      · exact hl.fees howner fun o ho token => hw.conserves hacc hhold (by
          rw [hid, holds_of_activeOf (newOrder_activeOf c)]
          by_cases hmine : o = owner ∧ c.sellTokenId = token <;> simp [newOrder, hmine]) ho
      · intro id hmem
        have hmem' : id ∈ refunded l.executed := by simpa [refunded] using hmem
        obtain ⟨order, horder, hstate⟩ := hl.settled id hmem'
        refine ⟨order, ?_, hstate⟩
        rw [hw.orders, lookup_insert_eq, if_neg]
        · exact horder
        · rintro rfl
          rw [hid] at horder
          cases horder
      · simpa [refunded] using hl.once
    | cancel c =>
      obtain ⟨owner, account, account', order, howner, hacc, hid, hactive, hhold, hw⟩ :=
        canceled hl.inv happly
      have hrefunded : refunded (l.executed ++ [(.cancel c, result)]) =
          refunded l.executed ++ [c.orderId] := by simp [refunded]
      refine ⟨hl.inv.cancel hw hid hactive, ?_, ?_, ?_⟩
      · exact hl.fees howner fun o ho token => hw.conserves hacc hhold (by
          simp [hid, holds_cancel, holds_of_activeOf hactive]) ho
      · intro id hmem
        rw [hw.orders, lookup_insert_eq]
        split
        · exact ⟨order.cancel, rfl, nofun⟩
        · rename_i hne
          rw [hrefunded, mem_append, mem_singleton] at hmem
          exact hl.settled id (hmem.resolve_right hne)
      · -- a refunded order is not active, so it was not canceled again
        rw [hrefunded, nodup_append]
        refine ⟨hl.once, nodup_singleton _, ?_⟩
        rintro id hmem _ hid' rfl
        obtain rfl := mem_singleton.1 hid'
        obtain ⟨order', horder', hstate⟩ := hl.settled _ hmem
        rw [hid] at horder'
        cases horder'
        exact hstate hactive.1

/-- **Market orders conserve escrow.**  Over every run from a state without orders, what an owner has
in a token changes by the fees charged only; the owner's record counts the orders it lists, which are
as many as the owner's active orders; and no order is refunded twice. -/
theorem orders_conserve_escrow (fmt : Format) {s₀ : MarketState} (h₀ : NoOrders s₀) (run : List (Chain × MarketTx))
    (hrun : Each (step fmt) ⟨s₀, []⟩ (FreshId fmt) run) :
    let l := after (step fmt) ⟨s₀, []⟩ run
    (∀ owner, owner ≠ blackhole → ∀ token,
      l.state.balance owner token + l.state.escrow owner token = s₀.balance owner token + s₀.escrow owner token -
          if token = TRX_TOKEN_ID then feesCharged l.executed owner else 0) ∧
    (∀ owner, (l.state.record owner).count = (l.state.record owner).orders.length ∧
      (l.state.record owner).count = l.state.activeOrders owner) ∧
    (refunded l.executed).Nodup := by
  have hstart : Kept s₀ ⟨s₀, []⟩ := by
    refine ⟨Inv.start h₀, ?_, ?_, nodup_nil⟩
    · simp [feesCharged]
    · intro id hid
      cases hid
  have hl := invariant_each hstart (fun l a hl ha => hl.step ha) hrun
  refine ⟨hl.conserved, fun owner => ⟨hl.inv.count_eq owner, ?_⟩, hl.once⟩
  rw [hl.inv.count_eq, hl.inv.active_eq]

/-! ## A run -/

namespace Sample

def format : Format := ⟨id, id, fun _ _ => rfl⟩

def enabled : Chain :=
  ⟨some 1, none, some 10, some 5, some 1, some 1, some 1000, fun _ => false, fun _ => true⟩

def owner : Address := ⟨0x41 :: List.replicate 20 1, rfl⟩

def token : Bytes := [0x37]

def start : MarketState where
  accounts := AList.insert owner ⟨1000, AList.insert token 50 ∅⟩ ∅
  orders := ∅
  marketAccount := ∅
  burnTrxAmount := 0

def sellTrx : MarketTx := .sell ⟨owner.val, TRX_TOKEN_ID, 100, token, 3⟩

def sellToken : MarketTx := .sell ⟨owner.val, token, 20, TRX_TOKEN_ID, 60⟩

def cancelTrx : MarketTx :=
  .cancel ⟨owner.val, makeOrderId format owner TRX_TOKEN_ID token 0⟩

/-- Two orders, and the first one canceled twice. -/
def run : List (Chain × MarketTx) :=
  [sellTrx, sellToken, cancelTrx, cancelTrx].map fun tx => (enabled, tx)

end Sample

open Sample

theorem orders_conserve_escrow_sample :
    let l := after (step format) ⟨start, []⟩ run
    l.executed.map (·.1) = [sellTrx, sellToken, cancelTrx] ∧
    (refunded l.executed).Nodup ∧
    l.state.balance owner TRX_TOKEN_ID + l.state.escrow owner TRX_TOKEN_ID = 975 := by
  have hstart : NoOrders start := ⟨rfl, fun _ => rfl, fun _ => rfl⟩
  have hrun : Each (step format) ⟨start, []⟩ (FreshId format)
      run := by
    refine .cons ?_ (.cons ?_ (.cons ?_ (.cons ?_ (each_nil _))))
    all_goals decide +kernel
  obtain ⟨hconserved, -, honce⟩ := orders_conserve_escrow format hstart run hrun
  refine ⟨by decide +kernel, honce, ?_⟩
  decide +kernel

end TronGoblin.Market
