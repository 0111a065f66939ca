import TronGoblin.Consensus.Pbft
import TronGoblin.Lib.Checked

/-!
# Market orders

Model of `tron-actuator/src/market.rs`: the transactions that place a sell order and cancel one, with
the token arithmetic of `exchange.rs` and the fee of `tron-chainbase/src/fee.rs`.  Orders rest without
being matched; a cancel gives back what the order still holds.

* `validateMarketSellAsset`, `executeMarketSellAsset`: a sell order takes its quantity from the owner.
* `validateMarketCancelOrder`, `executeMarketCancelOrder`: a cancel returns it.
* `apply`: a transaction that passes its validator is executed; one that fails changes nothing.
-/

namespace TronGoblin.Market

open Assoc (Table)
open BigEndian (wrapI64 encodeI64)
open Checked (require orFail addI64 subI64)

/-! ## Stores -/

structure Account where
  balance : Int
  assetV2 : Table Bytes Int

inductive OrderState
  | active | inactive | canceled
  deriving DecidableEq

structure MarketOrder where
  orderId : Bytes
  ownerAddress : Bytes
  createTime : Int
  sellTokenId : Bytes
  sellTokenQuantity : Int
  buyTokenId : Bytes
  buyTokenQuantity : Int
  sellTokenQuantityRemain : Int
  sellTokenQuantityReturn : Int
  state : OrderState
  prev : Bytes
  next : Bytes
  deriving DecidableEq

structure MarketAccountOrder where
  ownerAddress : Bytes
  orders : List Bytes
  count : Int
  totalCount : Int
  deriving DecidableEq

/-- The stores that market transactions write. -/
structure MarketState where
  accounts : Table Address Account
  orders : Table Bytes MarketOrder
  marketAccount : Table Address MarketAccountOrder
  burnTrxAmount : Int

/-- The stores that market transactions only read. -/
structure Chain where
  allowMarketTransaction : Option Int
  marketQuantityLimit : Option Int
  marketSellFee : Option Int
  marketCancelFee : Option Int
  allowSameTokenName : Option Int
  allowBlackholeOptimization : Option Int
  latestBlockHeaderTimestamp : Option Int
  /-- The names in `AssetIssueStore`. -/
  assetIssue : Bytes → Bool
  /-- The numbers in `AssetIssueV2Store`. -/
  assetIssueV2 : Int → Bool

/-- What is computed outside: the hash of order ids, and `String::from_utf8_lossy`, which leaves ASCII
text as it is. -/
structure Format where
  keccak256 : Bytes → Bytes
  fromUtf8Lossy : Bytes → Bytes
  fromUtf8Lossy_ascii : ∀ text : Bytes, (∀ c ∈ text, c < 0x80) → fromUtf8Lossy text = text

inductive ActuatorError
  | marketDisabled
  | invalidOwnerAddress
  | ownerAccountMissing
  | marketInvalidTokenId
  | marketSameTokens
  | nonPositiveTokenQuant
  | marketQuantityLimitExceeded
  | marketTooManyOrders
  | overflow
  | insufficientBalance (balance needed : Int)
  | marketSellTokenMissing
  | insufficientAssetBalance (has needs : Int)
  | marketBuyTokenMissing
  | marketOrderMissing
  | marketOrderNotActive
  | notExchangeOwner
  deriving DecidableEq

structure MarketSellAssetContract where
  ownerAddress : Bytes
  sellTokenId : Bytes
  sellTokenQuantity : Int
  buyTokenId : Bytes
  buyTokenQuantity : Int
  deriving DecidableEq

structure MarketCancelOrderContract where
  ownerAddress : Bytes
  orderId : Bytes
  deriving DecidableEq

/-- What is kept of an executed transaction; a cancel has no order id. -/
structure ExecutionResult where
  fee : Int
  orderId : Bytes
  deriving DecidableEq

/-- The width of a token id in the text that order ids are the hash of. -/
def TOKEN_ID_LENGTH : Nat := 19

/-- The token id `"_"`, which stands for TRX. -/
def TRX_TOKEN_ID : Bytes := [0x5f]

def MAX_ACTIVE_ORDER_NUM : Int := 100

/-- The account that fees go to, the last of `MAINNET_ASSETS`. -/
def blackhole : Address :=
  ⟨[0x41, 0x77, 0x94, 0x4d, 0x19, 0xc0, 0x52, 0xb7, 0x3e, 0xe2, 0x28, 0x68, 0x23, 0xaa, 0x83,
    0xf8, 0x13, 0x8c, 0xb7, 0x03, 0x2f], rfl⟩

/-! ## Helpers -/

def checkAdd (a b : Int) : Except ActuatorError Int := orFail (addI64 a b) .overflow

def checkSub (a b : Int) : Except ActuatorError Int := orFail (subI64 a b) .overflow

/-- `decode_address`: 21 bytes, the first of which is the prefix of the main net. -/
def decodeAddress (bytes : Bytes) : Option Address :=
  if h : bytes.length = 21 then
    if bytes.head? = some 0x41 then some ⟨bytes, h⟩ else none
  else none

def requireOwner (bytes : Bytes) : Except ActuatorError Address :=
  orFail (decodeAddress bytes) .invalidOwnerAddress

def isAsciiDigit (b : UInt8) : Bool := 0x30 ≤ b && b ≤ 0x39

/-- `is_number`: digits only, with no leading zero. -/
def isNumber (id : Bytes) : Bool :=
  !id.isEmpty && id.all isAsciiDigit && !(1 < id.length && id.head? == some 0x30)

def digitsValue (ds : Bytes) : Option Int :=
  if ds.isEmpty || !ds.all isAsciiDigit then none
  else some (ds.foldl (fun acc b => acc * 10 + (b.toNat - 0x30 : Nat)) 0)

/-- `str::parse` at `i64`. -/
def parseI64 (text : Bytes) : Option Int :=
  let value :=
    match text with
    | 0x2b :: ds => digitsValue ds
    | 0x2d :: ds => (digitsValue ds).map fun n => -n
    | ds => digitsValue ds
  value.filter fun n => Checked.FitsI64 n

def assetExists (chain : Chain) (tokenId : Bytes) : Bool :=
  if chain.allowSameTokenName.getD 0 = 1 then
    match parseI64 tokenId with
    | some id => chain.assetIssueV2 id
    | none => false
  else chain.assetIssue tokenId

def requireMarketEnabled (chain : Chain) : Except ActuatorError Unit :=
  require (chain.allowMarketTransaction.getD 0 = 1) .marketDisabled

variable (fmt : Format) (account : Account) (tokenId : Bytes)

def assetV2Balance : Int :=
  (account.assetV2.lookup (fmt.fromUtf8Lossy tokenId)).getD 0

variable (amount : Int)

def assetBalanceEnoughV2 : Bool :=
  if amount ≤ 0 then false
  else
    match account.assetV2.lookup (fmt.fromUtf8Lossy tokenId) with
    | some balance => amount ≤ balance
    | none => false

def debitToken :
    Except ActuatorError Account := do
  require (0 ≤ amount) .nonPositiveTokenQuant
  if tokenId = TRX_TOKEN_ID then
    require (amount ≤ account.balance) (.insufficientBalance account.balance amount)
    let balance ← checkSub account.balance amount
    return { account with balance := balance }
  else
    let key := fmt.fromUtf8Lossy tokenId
    let slot ← orFail (account.assetV2.lookup key) (.insufficientAssetBalance 0 amount)
    require (amount ≤ slot) (.insufficientAssetBalance slot amount)
    let rest ← checkSub slot amount
    return { account with assetV2 := account.assetV2.insert key rest }

def creditToken : Except ActuatorError Account :=
  if tokenId = TRX_TOKEN_ID then do
    let balance ← checkAdd account.balance amount
    return { account with balance := balance }
  else do
    let key := fmt.fromUtf8Lossy tokenId
    let slot ← checkAdd ((account.assetV2.lookup key).getD 0) amount
    return { account with assetV2 := account.assetV2.insert key slot }

def disposeFeeToBlackhole (chain : Chain) (s : MarketState) (fee : Int) : MarketState :=
  if fee = 0 then s
  else if chain.allowBlackholeOptimization.getD 0 = 1 then
    { s with burnTrxAmount := wrapI64 (s.burnTrxAmount + fee) }
  else
    match s.accounts.lookup blackhole with
    | none => s
    | some acct =>
      let acct := { acct with balance := wrapI64 (acct.balance + fee) }
      { s with accounts := s.accounts.insert blackhole acct }

/-- A token id in its slot: the rest is zeros. -/
def tokenSlot : Bytes :=
  let id := tokenId.take TOKEN_ID_LENGTH
  id ++ List.replicate (TOKEN_ID_LENGTH - id.length) 0

def makeOrderId (owner : Address) (sellTokenId buyTokenId : Bytes) (count : Int) : Bytes :=
  fmt.keccak256 (owner.val ++ tokenSlot sellTokenId ++ tokenSlot buyTokenId ++ encodeI64 count)

/-! ## Placing an order -/

variable (s : MarketState)

def MarketState.record (owner : Address) : MarketAccountOrder :=
  (s.marketAccount.lookup owner).getD ⟨owner.val, [], 0, 0⟩

def requireFewOrders (owner : Address) : Except ActuatorError Unit :=
  match s.marketAccount.lookup owner with
  | some accountOrder => require (accountOrder.count < MAX_ACTIVE_ORDER_NUM) .marketTooManyOrders
  | none => .ok ()

/-- The owner can pay the fee and the quantity to sell. -/
def requireFunds (chain : Chain) (account : Account) (c : MarketSellAssetContract) :
    Except ActuatorError Unit := do
  let fee := chain.marketSellFee.getD 0
  if c.sellTokenId = TRX_TOKEN_ID then
    let needed ← checkAdd c.sellTokenQuantity fee
    require (needed ≤ account.balance) (.insufficientBalance account.balance needed)
  else
    require (fee ≤ account.balance) (.insufficientBalance account.balance fee)
    require (assetExists chain c.sellTokenId) .marketSellTokenMissing
    require (assetBalanceEnoughV2 fmt account c.sellTokenId c.sellTokenQuantity)
      (.insufficientAssetBalance (assetV2Balance fmt account c.sellTokenId) c.sellTokenQuantity)

def validateMarketSellAsset (chain : Chain) (s : MarketState) (c : MarketSellAssetContract) :
    Except ActuatorError Unit := do
  requireMarketEnabled chain
  let owner ← requireOwner c.ownerAddress
  let account ← orFail (s.accounts.lookup owner) .ownerAccountMissing
  require (c.sellTokenId = TRX_TOKEN_ID ∨ isNumber c.sellTokenId) .marketInvalidTokenId
  require (c.buyTokenId = TRX_TOKEN_ID ∨ isNumber c.buyTokenId) .marketInvalidTokenId
  require (c.sellTokenId ≠ c.buyTokenId) .marketSameTokens
  require (0 < c.sellTokenQuantity ∧ 0 < c.buyTokenQuantity) .nonPositiveTokenQuant
  let quantityLimit := chain.marketQuantityLimit.getD 1000000000000000
  require (c.sellTokenQuantity ≤ quantityLimit ∧ c.buyTokenQuantity ≤ quantityLimit)
    .marketQuantityLimitExceeded
  requireFewOrders s owner
  requireFunds fmt chain account c
  require (c.buyTokenId = TRX_TOKEN_ID ∨ assetExists chain c.buyTokenId) .marketBuyTokenMissing

def newOrder (chain : Chain) (owner : Address) (orderId : Bytes) (c : MarketSellAssetContract) :
    MarketOrder where
  orderId := orderId
  ownerAddress := owner.val
  createTime := chain.latestBlockHeaderTimestamp.getD 0
  sellTokenId := c.sellTokenId
  sellTokenQuantity := c.sellTokenQuantity
  buyTokenId := c.buyTokenId
  buyTokenQuantity := c.buyTokenQuantity
  sellTokenQuantityRemain := c.sellTokenQuantity
  sellTokenQuantityReturn := 0
  state := .active
  prev := []
  next := []

def MarketAccountOrder.addOrder (r : MarketAccountOrder) (orderId : Bytes) : MarketAccountOrder :=
  { r with
    orders := r.orders ++ [orderId]
    count := wrapI64 (r.count + 1)
    totalCount := wrapI64 (r.totalCount + 1) }

def executeMarketSellAsset (chain : Chain) (s : MarketState) (c : MarketSellAssetContract) :
    Except ActuatorError (MarketState × ExecutionResult) := do
  let owner ← requireOwner c.ownerAddress
  let account ← orFail (s.accounts.lookup owner) .ownerAccountMissing
  let fee := chain.marketSellFee.getD 0
  let balance ← checkSub account.balance fee
  let s := disposeFeeToBlackhole chain s fee
  let account ← debitToken fmt { account with balance := balance } c.sellTokenId c.sellTokenQuantity
  let accountOrder := s.record owner
  let orderId := makeOrderId fmt owner c.sellTokenId c.buyTokenId accountOrder.totalCount
  return ({ s with
    accounts := s.accounts.insert owner account
    orders := s.orders.insert orderId (newOrder chain owner orderId c)
    marketAccount := s.marketAccount.insert owner (accountOrder.addOrder orderId) },
    ⟨fee, orderId⟩)

/-! ## Canceling an order -/

def validateMarketCancelOrder (chain : Chain) (s : MarketState) (c : MarketCancelOrderContract) :
    Except ActuatorError Unit := do
  requireMarketEnabled chain
  let owner ← requireOwner c.ownerAddress
  let account ← orFail (s.accounts.lookup owner) .ownerAccountMissing
  let order ← orFail (s.orders.lookup c.orderId) .marketOrderMissing
  require (order.state = .active) .marketOrderNotActive
  require (order.ownerAddress = owner.val) .notExchangeOwner
  let fee := chain.marketCancelFee.getD 0
  require (fee ≤ account.balance) (.insufficientBalance account.balance fee)

/-- The canceled order; what it had returned earlier stays recorded. -/
def MarketOrder.cancel (order : MarketOrder) : MarketOrder :=
  { order with state := .canceled, sellTokenQuantityRemain := 0 }

/-- The owner's record without the order: the first entry with its id goes. -/
def MarketAccountOrder.removeOrder (r : MarketAccountOrder) (orderId : Bytes) : MarketAccountOrder :=
  { r with orders := r.orders.erase orderId, count := wrapI64 (r.count - 1) }

/-- The record is written back only where there is one. -/
def removeFromRecord (owner : Address) (orderId : Bytes) : MarketState :=
  match s.marketAccount.lookup owner with
  | none => s
  | some accountOrder =>
    { s with marketAccount := s.marketAccount.insert owner (accountOrder.removeOrder orderId) }

def executeMarketCancelOrder (chain : Chain) (s : MarketState) (c : MarketCancelOrderContract) :
    Except ActuatorError (MarketState × ExecutionResult) := do
  let owner ← requireOwner c.ownerAddress
  let order ← orFail (s.orders.lookup c.orderId) .marketOrderMissing
  let account ← orFail (s.accounts.lookup owner) .ownerAccountMissing
  let fee := chain.marketCancelFee.getD 0
  let balance ← checkSub account.balance fee
  let s := disposeFeeToBlackhole chain s fee
  let account ← creditToken fmt { account with balance := balance } order.sellTokenId
    order.sellTokenQuantityRemain
  let s := { s with
    accounts := s.accounts.insert owner account
    orders := s.orders.insert c.orderId order.cancel }
  return (removeFromRecord s owner c.orderId, ⟨fee, []⟩)

/-! ## Transactions -/

inductive MarketTx
  | sell (c : MarketSellAssetContract)
  | cancel (c : MarketCancelOrderContract)
  deriving DecidableEq

def MarketTx.ownerAddress : MarketTx → Bytes
  | sell c => c.ownerAddress
  | cancel c => c.ownerAddress

/-- A transaction that passes its validator is executed.  What a failed one has written is dropped
with the session it is executed in. -/
def apply (chain : Chain) (s : MarketState) :
    MarketTx → Except ActuatorError (MarketState × ExecutionResult)
  | .sell c => do
    validateMarketSellAsset fmt chain s c
    executeMarketSellAsset fmt chain s c
  | .cancel c => do
    validateMarketCancelOrder chain s c
    executeMarketCancelOrder fmt chain s c

/-- The state, and the transactions that were executed with their results. -/
structure Ledger where
  state : MarketState
  executed : List (MarketTx × ExecutionResult)

def step (l : Ledger) (a : Chain × MarketTx) : Ledger :=
  match apply fmt a.1 l.state a.2 with
  | .error _ => l
  | .ok (s, result) => ⟨s, l.executed ++ [(a.2, result)]⟩

def feesCharged (executed : List (MarketTx × ExecutionResult)) (owner : Address) : Int :=
  executed.foldr (fun e acc => (if e.1.ownerAddress = owner.val then e.2.fee else 0) + acc) 0

/-- The orders that were refunded, one entry for each refund. -/
def refunded (executed : List (MarketTx × ExecutionResult)) : List Bytes :=
  executed.filterMap fun e =>
    match e.1 with
    | .sell _ => none
    | .cancel c => some c.orderId

end TronGoblin.Market
