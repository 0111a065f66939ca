import TronGoblin.Lib.KvMap

/-!
# Store backends

Keys and values are byte strings, a `WriteOp` is a put or a delete, and the contents of a store are
a total map (`tron-chainbase/src/backend.rs`).  `StoreId` enumerates the stores a block may write,
with the database name each has on disk (`stores/block_undo_store.rs`).
-/

namespace TronGoblin

abbrev Bytes := List UInt8

/-- `WriteOp::Put` carries `some value`, `WriteOp::Delete` carries `none`. -/
abbrev WriteOp := Kv.Write Bytes Bytes

abbrev Contents := Kv.Map Bytes Bytes

/-- The stores a block may write. -/
inductive StoreId
  | accounts | witnesses | votes | delegation | delegatedResources | dynProps | proposals
  | nameIndex | idIndex | assetV1 | assetV2 | contracts | abi | exchangeV1 | exchangeV2
  | marketOrders | nullifiers | merkleTrees | code | storageRow | contractState | blockIndex
  | witnessSchedule | delegatedResourceAccountIndex | marketAccount
  deriving DecidableEq

namespace StoreId

/-- The database name of a store on disk. -/
def dbName : StoreId → String
  | accounts => "account"
  | witnesses => "witness"
  | votes => "votes"
  | delegation => "delegation"
  | delegatedResources => "DelegatedResource"
  | dynProps => "properties"
  | proposals => "proposal"
  | nameIndex => "account-index"
  | idIndex => "accountid-index"
  | assetV1 => "asset-issue"
  | assetV2 => "asset-issue-v2"
  | contracts => "contract"
  | abi => "abi"
  | exchangeV1 => "exchange"
  | exchangeV2 => "exchange-v2"
  | marketOrders => "market_order"
  | nullifiers => "nullifier"
  | merkleTrees => "IncrementalMerkleTree"
  | code => "code"
  | storageRow => "storage-row"
  | contractState => "contract-state"
  | blockIndex => "block-index"
  | witnessSchedule => "witness_schedule"
  | delegatedResourceAccountIndex => "DelegatedResourceAccountIndex"
  | marketAccount => "market_account"

/-- The stores that `StateBackends` holds as an `Option`. -/
def isOptional : StoreId → Bool
  | delegatedResourceAccountIndex | merkleTrees | code | storageRow | contractState | blockIndex
  | witnessSchedule => true
  | _ => false

/-- The stores in the order in which a commit visits them: the mandatory ones, then the optional
ones. -/
def commitOrder : List StoreId :=
  [accounts, witnesses, votes, delegation, delegatedResources, dynProps, proposals, nameIndex,
    idIndex, assetV1, assetV2, contracts, abi, exchangeV1, exchangeV2, marketOrders, marketAccount,
    nullifiers, delegatedResourceAccountIndex, merkleTrees, code, storageRow, contractState,
    blockIndex, witnessSchedule]

theorem mem_commitOrder (id : StoreId) : id ∈ commitOrder := by
  cases id <;> decide

theorem dbNames_nodup : (commitOrder.map dbName).Nodup := by decide

theorem dbName_injective : Function.Injective dbName := fun a b h =>
  List.inj_on_of_nodup_map dbNames_nodup (mem_commitOrder a) (mem_commitOrder b) h

/-- `store as u8`: the discriminants count up in the order of declaration. -/
def toU8 (id : StoreId) : UInt8 := UInt8.ofNat id.ctorIdx

/-- `from_u8`: its arms count up from `0`. -/
def fromU8 (b : UInt8) : Option StoreId :=
  [accounts, witnesses, votes, delegation, delegatedResources, dynProps, proposals, nameIndex, idIndex, assetV1, assetV2,
    contracts, abi, exchangeV1, exchangeV2, marketOrders, nullifiers, merkleTrees, code, storageRow, contractState,
    blockIndex, witnessSchedule, delegatedResourceAccountIndex, marketAccount][b.toNat]?

theorem fromU8_toU8 (id : StoreId) : fromU8 id.toU8 = some id := by
  cases id <;> rfl

theorem toU8_injective : Function.Injective toU8 := fun a b h =>
  Option.some.inj (by rw [← fromU8_toU8, h, fromU8_toU8])

end StoreId

end TronGoblin
