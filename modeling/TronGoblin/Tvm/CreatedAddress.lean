import TronGoblin.Chainbase.Backend

/-!
# The address of a created contract

Where `execute_create` installs a contract (`execute.rs`), the address on its receipt (`vm_contract_address` of
`index_hook.rs`), and its receiver in the index and the firehose (`native_participants` of `extract.rs`).

* `names_created_iff`: all of them name one address exactly where the two orders of the hash input are one.
-/

namespace TronGoblin.Created

open List

structure SmartContract where
  bytecode : Bytes
  callValue : Int

structure CreateSmartContract where
  ownerAddress : Bytes
  newContract : Option SmartContract

inductive ContractType
  | triggerSmartContract | createSmartContract | other

structure Contract where
  type : ContractType
  parameter : Bytes

/-- The contracts of `raw_data`. -/
structure Transaction where
  contract : List Contract

structure NativeTemplate where
  source : Bytes
  dest : Option Bytes
  amount : Int

/-- Addresses with their directions, as bits. -/
abbrev Participants := List (Bytes × Nat)

/-- What is not modelled: the hash, the decoders, the run of the init code, and the other types' rows. -/
structure Env where
  keccak256 : Bytes → Bytes
  decode : Bytes → Option CreateSmartContract
  walk : Bytes → Option CreateSmartContract
  triggered : Bytes → Option Bytes
  succeeds : Bytes → CreateSmartContract → Bool
  natives : Transaction → Option (NativeTemplate × Participants)

variable (env : Env) (tx : Transaction) (txId : Bytes)

/-- The strict decoder first, and the walk that skips fields where it fails. -/
def decodeLenient (param : Bytes) : Option CreateSmartContract := (env.decode param).or (env.walk param)

def deriveTopLevelContractAddress (owner : Bytes) : Bytes := 0x41 :: (env.keccak256 (txId ++ owner)).drop 12

def createdContractAddress (owner : Bytes) : Bytes := 0x41 :: (env.keccak256 (owner ++ txId)).drop 12

inductive VmOutcome
  | preflightError
  | failed
  | success (installed : Bytes)
  deriving DecidableEq

/-- The account that is installed first stays if the run of the init code succeeds. -/
def executeCreate (contract : CreateSmartContract) : VmOutcome :=
  if contract.newContract.isNone then .preflightError
  else if contract.ownerAddress.length ≠ 21 ∨ contract.ownerAddress.head? ≠ some 0x41 then .preflightError
  else
    let address := deriveTopLevelContractAddress env txId contract.ownerAddress
    if env.succeeds address contract then .success address else .failed

def vmContractAddress : Bytes :=
  match tx.contract.head? with
  | none => []
  | some contract =>
    match contract.type with
    | .triggerSmartContract => (env.triggered contract.parameter).getD []
    | .createSmartContract =>
      match decodeLenient env contract.parameter with
      | none => []
      | some c => createdContractAddress env txId c.ownerAddress
    | .other => []

def addr21 (bytes : Bytes) : Option Bytes :=
  if bytes.length = 21 then some bytes else if bytes.length = 20 then some (0x41 :: bytes) else none

def involve (parts : Participants) (address : Option Bytes) (dir : Nat) : Participants :=
  match address with
  | none => parts
  | some a => parts.eraseP (·.1 = a) ++ [(a, (parts.lookup a).getD 0 ||| dir)]

def DIR_FROM : Nat := 1

def DIR_TO : Nat := 2

def nativeParticipants : Option (NativeTemplate × Participants) :=
  match tx.contract.head? with
  | none => none
  | some contract =>
    match contract.type with
    | .createSmartContract => (env.decode contract.parameter).map fun c =>
      let created := createdContractAddress env txId c.ownerAddress
      (⟨c.ownerAddress, some created, (c.newContract.map (·.callValue)).getD 0⟩,
        involve (involve [] (addr21 c.ownerAddress) DIR_FROM) (some created) DIR_TO)
    | _ => env.natives tx

def txFacts : Option NativeTemplate := (nativeParticipants env tx txId).map (·.1)

/-- The rows of `idx_native`, with their addresses and directions. -/
def nativeRows : List (Bytes × Nat × NativeTemplate) :=
  match nativeParticipants env tx txId with
  | none => []
  | some (template, parts) => parts.map fun p => (p.1, p.2, template)

variable {env tx txId}

theorem executeCreate_success {c : CreateSmartContract} {installed : Bytes}
    (h : executeCreate env txId c = .success installed) :
    installed = deriveTopLevelContractAddress env txId c.ownerAddress := by
  simp only [executeCreate] at h
  split_ifs at h
  exact (VmOutcome.success.inj h).symm

/-- The receipt, the rows of the index and the facts of the firehose name this contract. -/
def NamesCreated (env : Env) (tx : Transaction) (txId installed : Bytes) : Prop :=
  vmContractAddress env tx txId = installed ∧ nativeRows env tx txId ≠ [] ∧
    (∀ row ∈ nativeRows env tx txId, row.2.2.dest = some installed) ∧
    (txFacts env tx txId).bind (·.dest) = some installed

/-- **Who names the created contract.**  The receipt, the rows and the facts of a creation that succeeds name the
contract exactly where the strict decoder takes the parameter, and the id and the owner commute. -/
theorem names_created_iff {param installed : Bytes} {c : CreateSmartContract} {rest : List Contract}
    (htx : tx.contract = ⟨.createSmartContract, param⟩ :: rest) (hparam : decodeLenient env param = some c)
    (hrun : executeCreate env txId c = .success installed)
    (hfree : (env.keccak256 (txId ++ c.ownerAddress)).drop 12 = (env.keccak256 (c.ownerAddress ++ txId)).drop 12 →
      txId ++ c.ownerAddress = c.ownerAddress ++ txId) :
    NamesCreated env tx txId installed ↔
      (env.decode param).isSome ∧ txId ++ c.ownerAddress = c.ownerAddress ++ txId := by
  rw [executeCreate_success hrun, NamesCreated]
  have hreceipt : vmContractAddress env tx txId = createdContractAddress env txId c.ownerAddress := by
    simp [vmContractAddress, htx, hparam]
  have haddress : createdContractAddress env txId c.ownerAddress =
      deriveTopLevelContractAddress env txId c.ownerAddress ↔ txId ++ c.ownerAddress = c.ownerAddress ++ txId := by
    simp only [createdContractAddress, deriveTopLevelContractAddress, cons.injEq, true_and]
    exact ⟨fun h => hfree h.symm, fun h => by rw [h]⟩
  cases hdecode : env.decode param with
  | none => simp [nativeRows, nativeParticipants, htx, hdecode]
  | some c' =>
    obtain rfl : c' = c := by simpa [decodeLenient, hdecode] using hparam
    simp only [hreceipt, haddress, nativeRows, txFacts, nativeParticipants, htx, hdecode, head?_cons,
      Option.map_some, Option.isSome_some, true_and]
    refine ⟨fun h => h.1, fun h => ⟨h, by simp [involve], fun row hrow => ?_, by simp [haddress.2 h]⟩⟩
    obtain ⟨p, -, rfl⟩ := mem_map.1 hrow
    exact congrArg some (haddress.2 h)

def sampleOwner : Bytes := 0x41 :: replicate 20 0

/-- The contract with this owner and an empty `new_contract`. -/
def sampleParameter : Bytes := [0x0a, 21] ++ sampleOwner ++ [0x12, 0]

/-- A hash of 32 bytes that shows the first byte. -/
def sampleEnv : Env where
  keccak256 b := replicate 31 0 ++ [b.headD 0]
  decode b := if b = sampleParameter then some ⟨sampleOwner, some ⟨[], 0⟩⟩ else none
  walk _ := none
  triggered _ := none
  succeeds _ _ := true
  natives _ := none

def sampleTx : Transaction := ⟨[⟨.createSmartContract, sampleParameter⟩]⟩

def sampleId : Bytes := replicate 32 1

def sampleInstalled : Bytes := 0x41 :: replicate 19 0 ++ [1]

theorem names_created_iff_sample :
    NamesCreated sampleEnv sampleTx sampleId sampleInstalled ↔
      (sampleEnv.decode sampleParameter).isSome ∧ sampleId ++ sampleOwner = sampleOwner ++ sampleId :=
  names_created_iff (c := ⟨sampleOwner, some ⟨[], 0⟩⟩) rfl rfl (by decide) (by decide)

/-- **The receipt names another address.** -/
theorem receipt_names_other :
    executeCreate sampleEnv sampleId ⟨sampleOwner, some ⟨[], 0⟩⟩ = .success sampleInstalled ∧
      vmContractAddress sampleEnv sampleTx sampleId ≠ sampleInstalled := by
  decide

end TronGoblin.Created
