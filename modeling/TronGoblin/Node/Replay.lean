import TronGoblin.Node.AcceptRuns

/-!
# Replayed transactions

Whether a transaction can take effect twice on the executed chain.  A block is checked for its root, its
signature, its slot and the references of its transactions, and each transaction for its size and its
expiration; nowhere is an id compared with those executed before.

* `executeTxs_refused`: a transaction that is refused leaves the ledger alone.
* `txs_take_effect_once`: no transaction takes effect twice, after any calls, if every transaction that
  stands on the chain again is refused by those checks.
* `tx_takes_effect_twice`: a block of the scheduled witness with one transfer in it twice.

The expiration window is a day long, and is not looked at when no expiration is set.
-/

namespace TronGoblin.Accept

open List

open Proto (Block BlockHeader HeaderRaw)

variable {T σ : Type}

/-! ## What refused transactions do -/

def ExecutedTx.Changed (t : ExecutedTx T σ) : Prop := t.after ≠ t.before

/-- If the checks before the contract refuse the transaction, it does nothing. -/
def ExecutedTx.Refusable (env : Env T σ) (t : ExecutedTx T σ) : Prop :=
  (refusal env t.headTime t.tx).isSome → ¬ t.Changed

theorem executeOneTx_refused {env : Env T σ} {headTime : Int} {tx : T}
    (h : (refusal env headTime tx).isSome) (block : Block T) (id : TxId) (l : Ledger σ) :
    executeOneTx env block headTime tx id l = l := by
  obtain ⟨reason, hreason⟩ := Option.isSome_iff_exists.1 h
  simp [executeOneTx, hreason]

theorem executeTxs_refused (env : Env T σ) (block : Block T) (headTime : Int) :
    ∀ (txs : List (T × Option TxId)) (l : Ledger σ), ∀ t ∈ (executeTxs env block headTime txs l).1, t.Refusable env
  | [], _, t, ht => by cases ht
  | (tx, wire) :: rest, l, t, ht => by
    rcases mem_cons.1 ht with rfl | ht
    · intro hrefused hchanged
      exact hchanged (executeOneTx_refused hrefused block _ l)
    · exact executeTxs_refused env block headTime rest _ t ht

/-- A block that was executed is the newest of the chain, after the ones before it. -/
theorem executeBlock_executed {env : Env T σ} {b : WireBlock (Block T)} {parent : Option BlockId}
    {s s' : ChainState T σ} (h : executeBlock env b parent s = .ok s') :
    ∃ l : Ledger σ, s'.executed =
      ⟨b.block, (executeTxs env b.block (headBlockTime env s.ledger)
        (withWireIds b.block (b.raw.bind env.txWireIds)) l).1⟩ :: s.executed := by
  simp only [executeBlock, Checked.bind_eq_ok, Checked.pure_eq_ok] at h
  obtain ⟨raw, -, rest, -, e, -, rfl⟩ := h
  exact ⟨_, rfl⟩

theorem positions_of_executed {s s' : ChainState T σ} {e : ExecutedBlock T σ}
    (h : s'.executed = e :: s.executed) : s'.positions = s.positions ++ e.txs := by
  simp [ChainState.positions, h]

theorem refusable_keptByExecution (env : Env T σ) :
    KeptByExecution env fun s => ∀ t ∈ s.positions, t.Refusable env := by
  intro b parent s s' hs h t ht
  obtain ⟨l, hexecuted⟩ := executeBlock_executed h
  rw [positions_of_executed hexecuted] at ht
  rcases mem_append.1 ht with ht | ht
  · exact hs t ht
  · exact executeTxs_refused env b.block _ _ l t ht

/-! ## At most once -/

/-- No two positions have the same id and both changed the state. -/
def TakeEffectOnce (positions : List (ExecutedTx T σ)) : Prop :=
  positions.Pairwise fun p q => p.id = q.id → ¬ (p.Changed ∧ q.Changed)

/-- A transaction whose id stands on the chain before it is refused by the checks before its contract. -/
def RepeatsRefused (env : Env T σ) (positions : List (ExecutedTx T σ)) : Prop :=
  positions.Pairwise fun p q => p.id = q.id → (refusal env q.headTime q.tx).isSome

/-- **At most once, where the checks refuse repetitions.**  The chain is counted from the starting
state, and the calls are arbitrary. -/
theorem txs_take_effect_once (env : Env T σ) (d : Driver T σ) (hstart : d.AllStates fun s => s.executed = [])
    (calls : List (Block T × Option Bytes)) (hrepeats : RepeatsRefused env (run env d calls).state.positions) :
    TakeEffectOnce (run env d calls).state.positions := by
  have hd : d.AllStates fun s => ∀ t ∈ s.positions, t.Refusable env := by
    refine hstart.imp fun s hs t ht => ?_
    simp [ChainState.positions, hs] at ht
  have hrefusable := (run_keeps (refusable_keptByExecution env) calls d hd).current
  refine Pairwise.imp_of_mem ?_ hrepeats
  intro p q _ hq hrefused hid hboth
  exact hrefusable q hq (hrefused hid) hboth.2

/-! ## A chain of transfers -/

namespace Transfers

/-- A stand-in for the hash: the bytes read as digits in base 257. -/
def sha256 (bytes : Bytes) : Hash256 :=
  let n := bytes.foldl (fun acc b => acc * 257 + b.toNat + 1) 0
  Vector.ofFn fun i : Fin 32 => (n / 256 ^ i.val % 256).toUInt8

def producer : Address := ⟨0x41 :: replicate 20 0x41, rfl⟩

/-- The header of a block in the given slot. -/
def header (slot : Int) (parentHash txTrieRoot : Bytes) : HeaderRaw where
  timestamp := 3000 * slot
  txTrieRoot := txTrieRoot
  parentHash := parentHash
  number := slot
  witnessId := 0
  witnessAddress := producer.val
  version := 34
  accountStateRoot := []

def idOf (raw : HeaderRaw) : BlockId := BigEndian.encodeI64 raw.number ++ (sha256 raw.encode).toList.drop 8

/-- A transfer: an amount, and an expiration. -/
abbrev Transfer := Nat × Int

def encode (tx : Transfer) : Bytes := BigEndian.encodeI64 tx.2 ++ [tx.1.toUInt8]

/-- The block with the given transfers, signed. -/
def blockOf (slot : Int) (parent : BlockId) (txs : List Transfer) : Block Transfer where
  transactions := txs
  blockHeader := some
    ⟨some (header slot parent (((calcTxTrieRoot sha256 encode txs).map (·.toList)).getD [])), [1]⟩

/-- The header of the block that the chain starts from. -/
def first : HeaderRaw := header 1 (replicate 32 0) []

/-- Every transfer refers to the first block, and adds its amount. -/
def env : Env Transfer Nat where
  sha256 := sha256
  encodeTransaction := encode
  rawOf tx := some ⟨[0, 1], ((idOf first).drop 8).take 8, tx.2, 1⟩
  encodeRaw := encode
  txWireIds _ := none
  verifyWitness block _ :=
    Checked.require (block.blockHeader.any (·.witnessSignature = [1])) "not signed"
  headSlot _ := 0
  writeParentHash _ l := .ok l.rest
  runContract _ tx _ l := some ⟨[], l.rest + tx.1⟩
  finishBlock _ l := .ok ⟨false, l.allowConsensusLogicOptimization, l.active, l.rest⟩
  verifyTxTrie := true
  requireSignature := true
  strictRefBlock := true

/-- The first block has been executed, and its producer is the only witness. -/
def start : Driver Transfer Nat where
  view := {
    state := {
      ledger := {
        latestBlockHeaderHash := some (idOf first)
        latestBlockHeaderNumber := some 1
        latestBlockHeaderTimestamp := some 3000
        genesisBlockTimestamp := some 0
        headWasMaintenance := false
        allowConsensusLogicOptimization := true
        active := some [producer]
        witnesses := AList.singleton producer 1
        rest := 0 }
      executed := [] }
    solidified := 0 }
  versions := .undo ∅
  khaos := (KhaosDb.Inner.new.start env.fmt (blockOf 1 (replicate 32 0) [])).2
  khaosStarted := true
  blockStore := AList.singleton (idOf first) (blockOf 1 (replicate 32 0) [])
  blockIndex := AList.singleton 1 (idOf first)
  readyOrphans := []

theorem start_fresh : start.AllStates fun s => s.executed = [] :=
  ⟨rfl, fun _ _ h => by cases h⟩

/-- A transfer in the second block, and again in the third. -/
def again : List (Block Transfer × Option Bytes) :=
  let second := blockOf 2 (idOf first) [(5, 4000)]
  [(second, none), (blockOf 3 ((second.raw.map idOf).getD []) [(5, 4000), (6, 9000)], none)]

/-- The second time the transfer has expired. -/
theorem txs_take_effect_once_again :
    RepeatsRefused env (run env start again).state.positions ∧
      TakeEffectOnce (run env start again).state.positions := by
  have hrepeats : RepeatsRefused env (run env start again).state.positions := by
    unfold RepeatsRefused
    decide +kernel
  exact ⟨hrepeats, txs_take_effect_once env start start_fresh again hrepeats⟩

/-- One transfer, at both positions of a block. -/
def twice : Block Transfer := blockOf 2 (idOf first) [(5, 9000), (5, 9000)]

/-- All that is hashed on the way: the transfer, the two leaves, the two headers. -/
def hashed : List Bytes :=
  let leaf := sha256 (encode (5, 9000))
  [encode (5, 9000), leaf.toList ++ leaf.toList, first.encode, ((twice.raw).map (·.encode)).getD []]

/-- The ids, and the ledger's sum before and after. -/
def sums (ps : List (ExecutedTx Transfer Nat)) : List (TxId × Nat × Nat) :=
  ps.map fun t => (t.id, t.before.rest, t.after.rest)

theorem changed_of_sum {t : ExecutedTx Transfer Nat} (h : t.before.rest ≠ t.after.rest) : t.Changed :=
  fun heq => h (congrArg Ledger.rest heq.symm)

theorem not_once_of_sums {ps : List (ExecutedTx Transfer Nat)} {id : TxId} {a b c : Nat}
    (h : sums ps = [(id, a, b), (id, b, c)]) (hab : a ≠ b) (hbc : b ≠ c) : ¬ TakeEffectOnce ps := by
  obtain ⟨p, rest, rfl, hp, hrest⟩ := map_eq_cons_iff.1 h
  obtain ⟨q, rest, rfl, hq, -⟩ := map_eq_cons_iff.1 hrest
  simp only [Prod.mk.injEq] at hp hq
  intro honce
  have hpair := rel_of_pairwise_cons honce mem_cons_self (hp.1.trans hq.1.symm)
  exact hpair ⟨changed_of_sum (by rwa [hp.2.1, hp.2.2]), changed_of_sum (by rwa [hq.2.1, hq.2.2])⟩

/-- The block is accepted, and the transfer takes effect twice. -/
theorem tx_takes_effect_twice :
    (hashed.map sha256).Nodup ∧ env.strictRefBlock = true ∧
      (acceptBlock env twice none start).1 = .accepted ((twice.raw.map idOf).getD []) ∧
      ¬ TakeEffectOnce (run env start [(twice, none)]).state.positions := by
  have hsums : sums (run env start [(twice, none)]).state.positions =
      [((sha256 (encode (5, 9000))).toList, 0, 5), ((sha256 (encode (5, 9000))).toList, 5, 10)] := by
    decide +kernel
  exact ⟨by decide +kernel, rfl, by decide +kernel, not_once_of_sums hsums (by decide) (by decide)⟩

end Transfers

end TronGoblin.Accept
