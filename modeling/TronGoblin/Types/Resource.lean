import TronGoblin.Lib.Checked

/-!
# Resource accounting

Model of the windowed averages of `tron-types/src/resource.rs` in hardened mode: what an account has
used of a resource, and the window over which that usage fades.  Intermediate values are `i128`, large
enough for every product of the `i64`s that go in, and are integers here; a cast back to `i64` wraps.

* `windowSize`, `windowSizeV2`: one stored number, read as blocks or as thousandths of a block.
* `increaseAccount`: add usage, with the window recomputed in either form.
* `updateUsage`, `undelegateIncrease`: fade an account's usage; give usage back to an owner.
-/

namespace TronGoblin.Resource

open BigEndian (wrapI64)

inductive ResourceKind
  | bandwidth | energy
  deriving DecidableEq

/-- `ResourceGates`: the proposals that change the computation. -/
structure ResourceGates where
  supportUnfreezeDelay : Bool
  supportAllowCancelAllUnfreezeV2 : Bool
  deriving DecidableEq

def WINDOW_SIZE_BLOCKS : Int := 28800

def PRECISION : Int := 1000000

def WINDOW_SIZE_PRECISION : Int := 1000

/-! ## Accounts -/

structure AccountResource where
  energyUsage : Int
  latestConsumeTimeForEnergy : Int
  energyWindowSize : Int
  energyWindowOptimized : Bool
  deriving DecidableEq

/-- The fields of an account that resource accounting reads and writes. -/
structure Account where
  netUsage : Int
  latestConsumeTime : Int
  netWindowSize : Int
  netWindowOptimized : Bool
  accountResource : Option AccountResource
  deriving DecidableEq

def AccountResource.default : AccountResource := ⟨0, 0, 0, false⟩

def Account.default : Account := ⟨0, 0, 0, false, none⟩

/-- Changes the energy fields, which are created where there are none. -/
def Account.updateEnergy (account : Account) (f : AccountResource → AccountResource) : Account :=
  { account with accountResource := some (f (account.accountResource.getD .default)) }

variable (account : Account) (kind : ResourceKind)

def rawWindow : Int × Bool :=
  match kind with
  | .bandwidth => (account.netWindowSize, account.netWindowOptimized)
  | .energy =>
    match account.accountResource with
    | some r => (r.energyWindowSize, r.energyWindowOptimized)
    | none => (0, false)

def windowSize : Int :=
  let (ws, optimized) := rawWindow account kind
  if ws = 0 then WINDOW_SIZE_BLOCKS
  else if optimized then
    if ws < WINDOW_SIZE_PRECISION then WINDOW_SIZE_BLOCKS else ws.tdiv WINDOW_SIZE_PRECISION
  else ws

def windowSizeV2 : Int :=
  let (ws, optimized) := rawWindow account kind
  if ws = 0 then WINDOW_SIZE_BLOCKS * WINDOW_SIZE_PRECISION
  else if optimized then ws
  else wrapI64 (ws * WINDOW_SIZE_PRECISION)

def windowOptimized : Bool := (rawWindow account kind).2

def setNewWindowSize (v : Int) : Account :=
  match kind with
  | .bandwidth => { account with netWindowSize := v }
  | .energy => account.updateEnergy fun r => { r with energyWindowSize := v }

def setWindowOptimized (b : Bool) : Account :=
  match kind with
  | .bandwidth => { account with netWindowOptimized := b }
  | .energy => account.updateEnergy fun r => { r with energyWindowOptimized := b }

def setNewWindowSizeV2 (v : Int) : Account :=
  let account := setNewWindowSize account kind v
  if !windowOptimized account kind then setWindowOptimized account kind true else account

def usage : Int :=
  match kind with
  | .bandwidth => account.netUsage
  | .energy => (account.accountResource.map (·.energyUsage)).getD 0

def setUsage (v : Int) : Account :=
  match kind with
  | .bandwidth => { account with netUsage := v }
  | .energy => account.updateEnergy fun r => { r with energyUsage := v }

def lastConsumeTime : Int :=
  match kind with
  | .bandwidth => account.latestConsumeTime
  | .energy => (account.accountResource.map (·.latestConsumeTimeForEnergy)).getD 0

def setLatestTime (v : Int) : Account :=
  match kind with
  | .bandwidth => { account with latestConsumeTime := v }
  | .energy => account.updateEnergy fun r => { r with latestConsumeTimeForEnergy := v }

/-! ## Windowed averages -/

inductive Fault
  | divisionByZero
  deriving DecidableEq

/-- Division that rounds towards zero. -/
def quot (a b : Int) : Except Fault Int :=
  if b = 0 then .error .divisionByZero else .ok (a.tdiv b)

def divCeil (a b : Int) : Except Fault Int :=
  if b = 0 then .ok 0
  else do
    let q ← quot a b
    let r := a.tmod b
    return if 0 < r then q + 1 else q

def getUsage (usage window : Int) : Except Fault Int := quot (usage * window) PRECISION

def getUsage2 (oldUsage oldWindow newUsage newWindow : Int) : Except Fault Int :=
  quot (oldUsage * oldWindow + newUsage * newWindow) PRECISION

/-- `get_new_window_size_i128`. -/
def getNewWindowSize (lastUsage lastWindow usage window newUsage : Int) : Except Fault Int :=
  if newUsage = 0 then .ok 0 else quot (lastUsage * lastWindow + usage * window) newUsage

/-- The decay of an average over a part of its window, which the code computes in floating point:
nothing but its range is assumed. -/
structure Decay where
  /-- The window, the time that has passed, and the average. -/
  decayed : Int → Int → Int → Int
  nonneg : ∀ window delta average, 0 ≤ average → 0 ≤ decayed window delta average
  le : ∀ window delta average, 0 ≤ average → decayed window delta average ≤ average

instance : Coe Decay (Int → Int → Int → Int) := ⟨Decay.decayed⟩

variable (decay : Int → Int → Int → Int)

/-- The decay step divides by the window. -/
def applyDecay (window delta average : Int) : Except Fault Int :=
  if window = 0 then .error .divisionByZero else .ok (decay window delta average)

/-- The average of the usage so far, decayed to `now`. -/
def averageLast (oldWindow lastUsage lastTime now : Int) : Except Fault Int := do
  let average ← divCeil (lastUsage * PRECISION) oldWindow
  if lastTime ≠ now then
    if now < wrapI64 (lastTime + oldWindow) then
      applyDecay decay oldWindow (wrapI64 (now - lastTime)) average
    else return 0
  else return average

/-- The usage with the new amount, and what remains of the usage so far. -/
structure Charge where
  newUsage : Int
  remainUsage : Int
  deriving DecidableEq

/-- The part that the two forms of `increase` share. -/
def charge (oldWindow lastUsage usageAmt lastTime now : Int) : Except Fault Charge := do
  let last ← averageLast decay oldWindow lastUsage lastTime now
  let average ← divCeil (usageAmt * PRECISION) WINDOW_SIZE_BLOCKS
  let newUsage ← getUsage2 last oldWindow average WINDOW_SIZE_BLOCKS
  let remainUsage ← getUsage last oldWindow
  return ⟨newUsage, remainUsage⟩

/-! ## The calls -/

def increaseV2Account (lastUsage usageAmt lastTime now : Int) : Except Fault (Account × Int) := do
  let oldWindowV2 := windowSizeV2 account kind
  let c ← charge decay (windowSize account kind) lastUsage usageAmt lastTime now
  let cap := WINDOW_SIZE_BLOCKS * WINDOW_SIZE_PRECISION
  if c.remainUsage = 0 then return (setNewWindowSizeV2 account kind cap, wrapI64 c.newUsage)
  else
    let remainWindow := oldWindowV2 - wrapI64 (now - lastTime) * WINDOW_SIZE_PRECISION
    let newWindow ← divCeil (c.remainUsage * remainWindow +
      usageAmt * WINDOW_SIZE_BLOCKS * WINDOW_SIZE_PRECISION) c.newUsage
    let newWindow := if cap < newWindow then cap else newWindow
    return (setNewWindowSizeV2 account kind (wrapI64 newWindow), wrapI64 c.newUsage)

/-- The form of `increase_account` without the cancel-all proposal. -/
def increaseV1Account (lastUsage usageAmt lastTime now : Int) (gates : ResourceGates) :
    Except Fault (Account × Int) := do
  let oldWindow := windowSize account kind
  let c ← charge decay oldWindow lastUsage usageAmt lastTime now
  if !gates.supportUnfreezeDelay then return (account, wrapI64 c.newUsage)
  else if c.remainUsage = 0 then
    return (setNewWindowSize account kind WINDOW_SIZE_BLOCKS, wrapI64 c.newUsage)
  else
    let remainWindow := wrapI64 (oldWindow - wrapI64 (now - lastTime))
    let newWindow ←
      getNewWindowSize c.remainUsage remainWindow usageAmt WINDOW_SIZE_BLOCKS c.newUsage
    return (setNewWindowSize account kind (wrapI64 newWindow), wrapI64 c.newUsage)

/-- `increase_account`: the account with its new window, and the new usage. -/
def increaseAccount (lastUsage usageAmt lastTime now : Int) (gates : ResourceGates) : Except Fault (Account × Int) :=
  if gates.supportAllowCancelAllUnfreezeV2 then
    increaseV2Account account kind decay lastUsage usageAmt lastTime now
  else increaseV1Account account kind decay lastUsage usageAmt lastTime now gates

def updateUsage (now : Int) (gates : ResourceGates) : Except Fault Account := do
  let (account, new) ← increaseAccount account kind decay (usage account kind) 0
    (lastConsumeTime account kind) now gates
  return setUsage account kind new

/-- The owner's own usage, brought up to date. -/
def ownerIncrease (owner : Account) (now : Int) (gates : ResourceGates) : Except Fault (Account × Int) :=
  increaseAccount owner kind decay (usage owner kind) 0 (lastConsumeTime owner kind) now gates

/-- The usage and the time that `undelegate_increase` stores. -/
def setUsageAt (newUsage now : Int) : Account :=
  setLatestTime (setUsage account kind newUsage) kind now

/-- The part of `undelegate_increase_v2` after the owner's usage is up to date. -/
def giveBackV2 (owner receiver : Account) (ownerUsage transferUsage now : Int) : Except Fault Account :=
  let newOwnerUsage := wrapI64 (ownerUsage + transferUsage)
  let cap := WINDOW_SIZE_BLOCKS * WINDOW_SIZE_PRECISION
  if newOwnerUsage = 0 then return setUsageAt (setNewWindowSizeV2 owner kind cap) kind 0 now
  else do
    let remainOwnerWindow := max (windowSizeV2 owner kind) 0
    let remainReceiverWindow := max (windowSizeV2 receiver kind) 0
    let newOwnerWindow ← divCeil (ownerUsage * remainOwnerWindow +
      transferUsage * remainReceiverWindow) newOwnerUsage
    let newOwnerWindow := if cap < newOwnerWindow then cap else newOwnerWindow
    return setUsageAt (setNewWindowSizeV2 owner kind (wrapI64 newOwnerWindow)) kind newOwnerUsage now

/-- The same part of `undelegate_increase` without the cancel-all proposal. -/
def giveBackV1 (owner receiver : Account) (ownerUsage transferUsage now : Int) : Except Fault Account :=
  let remainOwnerWindow := max (windowSize owner kind) 0
  let remainReceiverWindow := max (windowSize receiver kind) 0
  let newOwnerUsage := wrapI64 (ownerUsage + transferUsage)
  if newOwnerUsage = 0 then
    return setUsageAt (setNewWindowSize owner kind WINDOW_SIZE_BLOCKS) kind 0 now
  else do
    let newOwnerWindow ← getNewWindowSize ownerUsage remainOwnerWindow transferUsage
      remainReceiverWindow newOwnerUsage
    return setUsageAt (setNewWindowSize owner kind (wrapI64 newOwnerWindow)) kind newOwnerUsage now

def undelegateIncrease (owner receiver : Account) (transferUsage now : Int) (gates : ResourceGates) :
    Except Fault Account := do
  let (owner, ownerUsage) ← ownerIncrease kind decay owner now gates
  if gates.supportAllowCancelAllUnfreezeV2 then
    giveBackV2 kind owner receiver ownerUsage transferUsage now
  else giveBackV1 kind owner receiver ownerUsage transferUsage now

/-! ## Sequences of calls -/

inductive Op (ι : Type)
  | increaseAccount (lastUsage usageAmt lastTime : Int)
  | updateUsage
  | undelegateIncrease (receiver : ι) (transferUsage : Int)

/-- A call for one resource of one account, the owner where usage is given back. -/
structure Call (ι : Type) where
  account : ι
  kind : ResourceKind
  now : Int
  gates : ResourceGates
  op : Op ι

/-- The accounts, and the latest slot of a call. -/
structure World (ι : Type) where
  accounts : ι → Account
  now : Int

def World.start (ι : Type) : World ι := ⟨fun _ => .default, 0⟩

variable {ι : Type} [DecidableEq ι]

/-- A call: the account it leaves, and the usage it returns or stores. -/
def Call.result (w : World ι) (c : Call ι) : Except Fault (Account × Int) :=
  let account := w.accounts c.account
  match c.op with
  | .increaseAccount lastUsage usageAmt lastTime =>
    Resource.increaseAccount account c.kind decay lastUsage usageAmt lastTime c.now c.gates
  | .updateUsage => do
    let account ← Resource.updateUsage account c.kind decay c.now c.gates
    return (account, usage account c.kind)
  | .undelegateIncrease receiver transferUsage => do
    let account ← Resource.undelegateIncrease c.kind decay account (w.accounts receiver) transferUsage
      c.now c.gates
    return (account, usage account c.kind)

/-- The world after a call; after a fault nothing is changed. -/
def step (w : World ι) (c : Call ι) : World ι :=
  match c.result decay w with
  | .ok (account, _) => ⟨Function.update w.accounts c.account account, c.now⟩
  | .error _ => w

end TronGoblin.Resource
