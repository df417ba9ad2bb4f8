import MidnightRs.Reservations

/-!
A wallet's builds: what a build context gets from the wallet, and how a build
reserves what it spends. The builders themselves are parameters here, each a
function of what it reads; the wallet's lock is held from the funding to the
reservation, so every operation is one step. Disk writes are not modelled.
-/
namespace MidnightRs.WalletBuilds

open Reservations

/-- The times of a block context. -/
structure BlockContext where
  tblock : Timestamp
  lastBlockTime : Timestamp
deriving DecidableEq, Repr

/-- Durations are signed whole seconds. -/
abbrev Duration := ℤ

def addDuration (t : Timestamp) (d : Duration) : Timestamp := ((t : ℤ) + d).toNat

structure LedgerParameters where
  globalTtl : Duration
  dustGracePeriod : Duration
deriving DecidableEq, Repr

structure TrackedUtxo where
  tokenType : Bytes
  value : ℕ
  intentHash : Bytes
  outputIndex : ℕ
  ctime : Option ℤ
  registeredForDustGeneration : Option Bool
deriving DecidableEq, Repr

def TrackedUtxo.spentKey (u : TrackedUtxo) : SpentUtxoKey := ⟨u.intentHash, u.outputIndex⟩

structure Coin where
  nullifier : Nullifier
  tokenType : Bytes
  value : ℕ
deriving DecidableEq, Repr

/-- The Dust a wallet tracks, and the nullifiers its selection skips. -/
structure DustWallet where
  dustLocalState : Option (List DustNullifier)
  spentUtxos : List DustNullifier
deriving DecidableEq, Repr

/-- With the current state passed back, only the spent set grows. -/
def DustWallet.markSpent (d : DustWallet) (spends : List DustSpend)
    (state : List DustNullifier) : DustWallet :=
  ⟨some state, d.spentUtxos ++ spends.map DustSpend.oldNullifier⟩

structure ContextWallet where
  coins : List Coin
  dust : DustWallet
deriving DecidableEq, Repr

/-- A build context, with the view of the one wallet that funds it. -/
structure BuildContext where
  parameters : LedgerParameters
  latestBlockContext : Option BlockContext
  utxos : List TrackedUtxo
  wallet : Option ContextWallet
deriving DecidableEq, Repr

structure Wallet where
  coins : List Coin
  dustWallet : DustWallet
  unshieldedUtxos : List TrackedUtxo
  parameters : LedgerParameters
  blockContext : Option BlockContext
  pending : PendingReservations
deriving DecidableEq, Repr

/-- What the ledger's helpers decide: the block context they report for a
context with no block, whether they accept the genesis settings, and how they
print an input. -/
structure Helpers where
  noBlock : BlockContext
  genesisSettings : LedgerParameters → Except String Unit
  showNullifier : Nullifier → String
  showKey : SpentUtxoKey → String

/-- A build fails with an error, or panics and leaves the wallet as it stands. -/
inductive Failure where
  | error (e : WalletError)
  | panicked
deriving DecidableEq, Repr

abbrev Result (α : Type) := Except Failure α

/-- The latest chain time that a block context knows. -/
def chainTime (bc : BlockContext) : Timestamp := max bc.tblock bc.lastBlockTime

def dustAnchor (lastDustBlockTime previous : Option Timestamp) (chainNow : Timestamp)
    (parameters : LedgerParameters) : Timestamp :=
  let window := min parameters.globalTtl parameters.dustGracePeriod
  match (lastDustBlockTime.map (fun t => t + 1)).or previous with
  | some t => if chainNow ≤ addDuration t window then t else chainNow
  | none => chainNow

namespace BuildContext

variable (h : Helpers)

def block (ctx : BuildContext) : BlockContext := ctx.latestBlockContext.getD h.noBlock

/-- The longest TTL that the chain accepts for an intent built on the context. -/
def longestTtl (ctx : BuildContext) : Timestamp :=
  addDuration (chainTime (ctx.block h)) ctx.parameters.globalTtl

end BuildContext

/-- What a builder assembled: the inputs it names, and the TTL of each intent of
its transaction. -/
structure Draft where
  dustBatches : List DustSpendBatch
  spentUnshieldedInputs : List SpentUtxoKey
  spentShieldedInputs : List Nullifier
  intentTtls : List Timestamp
deriving DecidableEq, Repr

/-- What the build reports to have spent, under one stamp. -/
def Draft.spentInputs (d : Draft) (reservedAt : Timestamp) : SpentInputs where
  dust := SpentInputs.stamped
    (d.dustBatches.flatMap (fun b => b.spends.map DustSpend.oldNullifier)) reservedAt
  unshielded := SpentInputs.stamped d.spentUnshieldedInputs reservedAt
  shielded := SpentInputs.stamped d.spentShieldedInputs reservedAt

/-- A coin the wallet already spent for a builder. -/
structure PreparedInput where
  tokenType : Bytes
  value : ℕ
deriving DecidableEq, Repr

/-- The UTXOs the wallet put toward a build, and the change they leave. -/
structure PreparedUnshielded where
  change : Option ℕ
  spent : List SpentUtxoKey
deriving DecidableEq, Repr

structure PreparedTransfer where
  dustBatches : List DustSpendBatch
  spentUnshieldedInputs : List SpentUtxoKey
  spentShieldedInputs : List Nullifier
  reservedAt : Timestamp
  expiresAt : Timestamp
deriving DecidableEq, Repr

namespace PreparedTransfer

/-- The stamp is the block time of the context, the expiry the earliest TTL of
the intents, or the longest one for a transaction with none. -/
def new (h : Helpers) (ctx : BuildContext) (draft : Draft) : PreparedTransfer where
  dustBatches := draft.dustBatches
  spentUnshieldedInputs := draft.spentUnshieldedInputs
  spentShieldedInputs := draft.spentShieldedInputs
  reservedAt := (ctx.block h).tblock
  expiresAt := draft.intentTtls.min?.getD (ctx.longestTtl h)

def spentInputs (p : PreparedTransfer) : SpentInputs where
  dust := SpentInputs.stamped
    (p.dustBatches.flatMap (fun b => b.spends.map DustSpend.oldNullifier)) p.reservedAt
  unshielded := SpentInputs.stamped p.spentUnshieldedInputs p.reservedAt
  shielded := SpentInputs.stamped p.spentShieldedInputs p.reservedAt

@[simp] theorem spentInputs_new (h : Helpers) (ctx : BuildContext) (draft : Draft) :
    (new h ctx draft).spentInputs = draft.spentInputs (ctx.block h).tblock := rfl

/-- The entries that reserving the build adds. -/
def made (p : PreparedTransfer) : PendingReservations :=
  .made p.dustBatches p.spentUnshieldedInputs p.spentShieldedInputs p.reservedAt p.expiresAt

end PreparedTransfer

namespace Wallet

def reservePending (w : Wallet) (dustBatches : List DustSpendBatch)
    (unshielded : List SpentUtxoKey) (shielded : List Nullifier)
    (reservedAt expiresAt : Timestamp) : Wallet :=
  { w with pending := w.pending.reserve dustBatches unshielded shielded reservedAt expiresAt }

/-- Reserve what `prepared` spends. -/
def reserve (w : Wallet) (prepared : PreparedTransfer) : Wallet :=
  w.reservePending prepared.dustBatches prepared.spentUnshieldedInputs
    prepared.spentShieldedInputs prepared.reservedAt prepared.expiresAt

def release (w : Wallet) (spent : SpentInputs) : Wallet :=
  { w with pending := w.pending.release spent.dust spent.unshielded spent.shielded }

/-- With no block context every reservation holds, as no eviction runs. -/
def reservationHolds (w : Wallet) (expiresAt : Timestamp) : Bool :=
  w.blockContext.all (fun bc => withinTtl expiresAt (chainTime bc))

def reservedShieldedNullifiers (w : Wallet) : List Nullifier :=
  (w.pending.shielded.filter (fun e => w.reservationHolds e.expiresAt)).map
    PendingShieldedSpend.nullifier

def reservedUnshieldedKeys (w : Wallet) : List SpentUtxoKey :=
  (w.pending.unshielded.filter (fun e => w.reservationHolds e.expiresAt)).map
    PendingUnshieldedSpend.key

def reservedDustNullifiers (w : Wallet) : List DustNullifier :=
  (w.pending.dust.filter (fun b => w.reservationHolds b.expiresAt)).flatMap
    (fun b => b.spends.map DustSpend.oldNullifier)

def executionContext (h : Helpers) (w : Wallet) : Except WalletError BuildContext :=
  match h.genesisSettings w.parameters with
  | .ok () => .ok ⟨w.parameters, w.blockContext, [], none⟩
  | .error e => .error (.sync s!"construct ledger state: {e}")

/-- Evicts against the chain time of the block context. -/
def evict (w : Wallet) : Wallet :=
  match w.blockContext with
  | some bc => { w with pending := w.pending.evictExpired (chainTime bc) }
  | none => w

def spendableUtxos (w : Wallet) : List TrackedUtxo :=
  w.unshieldedUtxos.filter (fun u => !w.reservedUnshieldedKeys.contains u.spentKey)

def spendableCoins (w : Wallet) : List Coin :=
  w.coins.filter (fun c => !w.reservedShieldedNullifiers.contains c.nullifier)

def alreadyFunds : WalletError :=
  .transfer "this wallet already funds the context; build a fresh one"

def noDustState (pendingDust : ℕ) : WalletError :=
  .transfer (s!"wallet has {pendingDust} pending dust reservation(s) but no dust " ++
    "state; wait for dust sync before building")

/-- The Dust of the wallet with every pending batch marked as spent. -/
def fundedDust (w : Wallet) : Except WalletError DustWallet :=
  match w.dustWallet.dustLocalState with
  | some state => .ok (w.pending.dust.foldl (fun d b => d.markSpent b.spends state) w.dustWallet)
  | none => if w.pending.dust.isEmpty then .ok w.dustWallet
    else .error (noDustState w.pending.dust.length)

/-- The wallet's view goes into the context, less what a pending build reserved.
The block context goes with it, so both are of one chain view. -/
def fund (w : Wallet) (ctx : BuildContext) : BuildContext × Except WalletError Unit :=
  match w.fundedDust with
  | .error e =>
    (⟨ctx.parameters, w.blockContext, ctx.utxos ++ w.spendableUtxos, ctx.wallet⟩, .error e)
  | .ok dust =>
    (⟨ctx.parameters, w.blockContext, ctx.utxos ++ w.spendableUtxos,
      some ⟨w.spendableCoins, dust⟩⟩, .ok ())

def addFunding (w : Wallet) (ctx : BuildContext) :
    Wallet × BuildContext × Except WalletError Unit :=
  if ctx.wallet.isSome then (w, ctx, .error alreadyFunds) else (w.evict, w.evict.fund ctx)

theorem addFunding_wallet (w : Wallet) (ctx : BuildContext) :
    (w.addFunding ctx).1 = if ctx.wallet.isSome then w else w.evict := by
  unfold addFunding
  split <;> rfl

/-- The inputs a prepared build reserves go into the pending set. -/
def reserveDraft (h : Helpers) (w : Wallet) (ctx : BuildContext) (draft : Result Draft) :
    Wallet × Result PreparedTransfer :=
  match draft with
  | .error e => (w, .error e)
  | .ok draft => (w.reserve (.new h ctx draft), .ok (.new h ctx draft))

def prepareTransfer (h : Helpers) (w : Wallet) (build : Wallet → BuildContext → Result Draft) :
    Wallet × Result PreparedTransfer :=
  match w.executionContext h with
  | .error e => (w, .error (.error e))
  | .ok ctx =>
    match w.addFunding ctx with
    | (w, _, .error e) => (w, .error (.error e))
    | (w, ctx, .ok ()) => w.reserveDraft h ctx (build w ctx)

def prepareFunded (h : Helpers) (w : Wallet) (ctx : BuildContext)
    (build : BuildContext → Result Draft) : Wallet × Result PreparedTransfer :=
  match w.addFunding ctx with
  | (w, _, .error e) => (w, .error (.error e))
  | (w, ctx, .ok ()) => w.reserveDraft h ctx (build ctx)

/-- A transaction that already balances its Dust draws nothing. -/
def prepareFees (h : Helpers) (w : Wallet) (ctx : BuildContext)
    (build : BuildContext → Result (Option Draft)) :
    Wallet × Result (Option PreparedTransfer) :=
  match w.addFunding ctx with
  | (w, _, .error e) => (w, .error (.error e))
  | (w, ctx, .ok ()) =>
    match build ctx with
    | .error e => (w, .error e)
    | .ok none => (w, .ok none)
    | .ok (some draft) => (w.reserve (.new h ctx draft), .ok (some (.new h ctx draft)))

def shieldedReserved (h : Helpers) (taken : Nullifier) : WalletError :=
  .inputsReserved s!"shielded coin {h.showNullifier taken}"

def unshieldedReserved (h : Helpers) (taken : SpentUtxoKey) : WalletError :=
  .inputsReserved s!"unshielded UTXO {h.showKey taken}"

/-- Pins the named coins. `prepare` produces the inputs; the funding view it
reads predates this hold, so the coins are checked against the wallet first. -/
def spendShielded (h : Helpers) (w : Wallet) (ctx : BuildContext) (nullifiers : List Nullifier)
    (prepare : BuildContext → List Nullifier → Result (List PreparedInput)) :
    Wallet × Result (List PreparedInput × SpentInputs) :=
  if nullifiers.isEmpty then (w, .ok ([], .default))
  else
    match nullifiers.find? (fun n => w.reservedShieldedNullifiers.contains n) with
    | some taken => (w, .error (.error (shieldedReserved h taken)))
    | none =>
      match prepare ctx nullifiers with
      | .error e => (w, .error e)
      | .ok prepared =>
        (w.reservePending [] [] nullifiers (ctx.block h).tblock (ctx.longestTtl h),
          .ok (prepared, .fromShielded nullifiers (ctx.block h).tblock))

/-- Pins the UTXOs that `prepare` selected from the funding view. -/
def spendUnshielded (h : Helpers) (w : Wallet) (ctx : BuildContext)
    (prepare : BuildContext → Result PreparedUnshielded) :
    Wallet × Result (PreparedUnshielded × SpentInputs) :=
  match prepare ctx with
  | .error e => (w, .error e)
  | .ok prepared =>
    match prepared.spent.find? (fun key => w.reservedUnshieldedKeys.contains key) with
    | some taken => (w, .error (.error (unshieldedReserved h taken)))
    | none =>
      (w.reservePending [] prepared.spent [] (ctx.block h).tblock (ctx.longestTtl h),
        .ok (prepared, .fromUnshielded prepared.spent (ctx.block h).tblock))

/-- What a resync replayed. -/
structure ResyncCommit where
  dustWallet : DustWallet
  lastDustBlockTime : Option Timestamp
  dustNullifiers : List DustNullifier
  coins : List Coin
  unshieldedUtxos : List TrackedUtxo
  spentUnshielded : List SpentUtxoKey
  chainTblock : Timestamp
  parameters : LedgerParameters

def commitResync (w : Wallet) (c : ResyncCommit) : Wallet where
  coins := c.coins
  dustWallet := c.dustWallet
  unshieldedUtxos := c.unshieldedUtxos
  parameters := c.parameters
  blockContext := some
    ⟨dustAnchor c.lastDustBlockTime (w.blockContext.map BlockContext.tblock) c.chainTblock
      c.parameters, c.chainTblock⟩
  pending := (w.pending.clearConfirmed c.spentUnshielded c.dustNullifiers).1

/-- A rebuilt wallet takes over what is in flight, less what expired. -/
def adoptPending (w previous : Wallet) : Wallet :=
  { w with pending := previous.pending }.evict

/-- A rescan replaces the shielded state alone. -/
def commitShieldedRescan (w : Wallet) (coins : List Coin) : Wallet := { w with coins := coins }

end Wallet

end MidnightRs.WalletBuilds
