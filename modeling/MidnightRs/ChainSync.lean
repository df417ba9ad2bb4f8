import MidnightRs.LedgerReplays
import MidnightRs.UnshieldedReplay
import MidnightRs.WalletBuilds

/-!
The sync of a wallet: from a snapshot or from the chain's first event, across
the hard fork between the two ledger generations, to a wallet in the generation
that the chain runs. What the indexer answers, and what the disk holds and
refuses, are arguments here, so a sync is a function of them.
-/
namespace MidnightRs.ChainSync

open LedgerReplays Storage Reservations Utxos

variable {Z D E P : LedgerVersion → Type}

section Awaiting

/-- What a computation gives that waits for the indexer: nothing yet, or its
result. -/
abbrev Awaited (α : Type) := Option (Except WalletError α)

def andThen {α β : Type} (a : Awaited α) (f : α → Awaited β) : Awaited β :=
  match a with
  | none => none
  | some (.error e) => some (.error e)
  | some (.ok x) => f x

/-- Both results; the first failure ends the other computation. -/
def tryJoin {α β : Type} (a : Awaited α) (b : Awaited β) : Awaited (α × β) :=
  match a, b with
  | some (.error e), _ => some (.error e)
  | _, some (.error e) => some (.error e)
  | some (.ok x), some (.ok y) => some (.ok (x, y))
  | _, _ => none

end Awaiting

section Blocks

/-- What the wallet reads of the indexer's latest block. The time is in
milliseconds. -/
structure Block where
  ledgerParameters : Option String
  timestamp : Option ℤ
deriving DecidableEq, Repr

def encodedLedgerParameters (block : Block) : Except WalletError Bytes :=
  match block.ledgerParameters with
  | none => .error (.sync "latest block has no ledger_parameters")
  | some text =>
    match Hex.decode text with
    | .error e => .error (.sync s!"decode ledger params hex: {e}")
    | .ok bytes => .ok bytes

/-- The generation that the block ran. -/
def ledgerOf (L : Ledgers Z D E P) (block : Block) : Except WalletError LedgerVersion :=
  match encodedLedgerParameters block with
  | .error e => .error e
  | .ok bytes => L.parameters.ofTagged bytes

/-- Refuses parameters that no live chain has. -/
def validateLedgerParameters (p : ParameterFields) : Except WalletError Unit :=
  if p.globalTtl ≤ 0 then .error (.corruptParameters "global_ttl" s!"{p.globalTtl}")
  else if p.nightDustRatio = 0 then
    .error (.corruptParameters "dust.night_dust_ratio" s!"{p.nightDustRatio}")
  else if p.generationDecayRate = 0 then
    .error (.corruptParameters "dust.generation_decay_rate" s!"{p.generationDecayRate}")
  else if p.overallPrice ≤ 0 then
    .error (.corruptParameters "fee_prices.overall_price" p.overallPriceText)
  else .ok ()

def decodeLedgerParameters (L : Ledgers Z D E P) (v : LedgerVersion) (block : Block) :
    Except WalletError (P v) :=
  match encodedLedgerParameters block with
  | .error e => .error e
  | .ok bytes =>
    match L.decodeParameters v bytes with
    | .error e => .error (.sync s!"deserialize ledger params: {e}")
    | .ok parameters =>
      match validateLedgerParameters (L.parameterFields v parameters) with
      | .error e => .error e
      | .ok () => .ok parameters

/-- The division rounds toward zero, and the seconds are an unsigned word. -/
def blockTime (block : Block) : Except WalletError Timestamp :=
  match block.timestamp with
  | none => .error (.sync "latest block has no timestamp")
  | some ms => .ok (ms.tdiv 1000 % 2 ^ 64).toNat

end Blocks

section Shielded

/-- A shielded state, in its generation. -/
abbrev ZswapState (Z : LedgerVersion → Type) := Σ v, Z v

/-- This state in the generation `target`, carried forward across the fork. -/
def intoLedger (L : Ledgers Z D E P) :
    ZswapState Z → (target : LedgerVersion) → Except WalletError (Z target)
  | ⟨.V8, state⟩, .V9 =>
    match L.oldToNew state with
    | .error e => .error (.sync s!"carry the shielded state across the fork: {e}")
    | .ok state => .ok state
  | ⟨.V8, state⟩, .V8 => .ok state
  | ⟨.V9, state⟩, .V9 => .ok state
  | ⟨.V9, _⟩, .V8 => .error (.ledgerMismatch .V8 .V9)

/-- Replays the shielded stream from `startId`, starting in the state's own
generation, and crosses each hard fork that the stream meets. Each round is a
replay of its own, with its own answers. -/
def replayZswap (L : Ledgers Z D E P) :
    ZswapState Z → ℤ → Bool → List Replay.Answers → (size : ℕ := replayBatch) →
      Awaited (ZswapState Z × ℤ)
  | _, _, _, [], _ => none
  | ⟨v, zswap⟩, startId, resuming, answers :: rounds, size =>
    andThen (replayZswapEvents L v zswap startId resuming answers size) (fun replayed =>
      match replayed.laterLedger with
      | none => some (.ok (⟨v, replayed.state⟩, replayed.lastId))
      | some (fork, found) =>
        match intoLedger L ⟨v, replayed.state⟩ found with
        | .error e => some (.error e)
        | .ok state => replayZswap L ⟨found, state⟩ fork resuming rounds size)

end Shielded

/-- The state of one wallet in one ledger generation. -/
structure Wallet (Z D P : LedgerVersion → Type) (v : LedgerVersion) where
  zswapState : Z v
  zswapEventId : ℤ
  dustWallet : D v
  dustEventId : ℤ
  unshieldedUtxos : List TrackedUtxo
  lastBlockHeight : ℤ
  lastTxId : Option ℤ
  chainPin : Option ChainPin
  parameters : P v
  blockContext : Option WalletBuilds.BlockContext
  pending : PendingReservations
  /-- Whether the wallet has a storage directory. -/
  hasStorage : Bool
  saveFailed : Bool

/-- A wallet in the generation that it runs. -/
abbrev State (Z D P : LedgerVersion → Type) := Σ v, Wallet Z D P v

/-- What a save of the wallet's confirmed state writes. -/
def Wallet.snapshot {v : LedgerVersion} (w : Wallet Z D P v) : Snapshot Z D v where
  zswapState := w.zswapState
  dustWallet := w.dustWallet
  zswapEventId := w.zswapEventId
  dustEventId := w.dustEventId
  lastBlockHeight := w.lastBlockHeight
  lastTxId := w.lastTxId
  chainPin := w.chainPin
  unshieldedUtxos := w.unshieldedUtxos

/-- A UTXO's key, as a reservation names it. -/
def reservedKey (key : Utxos.SpentUtxoKey) : Reservations.SpentUtxoKey :=
  ⟨key.intentHash.bytes, key.outputIndex.val⟩

/-- What a sync is given beside the indexer. -/
structure SyncOptions where
  hasStorage : Bool
  /-- Whether the sync writes its state as it goes. -/
  save : Bool
  chainPin : Option ChainPin
deriving DecidableEq, Repr

/-- What the indexer answers to one sync, and what the disk holds and refuses. -/
structure Surroundings where
  zswap : List Replay.Answers
  unshielded : List (ℤ → Unshielded.Attempt)
  dust : Replay.Answers
  /-- Whether the receiver of the progress reports is there. -/
  alive : Bool
  storedPending : Except WalletError (Option PendingReservations)
  saved : Except WalletError Unit

/-- Where a sync's Dust replay starts. -/
inductive DustStart (S : Type) where
  | resume (wallet : S) (nextId : ℤ)
  | fresh (nextId : ℤ)

/-- What a sync replayed before its Dust replay. -/
structure SyncStart (Z D : LedgerVersion → Type) (v : LedgerVersion) where
  zswapState : Z v
  zswapEventId : ℤ
  unshieldedUtxos : List TrackedUtxo
  lastTxId : ℤ
  lastBlockHeight : ℤ
  spentUnshielded : List Utxos.SpentUtxoKey
  dust : DustStart (D v)

/-- Dust events between two checkpoints of a first sync. -/
def dustCheckpointInterval : ℕ := 50000

section Finishing

variable (L : Ledgers Z D E P) {v : LedgerVersion}

/-- What a checkpoint of the sync, or its last save, writes. -/
def SyncStart.snapshot (start : SyncStart Z D v) (chainPin : Option ChainPin) (c : D v × ℤ) :
    Snapshot Z D v where
  zswapState := start.zswapState
  dustWallet := c.1
  zswapEventId := start.zswapEventId
  dustEventId := c.2
  lastBlockHeight := start.lastBlockHeight
  lastTxId := some start.lastTxId
  chainPin := chainPin
  unshieldedUtxos := start.unshieldedUtxos

/-- The reservations that a restart finds, less those that the replay saw
confirmed and those past their time. -/
def loadedPending (stored : Option PendingReservations) (start : SyncStart Z D v)
    (dust : DustReplay (D v)) (context : WalletBuilds.BlockContext) : PendingReservations :=
  (((stored.getD .default).clearConfirmed (start.spentUnshielded.map reservedKey)
    dust.spendNullifiers).1).evictExpired (WalletBuilds.chainTime context)

/-- The wallet that a sync assembles. -/
def assemble (sync : SyncOptions) (start : SyncStart Z D v) (parameters : P v)
    (blockTimestamp : Timestamp) (stored : Option PendingReservations) (dust : DustReplay (D v)) :
    Wallet Z D P v :=
  let fields := L.parameterFields v parameters
  let context : WalletBuilds.BlockContext := ⟨WalletBuilds.dustAnchor dust.lastBlockTime none
    blockTimestamp ⟨fields.globalTtl, fields.dustGracePeriod⟩, blockTimestamp⟩
  { zswapState := start.zswapState
    zswapEventId := start.zswapEventId
    dustWallet := dust.wallet
    dustEventId := dust.lastId
    unshieldedUtxos := start.unshieldedUtxos
    lastBlockHeight := start.lastBlockHeight
    lastTxId := some start.lastTxId
    chainPin := sync.chainPin
    parameters := parameters
    blockContext := some context
    pending := loadedPending stored start dust context
    hasStorage := sync.hasStorage
    saveFailed := false }

/-- Refuses an event of a later generation than the wallet's. -/
def expectNoLater (v : LedgerVersion) (later : Option (ℤ × LedgerVersion)) :
    Except WalletError Unit :=
  match later with
  | none => .ok ()
  | some (_, found) => Store.expectLedger v found

/-- The wallet of a sync whose Dust replay has returned, before its save. -/
def finishDust (sync : SyncOptions) (start : SyncStart Z D v) (parameters : P v)
    (blockTimestamp : Timestamp) (around : Surroundings) (dust : DustReplay (D v)) :
    Except WalletError (Wallet Z D P v) :=
  match expectNoLater v dust.laterLedger with
  | .error e => .error e
  | .ok () =>
    if sync.hasStorage && sync.save then
      match around.storedPending with
      | .error e => .error e
      | .ok stored => .ok (assemble L sync start parameters blockTimestamp stored dust)
    else .ok (assemble L sync start parameters blockTimestamp none dust)

/-- The last save of a sync: the snapshots that go to the disk, and the result. -/
def saveSynced (sync : SyncOptions) (around : Surroundings) (assembled : Awaited (Wallet Z D P v)) :
    List (Snapshot Z D v) × Awaited (Wallet Z D P v) :=
  match assembled with
  | none => ([], none)
  | some (.error e) => ([], some (.error e))
  | some (.ok w) =>
    if sync.hasStorage && sync.save then
      match around.saved with
      | .error e => ([w.snapshot], some (.error e))
      | .ok () => ([w.snapshot], some (.ok w))
    else ([], some (.ok w))

/-- Replays the Dust stream from the cursor that `start` carries and assembles
the wallet. Beside its result, the snapshots it hands to the disk. -/
def finishSync (sync : SyncOptions) (block : Block) (start : SyncStart Z D v)
    (around : Surroundings) (size : ℕ := replayBatch) :
    List (Snapshot Z D v) × Awaited (Wallet Z D P v) :=
  match decodeLedgerParameters L v block with
  | .error e => ([], some (.error e))
  | .ok parameters =>
    match blockTime block with
    | .error e => ([], some (.error e))
    | .ok blockTimestamp =>
      let (wallet, startId) :=
        match start.dust with
        | .resume wallet nextId => (wallet, nextId)
        | .fresh nextId => (L.newDust v parameters, nextId)
      let (checkpoints, replayed) := replayDustEvents L v wallet startId (decide (0 < startId))
        (sync.hasStorage && sync.save) dustCheckpointInterval around.dust size
      let (saved, finished) := saveSynced sync around (andThen replayed (fun dust =>
        some (finishDust L sync start parameters blockTimestamp around dust)))
      (checkpoints.map (start.snapshot sync.chainPin) ++ saved, finished)

end Finishing

section OnChain

variable (L : Ledgers Z D E P)

/-- Where a sync starts: from a snapshot or a wallet in memory, or from the
chain's first event with a shielded state that is empty but for the coins it
registers. -/
inductive Start (Z D : LedgerVersion → Type) where
  | resume (snapshot : Stored Z D)
  | genesis (zswap : ZswapState Z)

namespace Start

def resuming : Start Z D → Bool
  | .resume _ => true
  | .genesis _ => false

def zswap : Start Z D → ZswapState Z
  | .resume s => ⟨s.1, s.2.zswapState⟩
  | .genesis zswap => zswap

/-- The next event after the last one applied: a subscription is inclusive. -/
def zswapId : Start Z D → ℤ
  | .resume s => s.2.zswapEventId + 1
  | .genesis _ => 0

def dust : Start Z D → Option (Σ v, D v)
  | .resume s => some ⟨s.1, s.2.dustWallet⟩
  | .genesis _ => none

def dustId : Start Z D → ℤ
  | .resume s => s.2.dustEventId + 1
  | .genesis _ => 0

/-- The fork emptied the chain's Dust registrations, so no UTXO held before it
generates Dust. -/
def utxos (chain : LedgerVersion) : Start Z D → List TrackedUtxo
  | .resume s =>
    if s.1 = .V8 ∧ chain = .V9 then s.2.unshieldedUtxos.map TrackedUtxo.unregistered
    else s.2.unshieldedUtxos
  | .genesis _ => []

def txId : Start Z D → ℤ
  | .resume s => s.2.lastTxId.elim 0 (· + 1)
  | .genesis _ => 0

def height : Start Z D → ℤ
  | .resume s => s.2.lastBlockHeight
  | .genesis _ => 0

end Start

/-- A Dust state is resumed only on a chain of its own generation. -/
def dustStart (chain : LedgerVersion) (nextId : ℤ) : Option (Σ v, D v) → DustStart (D chain)
  | some ⟨v, wallet⟩ =>
    if h : v = chain then .resume (h ▸ wallet) nextId else .fresh nextId
  | none => .fresh nextId

/-- The sync on a chain whose latest block is `block`. -/
def syncOnChain (sync : SyncOptions) (block : Block) (start : Start Z D)
    (around : Surroundings) (size : ℕ := replayBatch) :
    List (Stored Z D) × Awaited (State Z D P) :=
  match ledgerOf L block with
  | .error e => ([], some (.error e))
  | .ok chain =>
    match tryJoin
        (replayZswap L start.zswap start.zswapId start.resuming around.zswap size)
        (Unshielded.replayUnshieldedEvents ⟨start.txId, start.resuming⟩ (start.utxos chain)
          start.height around.unshielded) with
    | none => ([], none)
    | some (.error e) => ([], some (.error e))
    | some (.ok (zswap, unshielded)) =>
      match intoLedger L zswap.1 chain with
      | .error e => ([], some (.error e))
      | .ok zswapState =>
        let (saved, finished) := finishSync L sync block ⟨zswapState, zswap.2, unshielded.utxos,
          unshielded.lastTxId, unshielded.lastBlockHeight, unshielded.spent,
          dustStart chain start.dustId start.dust⟩ around size
        (saved.map (Sigma.mk chain), andThen finished (fun w => some (.ok ⟨chain, w⟩)))

/-- Only a sync that takes a fresh pin can replace a snapshot by a pinned one. -/
def discardUnpinnedSnapshot (canPin snapshotIsPinned : Bool) : Bool := canPin && !snapshotIsPinned

def progressCancelled (kind : String) : WalletError :=
  .sync s!"{kind} replay cancelled: progress receiver dropped"

/-- One sync attempt: the chain's generation, the snapshot in its own
generation, and the sync on the chain. -/
def syncOnce (st : Store Z D) (dir : Directories.Dir FileName) (sync : SyncOptions)
    (block : Except WalletError Block) (around : Surroundings) :
    List (Stored Z D) × Awaited (State Z D P) :=
  match block with
  | .error e => ([], some (.error e))
  | .ok block =>
    match ledgerOf L block with
    | .error e => ([], some (.error e))
    | .ok chain =>
      match if sync.hasStorage then st.loadSnapshot dir chain else .ok none with
      | .error e => ([], some (.error e))
      | .ok found =>
        match found.filter (fun s =>
            !discardUnpinnedSnapshot sync.chainPin.isSome s.2.chainPin.isSome) with
        | none => syncOnChain L sync block (.genesis ⟨.V8, L.newZswap .V8⟩) around
        | some s =>
          if around.alive then
            -- The snapshot's own pin stays when there is no fresher one.
            syncOnChain L { sync with chainPin := sync.chainPin.or s.2.chainPin } block
              (.resume s) around
          else ([], some (.error (progressCancelled "resume")))

end OnChain

end MidnightRs.ChainSync
