import MidnightRs.ChainSync

/-!
What changes a synced wallet: resyncs from its cursors, across a fork or from
genesis, rescans of the shielded stream, and coin registrations. Each replays
from a copy of the state and commits at once, and a commit saves what it
changed. What the disk answers to a save is an argument.
-/
namespace MidnightRs.ChainSync

open LedgerReplays Storage Reservations Utxos

variable {Z D E P : LedgerVersion → Type}

section Plans

variable (L : Ledgers Z D E P) {v : LedgerVersion}

/-- What a resync's replays bring to its commit. -/
structure ResyncCommit (Z D P : LedgerVersion → Type) (v : LedgerVersion) where
  dustWallet : D v
  dustEventId : ℤ
  lastDustBlockTime : Option Timestamp
  dustNullifiers : List DustNullifier
  zswapState : Z v
  zswapEventId : ℤ
  unshieldedUtxos : List TrackedUtxo
  lastTxId : ℤ
  lastBlockHeight : ℤ
  spentUnshielded : List Utxos.SpentUtxoKey
  chainTblock : Timestamp
  parameters : P v

/-- The results of all the replays, in the order in which they are checked. -/
def resyncCommit (dust : Except WalletError (DustReplay (D v)))
    (zswap : Except WalletError (ZswapReplay (Z v)))
    (unshielded : Except WalletError Unshielded.UnshieldedReplay)
    (block : Except WalletError Block) : Except WalletError (ResyncCommit Z D P v) := do
  let dust ← dust
  let zswap ← zswap
  let unshielded ← unshielded
  let block ← block
  let ledger ← ledgerOf L block
  -- A chain that moved to a later generation needs the wallet to cross.
  Store.expectLedger v ledger
  expectNoLater v zswap.laterLedger
  expectNoLater v dust.laterLedger
  let chainTblock ← blockTime block
  let parameters ← decodeLedgerParameters L v block
  return ⟨dust.wallet, dust.lastId, dust.lastBlockTime, dust.spendNullifiers, zswap.state,
    zswap.lastId, unshielded.utxos, unshielded.lastTxId, unshielded.lastBlockHeight,
    unshielded.spent, chainTblock, parameters⟩

/-- The replays of a resync in the wallet's own generation, from the state that
the plan copied. -/
def runPlan (plan : Snapshot Z D v) (block : Except WalletError Block) (around : Surroundings) :
    Awaited (ResyncCommit Z D P v) :=
  match (replayDustEvents L v plan.dustWallet (plan.dustEventId + 1) true false
      dustCheckpointInterval around.dust).2,
    replayZswapEvents L v plan.zswapState (plan.zswapEventId + 1) true (around.zswap.headD []),
    Unshielded.replayUnshieldedEvents ⟨plan.lastTxId.elim 0 (· + 1), true⟩ plan.unshieldedUtxos
      plan.lastBlockHeight around.unshielded with
  | some dust, some zswap, some unshielded => some (resyncCommit L dust zswap unshielded block)
  | _, _, _ => none

/-- What a resync replayed: more of the wallet's own generation, a crossing to
the later one, or the wallet again from genesis. -/
inductive Commit (Z D P : LedgerVersion → Type) where
  | delta (v : LedgerVersion) (c : ResyncCommit Z D P v)
  | crossed (w : Wallet Z D P .V9)
  | rebuilt (s : State Z D P)

/-- What the indexer answers to one resync: its latest block when the resync
begins, what the replays and their block get, and what a second part gets. -/
structure ResyncAround where
  first : Except WalletError Block
  replay : Surroundings
  block : Except WalletError Block
  again : Except WalletError Block
  rest : Surroundings

/-- Replays a ledger 8 wallet onto a chain that crossed to ledger 9. -/
def cross (w : Wallet Z D P .V8) (block : Block) (around : Surroundings) :
    Awaited (Commit Z D P) :=
  match (syncOnChain L ⟨w.hasStorage, false, w.chainPin⟩ block (.resume ⟨.V8, w.snapshot⟩)
      around).2 with
  | none => none
  | some (.error e) => some (.error e)
  | some (.ok ⟨.V9, crossed⟩) => some (.ok (.crossed crossed))
  | some (.ok ⟨.V8, _⟩) => some (.error (.ledgerMismatch .V9 .V8))

def delta (v : LedgerVersion) (run : Awaited (ResyncCommit Z D P v)) : Awaited (Commit Z D P) :=
  andThen run (fun c => some (.ok (.delta v c)))

/-- The replay phase of a resync from the wallet's cursors. -/
def runResync (s : State Z D P) (around : ResyncAround) : Awaited (Commit Z D P) :=
  match s with
  | ⟨.V9, w⟩ => delta .V9 (runPlan L w.snapshot around.block around.replay)
  | ⟨.V8, w⟩ =>
    match around.first with
    | .error e => some (.error e)
    | .ok block =>
      match ledgerOf L block with
      | .error e => some (.error e)
      | .ok .V9 => cross L w block around.rest
      | .ok .V8 =>
        match runPlan L w.snapshot around.block around.replay with
        | some (.error (.ledgerMismatch expected found)) =>
          -- The chain can fork before the replay ends.
          if expected < found then
            match around.again with
            | .error e => some (.error e)
            | .ok block => cross L w block around.rest
          else some (.error (.ledgerMismatch expected found))
        | run => delta .V8 run

/-- What a resync that commits has run: the replays of the wallet's own
generation, or a crossing. -/
theorem runResync_ok {s : State Z D P} {around : ResyncAround} {commit : Commit Z D P}
    (h : runResync L s around = some (.ok commit)) :
    (∃ v w c, s = ⟨v, w⟩ ∧ commit = .delta v c ∧
      runPlan L w.snapshot around.block around.replay = some (.ok c)) ∨
    ∃ w block, s = ⟨.V8, w⟩ ∧ cross L w block around.rest = some (.ok commit) ∧
      (around.again = .ok block ∨ around.first = .ok block ∧ ledgerOf L block = .ok .V9) := by
  have hdelta : ∀ {v : LedgerVersion} {run : Awaited (ResyncCommit Z D P v)},
      delta v run = some (.ok commit) → ∃ c, run = some (.ok c) ∧ commit = .delta v c := by
    intro v run hrun
    rcases run with _ | e | c
    · cases hrun
    · cases hrun
    · cases hrun
      exact ⟨c, rfl, rfl⟩
  obtain ⟨v, w⟩ := s
  cases v with
  | V9 =>
    obtain ⟨c, hrun, hcommit⟩ := hdelta h
    exact Or.inl ⟨.V9, w, c, rfl, hcommit, hrun⟩
  | V8 =>
    simp only [runResync] at h
    cases hfirst : around.first with
    | error e =>
      rw [hfirst] at h
      cases h
    | ok block =>
      rw [hfirst] at h
      simp only at h
      rcases hledger : ledgerOf L block with e | _ | _
      · rw [hledger] at h
        cases h
      · rw [hledger] at h
        simp only at h
        split at h
        · rename_i expected found hrun
          split at h
          · cases hagain : around.again with
            | error e =>
              rw [hagain] at h
              cases h
            | ok block' =>
              rw [hagain] at h
              exact Or.inr ⟨w, block', rfl, h, Or.inl rfl⟩
          · cases h
        · obtain ⟨c, hrun, hcommit⟩ := hdelta h
          exact Or.inl ⟨.V8, w, c, rfl, hcommit, hrun⟩
      · rw [hledger] at h
        exact Or.inr ⟨w, block, rfl, h, Or.inr ⟨rfl, hledger⟩⟩

/-- Every coin that a state rebuilt from scratch must be told about: the
registrations that no replay has claimed, and the coins the wallet holds. -/
def coinsToRegister (v : LedgerVersion) (zswap : Z v) : List CoinInfo :=
  (L.pendingOutputs v zswap).map Prod.snd ++ (L.coins v zswap).map Prod.snd

/-- A shielded state that is empty but for the coins it registers. -/
def registering (v : LedgerVersion) (coins : List CoinInfo) : Z v :=
  coins.foldl (L.watchFor v) (L.newZswap v)

/-- The replay phase of a rebuild from genesis, in place of the wallet's own
state. It runs a second time when the chain forks in between. -/
def runRebuild (s : State Z D P) (around : ResyncAround) : Awaited (Commit Z D P) :=
  let sync : SyncOptions := ⟨s.2.hasStorage, false, s.2.chainPin⟩
  let start : Start Z D :=
    .genesis ⟨.V8, registering L .V8 (coinsToRegister L s.1 s.2.zswapState)⟩
  match around.first with
  | .error e => some (.error e)
  | .ok block =>
    match (syncOnChain L sync block start around.replay).2 with
    | some (.error (.ledgerMismatch expected found)) =>
      if expected < found then
        match around.again with
        | .error e => some (.error e)
        | .ok block =>
          andThen (syncOnChain L sync block start around.rest).2
            (fun s => some (.ok (.rebuilt s)))
      else some (.error (.ledgerMismatch expected found))
    | run => andThen run (fun s => some (.ok (.rebuilt s)))

/-- What a rescan brings to its commit. -/
structure RescanCommit (Z : LedgerVersion → Type) (v : LedgerVersion) where
  zswapState : Z v
  zswapEventId : ℤ

/-- What the indexer answers to a rescan, and to the one across the fork that
may follow it. -/
structure RescanAround where
  first : Replay.Answers
  rest : List Replay.Answers

/-- The rescan in one generation. -/
def rescanPlan (v : LedgerVersion) (coins : List CoinInfo) (answers : Replay.Answers) :
    Awaited (RescanCommit Z v) :=
  andThen (replayZswapEvents L v (registering L v coins) 0 false answers) (fun replayed =>
    match expectNoLater v replayed.laterLedger with
    | .error e => some (.error e)
    | .ok () => some (.ok ⟨replayed.state, replayed.lastId⟩))

/-- The replay phase of a rescan. A stream that starts in an earlier generation
is replayed from that one, across the fork. -/
def runRescan (v : LedgerVersion) (zswap : Z v) (around : RescanAround) :
    Awaited (RescanCommit Z v) :=
  let coins := coinsToRegister L v zswap
  match rescanPlan L v coins around.first with
  | some (.error (.ledgerMismatch expected found)) =>
    if found < expected then
      andThen (replayZswap L ⟨.V8, registering L .V8 coins⟩ 0 false around.rest) (fun replayed =>
        match intoLedger L replayed.1 v with
        | .error e => some (.error e)
        | .ok state => some (.ok ⟨state, replayed.2⟩))
    else some (.error (.ledgerMismatch expected found))
  | run => run

end Plans

namespace Wallet

variable (L : Ledgers Z D E P) {v : LedgerVersion}

/-- Whether `persist` goes to the disk. A failed save leaves the memory ahead of
the disk, so the next call retries it even when nothing changed. -/
def persists (w : Wallet Z D P v) (changed : Bool) : Bool :=
  (changed || w.saveFailed) && w.hasStorage

/-- What `saved` says is what the disk answers, when it is asked. -/
def persist (w : Wallet Z D P v) (changed : Bool) (saved : Except WalletError Unit) :
    Wallet Z D P v × Except WalletError Unit :=
  if w.persists changed then
    ({ w with saveFailed := match saved with | .error _ => true | .ok () => false }, saved)
  else (w, .ok ())

/-- The state after a commit, before it is saved. -/
def resynced (w : Wallet Z D P v) (c : ResyncCommit Z D P v) : Wallet Z D P v :=
  let fields := L.parameterFields v c.parameters
  let tblock := WalletBuilds.dustAnchor c.lastDustBlockTime (w.blockContext.map (·.tblock))
    c.chainTblock ⟨fields.globalTtl, fields.dustGracePeriod⟩
  { w with
    dustWallet := c.dustWallet
    dustEventId := c.dustEventId
    zswapState := c.zswapState
    zswapEventId := c.zswapEventId
    unshieldedUtxos := c.unshieldedUtxos
    lastTxId := some c.lastTxId
    lastBlockHeight := c.lastBlockHeight
    parameters := c.parameters
    blockContext := some ⟨tblock, c.chainTblock⟩
    pending := (w.pending.clearConfirmed (c.spentUnshielded.map reservedKey) c.dustNullifiers).1 }

/-- Whether a commit moved anything durable: a cursor, the ledger parameters or
the pending set. -/
def movedBy [∀ v, DecidableEq (P v)] (w : Wallet Z D P v) (c : ResyncCommit Z D P v) : Bool :=
  decide (c.dustEventId ≠ w.dustEventId) || decide (c.zswapEventId ≠ w.zswapEventId) ||
    decide (some c.lastTxId ≠ w.lastTxId) || decide (w.lastBlockHeight < c.lastBlockHeight) ||
    decide (c.parameters ≠ w.parameters) ||
    (w.pending.clearConfirmed (c.spentUnshielded.map reservedKey) c.dustNullifiers).2

/-- What a commit hands to `persist`, and whether it changed anything durable. -/
def commitResync [∀ v, DecidableEq (P v)] (w : Wallet Z D P v) (c : ResyncCommit Z D P v) :
    Wallet Z D P v × Bool :=
  (w.resynced L c, w.movedBy c)

/-- Takes the reservations of the state that this one replaces. -/
def adoptPending (w previous : Wallet Z D P v) : Wallet Z D P v :=
  { w with
    pending :=
      match w.blockContext with
      | none => previous.pending
      | some context => previous.pending.evictExpired (WalletBuilds.chainTime context) }

def commitShieldedRescan (w : Wallet Z D P v) (c : RescanCommit Z v) : Wallet Z D P v × Bool :=
  ({ w with zswapState := c.zswapState, zswapEventId := c.zswapEventId }, true)

/-- Registering nothing writes nothing, unless the last save failed. -/
def watchForCoins (w : Wallet Z D P v) (coins : List CoinInfo) : Wallet Z D P v × Bool :=
  ({ w with zswapState := coins.foldl (L.watchFor v) w.zswapState }, !coins.isEmpty)

/-- Drops one registration, and says whether there was one. -/
def forgetCoin (zswap : Z v) (coin : CoinInfo) : Z v × Bool :=
  let commitment := L.commitment v coin
  if (L.pendingOutputs v zswap).any (fun entry => decide (entry.1 = commitment)) then
    (L.removePendingOutput v zswap commitment, true)
  else (zswap, false)

def forgetAll (zswap : Z v) (coins : List CoinInfo) : Z v × Bool :=
  coins.foldl (fun out coin =>
    ((forgetCoin L out.1 coin).1, out.2 || (forgetCoin L out.1 coin).2)) (zswap, false)

def forgetCoins (w : Wallet Z D P v) (coins : List CoinInfo) : Wallet Z D P v × Bool :=
  ({ w with zswapState := (forgetAll L w.zswapState coins).1 }, (forgetAll L w.zswapState coins).2)

/-- A change of the in-flight reservations writes only the pending file, and a
failure marks the save as failed. -/
def setPending (w : Wallet Z D P v) (pending : PendingReservations)
    (saved : Except WalletError Unit) : Wallet Z D P v :=
  { w with
    pending := pending
    saveFailed :=
      if w.hasStorage then
        match saved with
        | .error _ => true
        | .ok () => w.saveFailed
      else w.saveFailed }

def setChainPin (w : Wallet Z D P v) (pin : ChainPin) : Wallet Z D P v :=
  { w with chainPin := some pin }

end Wallet

section Commits

variable (L : Ledgers Z D E P) [∀ v, DecidableEq (P v)]

/-- The snapshot that a save of the state writes. -/
def State.stored (s : State Z D P) : Stored Z D := ⟨s.1, s.2.snapshot⟩

/-- A snapshot without its pin. -/
def unpinned (s : Stored Z D) : Stored Z D := ⟨s.1, { s.2 with chainPin := none }⟩

def State.persist (s : State Z D P) (changed : Bool) (saved : Except WalletError Unit) :
    State Z D P × Except WalletError Unit :=
  (⟨s.1, (s.2.persist changed saved).1⟩, (s.2.persist changed saved).2)

/-- The reservations of the state that a rebuilt one replaces, when both are of
one generation. -/
def adopt : State Z D P → State Z D P → State Z D P
  | ⟨.V8, old⟩, ⟨.V8, new⟩ => ⟨.V8, new.adoptPending old⟩
  | ⟨.V9, old⟩, ⟨.V9, new⟩ => ⟨.V9, new.adoptPending old⟩
  | _, new => new

/-- A crossing keeps the pin that the commit finds. -/
def keepPin (old : Wallet Z D P .V8) (w : Wallet Z D P .V9) : Wallet Z D P .V9 :=
  match old.chainPin with
  | none => w
  | some pin => w.setChainPin pin

/-- Applies the results of a resync, for `persist`. -/
def commitResync (s : State Z D P) (commit : Commit Z D P) :
    Except WalletError (State Z D P × Bool) :=
  match s, commit with
  | ⟨.V8, w⟩, .delta .V8 c => .ok (⟨.V8, (w.commitResync L c).1⟩, (w.commitResync L c).2)
  | ⟨.V9, w⟩, .delta .V9 c => .ok (⟨.V9, (w.commitResync L c).1⟩, (w.commitResync L c).2)
  | ⟨.V8, w⟩, .crossed crossed => .ok (⟨.V9, keepPin w crossed⟩, true)
  | s, .rebuilt new => .ok (adopt s new, true)
  | s, .delta v _ => .error (.ledgerMismatch s.1 v)
  | s, .crossed _ => .error (.ledgerMismatch s.1 .V8)

/-- What changes a wallet in memory and ends in a save. -/
inductive Edit where
  | resync (around : ResyncAround)
  | rebuild (around : ResyncAround)
  | rescan (around : RescanAround)
  | watch (coins : List CoinInfo)
  | forget (coins : List CoinInfo)

/-- The state that an edit hands to `persist`. A replay reads a copy of the
state, and nothing but reservations changes until its commit. -/
def Edit.run (s : State Z D P) : Edit → Awaited (State Z D P × Bool)
  | .resync around => andThen (runResync L s around) (fun c => some (commitResync L s c))
  | .rebuild around => andThen (runRebuild L s around) (fun c => some (commitResync L s c))
  | .rescan around => andThen (runRescan L s.1 s.2.zswapState around) (fun c =>
      some (.ok (⟨s.1, (s.2.commitShieldedRescan c).1⟩, (s.2.commitShieldedRescan c).2)))
  | .watch coins => some (.ok (⟨s.1, (s.2.watchForCoins L coins).1⟩, (s.2.watchForCoins L coins).2))
  | .forget coins => some (.ok (⟨s.1, (s.2.forgetCoins L coins).1⟩, (s.2.forgetCoins L coins).2))

end Commits

end MidnightRs.ChainSync
