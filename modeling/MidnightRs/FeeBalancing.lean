import MidnightRs.Loops
import MidnightRs.Results
import MidnightRs.WalletBuilds
import Mathlib.Data.List.Induction

/-!
How a build draws its Dust fee. A round pays the transaction with spends for the
amount that the rounds before came up short, and prices what that gives; the
loop ends at the first candidate that covers its own fee, and only its spends
reach the wallets. The ledger's own types and functions are parameters.
-/
namespace MidnightRs.FeeBalancing

open Loops Results
open Reservations (Timestamp)
open WalletBuilds (BlockContext Duration addDuration chainTime)

abbrev Seed := Bytes

/-- The types of the ledger that this code only passes on. -/
structure LedgerTypes where
  (DustWallet DustLocalState DustProof WalletRest : Type)
  (Input Output Signature Key Registration : Type)
  (IntentRest Coins Randomness : Type)
  (ProvenIntent ProvenRest : Type)
  (IntentInfo Parameters Rng : Type)

variable (T : LedgerTypes)

structure DustSpend where
  vFee : ℕ
  proof : T.DustProof

structure DustActions where
  spends : List (DustSpend T)
  registrations : List (T.Registration × Option T.Signature)
  ctime : Timestamp

structure UnshieldedOffer where
  inputs : List T.Input
  outputs : List T.Output
  signatures : List T.Signature

structure Intent where
  guaranteedUnshieldedOffer : Option (UnshieldedOffer T)
  fallibleUnshieldedOffer : Option (UnshieldedOffer T)
  dustActions : Option (DustActions T)
  rest : T.IntentRest

/-- A ledger transaction, of one body or the other. -/
inductive Transaction (S : Type) where
  | standard (tx : S)
  | claimRewards (claim : Bytes)

/-- The intents stand at segments. -/
structure UnprovenStandard where
  networkId : String
  intents : ℕ → Option (Intent T)
  guaranteedCoins : Option T.Coins
  fallibleCoins : List (ℕ × T.Coins)
  bindingRandomness : T.Randomness

structure ProvenStandard where
  intents : ℕ → Option T.ProvenIntent
  rest : T.ProvenRest

abbrev UnprovenTx := Transaction (UnprovenStandard T)

abbrev FinalizedTx := Transaction (ProvenStandard T)

inductive TokenType where
  | unshielded (type : Bytes)
  | shielded (type : Bytes)
  | dust
deriving DecidableEq, Repr

/-- What the ledger's crates compute. -/
structure Ledger where
  speculativeSpend : T.DustWallet → ℕ → Timestamp → T.Parameters →
    Except String (List (DustSpend T) × T.DustLocalState)
  markSpent : T.DustWallet → List (DustSpend T) → T.DustLocalState → T.DustWallet
  emptyIntent : T.Rng → Timestamp → Intent T × T.Rng
  split : T.Rng → T.Rng
  sign : T.Key → T.Rng → Bytes → T.Signature × T.Rng
  dataToSign : Intent T → ℕ → Bytes
  bindingRandomness : (ℕ → Option (Intent T)) → Option T.Coins → List (ℕ × T.Coins) →
    T.Randomness
  mockProve : UnprovenTx T → Except String (FinalizedTx T)
  merge : FinalizedTx T → FinalizedTx T → Except String (FinalizedTx T)
  feesWithMargin : FinalizedTx T → T.Parameters → ℕ → Except String ℕ
  balance : FinalizedTx T → Option ℕ → Except String (List ((TokenType × ℕ) × ℤ))

structure Wallet where
  dust : T.DustWallet
  rest : T.WalletRest

abbrev Wallets := Seed → Option (Wallet T)

/-- What a build reads besides the wallets. -/
structure TransactionInfo where
  networkId : String
  parameters : T.Parameters
  globalTtl : Duration
  block : BlockContext
  fundingSeeds : List Seed
  rng : T.Rng
  dustRegistrations : List (T.Registration × T.Key)
  intents : ℕ → Option T.IntentInfo
  unshieldedSigningKeys : T.IntentInfo → List T.Key × List T.Key

/-- One funding seed's Dust contribution to a transaction. -/
structure DustSpendBatch where
  seed : Seed
  spends : List (DustSpend T)
  updatedState : T.DustLocalState

variable {T}

def transferErr (ctx e : String) : WalletError := .transfer s!"{ctx}: {e}"

namespace Segment

def guaranteed : ℕ := 0

def fallible : ℕ := 1

end Segment

def u16Max : ℕ := 2 ^ 16 - 1

def u128Max : ℕ := 2 ^ 128 - 1

def Transaction.new (L : Ledger T) (networkId : String) (intents : ℕ → Option (Intent T))
    (guaranteed : Option T.Coins) (fallible : List (ℕ × T.Coins)) : UnprovenTx T :=
  .standard ⟨networkId, intents, guaranteed, fallible,
    L.bindingRandomness intents guaranteed fallible⟩

def Transaction.fromIntents (L : Ledger T) (networkId : String)
    (intents : ℕ → Option (Intent T)) : UnprovenTx T :=
  Transaction.new L networkId intents none []

namespace TransactionInfo

def longestTtl (info : TransactionInfo T) : Timestamp :=
  addDuration (chainTime info.block) info.globalTtl

end TransactionInfo

section Gathering

variable (L : Ledger T) (info : TransactionInfo T) (wallets : Wallets T) (ctime : Timestamp)

/-- The batches drawn from the seeds, and what remains to be drawn. -/
def gatherFrom : ℕ → List Seed → Except WalletError (List (DustSpendBatch T) × ℕ)
  | remaining, [] => .ok ([], remaining)
  | remaining, seed :: seeds =>
    if remaining = 0 then .ok ([], remaining)
    else
      match wallets seed with
      | none => .error (.transfer "unrecognized wallet seed")
      | some wallet => do
        let (newSpends, updatedState) ← (L.speculativeSpend wallet.dust remaining ctime
          info.parameters).mapError (transferErr "speculative_spend")
        let (batches, left) ← gatherFrom
          (newSpends.foldl (fun remaining spend => remaining - spend.vFee) remaining) seeds
        .ok (⟨seed, newSpends, updatedState⟩ :: batches, left)

def gatherDustSpends (requiredAmount : ℕ) : Except WalletError (List (DustSpendBatch T)) := do
  let (batches, remaining) ← gatherFrom L info wallets ctime requiredAmount info.fundingSeeds
  if 0 < remaining then .error (.insufficientDust requiredAmount (requiredAmount - remaining))
  else .ok batches

end Gathering

def flatSpends (batches : List (DustSpendBatch T)) : List (DustSpend T) :=
  batches.flatMap DustSpendBatch.spends

/-- Each spend goes to the wallet of its batch. -/
def confirmDustSpends (L : Ledger T) (wallets : Wallets T) (batches : List (DustSpendBatch T)) :
    Wallets T :=
  batches.foldl (fun wallets batch =>
    match wallets batch.seed with
    | none => wallets
    | some wallet => Function.update wallets batch.seed
        (some ⟨L.markSpent wallet.dust batch.spends batch.updatedState, wallet.rest⟩)) wallets

/-- The fee of a transaction with its margin, and what its Dust falls short of it. -/
def computeMissingDust (L : Ledger T) (info : TransactionInfo T) (tx : FinalizedTx T) :
    Except WalletError (ℕ × Option ℕ) := do
  let fees ← (L.feesWithMargin tx info.parameters 3).mapError (transferErr "fees_with_margin")
  let imbalances ← (L.balance tx (some fees)).mapError (transferErr "balance")
  let dustImbalance := (imbalances.lookup (.dust, Segment.guaranteed)).getD 0
  if dustImbalance < 0 then .ok (fees, some dustImbalance.natAbs) else .ok (fees, none)

section Signing

variable (L : Ledger T)

/-- Signs for each of the pairs, one after the other. -/
def signEach {I : Type} (dataToSign : Bytes) : List (I × T.Key) → T.Rng →
    List (I × T.Signature) × T.Rng
  | [], rng => ([], rng)
  | (item, key) :: rest, rng =>
    let (signature, rng) := L.sign key rng dataToSign
    let (signed, rng) := signEach dataToSign rest rng
    ((item, signature) :: signed, rng)

def resignOffer (offer : Option (UnshieldedOffer T)) (signingKeys : List T.Key)
    (dataToSign : Bytes) (rng : T.Rng) : Option (UnshieldedOffer T) × T.Rng :=
  match offer with
  | none => (none, rng)
  | some offer =>
    let (signed, rng) := signEach L dataToSign (offer.inputs.zip signingKeys) rng
    (some ⟨offer.inputs, offer.outputs, signed.map Prod.snd⟩, rng)

end Signing

/-- The transaction with the spends in its fallible intent, all of it signed again. -/
def applyDust (L : Ledger T) (info : TransactionInfo T) (tx : UnprovenTx T)
    (spends : List (DustSpend T)) (rng : T.Rng) (ttl now : Timestamp) : UnprovenTx T :=
  match tx with
  | .claimRewards _ => tx
  | .standard stx =>
    if spends.isEmpty ∧ info.dustRegistrations.isEmpty then tx
    else
      let (intent, rng) := match stx.intents Segment.fallible with
        | some intent => (intent, rng)
        | none => L.emptyIntent rng ttl
      let unsigned := info.dustRegistrations.map (fun r => (r.1, none))
      let intent := { intent with dustActions := some ⟨spends, unsigned, now⟩ }
      let dataToSign := L.dataToSign intent Segment.fallible
      let (guaranteedKeys, fallibleKeys) :=
        ((info.intents Segment.fallible).map info.unshieldedSigningKeys).getD ([], [])
      let (guaranteed, rng) :=
        resignOffer L intent.guaranteedUnshieldedOffer guaranteedKeys dataToSign rng
      let (fallible, rng) :=
        resignOffer L intent.fallibleUnshieldedOffer fallibleKeys dataToSign rng
      let (registrations, _) := signEach L dataToSign info.dustRegistrations rng
      let intent : Intent T := { intent with
        guaranteedUnshieldedOffer := guaranteed
        fallibleUnshieldedOffer := fallible
        dustActions := some ⟨spends, registrations.map (fun r => (r.1, some r.2)), now⟩ }
      Transaction.new L stx.networkId (Function.update stx.intents Segment.fallible (some intent))
        stx.guaranteedCoins stx.fallibleCoins

def dustCandidate (L : Ledger T) (info : TransactionInfo T) (wallets : Wallets T)
    (tx : UnprovenTx T) (request : ℕ) (now ttl : Timestamp) :
    Except WalletError (UnprovenTx T × List (DustSpendBatch T)) := do
  let batches ← gatherDustSpends L info wallets now request
  .ok (applyDust L info tx (flatSpends batches) (L.split info.rng) ttl now, batches)

/-- Upper bound on the rounds of a fee-balancing loop. -/
def maxFeeBalanceIterations : ℕ := 10

structure FeeBalanceTracker where
  iterations : ℕ
  missingDust : ℕ
  lastFee : ℕ
deriving DecidableEq, Repr

namespace FeeBalanceTracker

def default : FeeBalanceTracker := ⟨0, 0, 0⟩

/-- Dust to request from the funding wallets this round. -/
def request (t : FeeBalanceTracker) : ℕ := t.missingDust

def recordShortfall (t : FeeBalanceTracker) (fee shortfall : ℕ) : FeeBalanceTracker where
  iterations := t.iterations + 1
  missingDust := min (t.missingDust + shortfall) u128Max
  lastFee := fee

def intoError (t : FeeBalanceTracker) : WalletError :=
  .transfer (s!"could not balance TX after {t.iterations} iterations: last candidate needed " ++
    s!"{t.missingDust} specks of dust in total (last computed fee {t.lastFee} specks)")

end FeeBalanceTracker

section Rounds

variable {G C : Type}

/-- What a round prices for a request: the candidate, its fee, and its shortfall. -/
abbrev Pricing (G C : Type) := G → ℕ → Except WalletError (G × C × ℕ × Option ℕ)

/-- One round: the loop leaves with an error or with a candidate that balances. -/
def feeRound (price : Pricing G C) (s : G × FeeBalanceTracker) (_ : ℕ) :
    Pass (G × FeeBalanceTracker) (Except WalletError (G × C)) :=
  match price s.1 s.2.request with
  | .error e => .leave (.error e)
  | .ok (g, _, fee, some dust) => .again (g, s.2.recordShortfall fee dust)
  | .ok (g, candidate, _, none) => .leave (.ok (g, candidate))

def feeLoop (price : Pricing G C) (g : G) : Except WalletError (G × C) :=
  match loop (feeRound price) (g, .default) (List.range maxFeeBalanceIterations) with
  | .again (_, tracker) => .error tracker.intoError
  | .leave r => r

end Rounds

section Loops

variable (L : Ledger T) (info : TransactionInfo T) (wallets : Wallets T)

/-- Each round rebuilds the candidate from the unpaid transaction. -/
def mockPricing (tx : UnprovenTx T) (now ttl : Timestamp) :
    Pricing Unit (UnprovenTx T × List (DustSpendBatch T)) := fun () request => do
  let (paidTx, batches) ← dustCandidate L info wallets tx request now ttl
  let mock ← (L.mockProve paidTx).mapError (transferErr "mock_prove")
  let (fee, shortfall) ← computeMissingDust L info mock
  .ok ((), (paidTx, batches), fee, shortfall)

def balanceFeesWithMocks (tx : UnprovenTx T) (now ttl : Timestamp) :
    Except WalletError (UnprovenTx T × List (DustSpendBatch T)) × Wallets T :=
  match feeLoop (mockPricing L info wallets tx now ttl) () with
  | .error e => (.error e, wallets)
  | .ok (_, paidTx, batches) => (.ok (paidTx, batches), confirmDustSpends L wallets batches)

/-- The first segment that a fee intent is offered. -/
def dustFeeSegment : ℕ := 0xFEED

/-- The first segment from there up that `external` leaves free. -/
def feeSegment (external : FinalizedTx T) : Except WalletError ℕ :=
  match external with
  | .claimRewards _ =>
    .error (.transfer "only a standard transaction can carry a fee intent")
  | .standard tx =>
    match (List.range' dustFeeSegment (u16Max + 1 - dustFeeSegment)).find?
        (fun segment => (tx.intents segment).isNone) with
    | some segment => .ok segment
    | none => .error (.transfer "no intent segment left for the fee")

/-- A fee intent that carries only the spends, alone in a transaction. -/
def feeTransaction (rng : T.Rng) (segment : ℕ) (spends : List (DustSpend T)) (now : Timestamp) :
    UnprovenTx T × T.Rng :=
  let (intent, rng) := L.emptyIntent rng info.longestTtl
  let intent : Intent T := { intent with dustActions := some ⟨spends, [], now⟩ }
  (Transaction.fromIntents L info.networkId
    (Function.update (fun _ => none) segment (some intent)), rng)

/-- The first round draws nothing and prices `external` as it is. -/
def externalPricing (external : FinalizedTx T) (segment : ℕ) :
    Pricing T.Rng (Option (UnprovenTx T) × List (DustSpendBatch T)) := fun rng request => do
  let now := info.block.tblock
  let batches ← gatherDustSpends L info wallets now request
  let spends := flatSpends batches
  if spends.isEmpty then
    let (fee, shortfall) ← computeMissingDust L info external
    .ok (rng, (none, batches), fee, shortfall)
  else
    let (feeTx, rng) := feeTransaction L info rng segment spends now
    let mock ← (L.mockProve feeTx).mapError (transferErr "mock_prove")
    let merged ← (L.merge external mock).mapError (transferErr "merge fee intent")
    let (fee, shortfall) ← computeMissingDust L info merged
    .ok (rng, (some feeTx, batches), fee, shortfall)

structure PreparedTransfer (T : LedgerTypes) where
  tx : UnprovenTx T
  dustBatches : List (DustSpendBatch T)
  external : Option (FinalizedTx T)

def balanceExternal (external : FinalizedTx T) :
    Except WalletError (Option (PreparedTransfer T)) × Wallets T :=
  match feeSegment external with
  | .error e => (.error e, wallets)
  | .ok segment =>
    match feeLoop (externalPricing L info wallets external segment) info.rng with
    | .error e => (.error e, wallets)
    | .ok (_, none, _) => (.ok none, wallets)
    | .ok (_, some feeTx, batches) =>
      (.ok (some ⟨feeTx, batches, some external⟩), confirmDustSpends L wallets batches)

end Loops

section Rounds

variable {G C : Type} (price : Pricing G C) (start : G)

/-- What the rounds that came up short ask for together. -/
def requested (log : List (ℕ × ℕ)) : ℕ := min (log.map Prod.snd).sum u128Max

/-- The fees and shortfalls of rounds in a row, none of which balanced. Each asked
for the shortfalls before it. -/
inductive FailedRounds : List (ℕ × ℕ) → G → Prop
  | nil : FailedRounds [] start
  | short {log : List (ℕ × ℕ)} {g h : G} {candidate : C} {fee dust : ℕ} :
      FailedRounds log g → price g (requested log) = .ok (h, candidate, fee, some dust) →
      FailedRounds (log ++ [(fee, dust)]) h

/-- How the last round ends the loop: its pricing failed, or found no shortfall. -/
def Ends (log : List (ℕ × ℕ)) (g : G) : Except WalletError (G × C) → Prop
  | .error e => price g (requested log) = .error e
  | .ok (h, candidate) => ∃ fee, price g (requested log) = .ok (h, candidate, fee, none)

/-- The tracker after these rounds. -/
def FeeBalanceTracker.after (log : List (ℕ × ℕ)) : FeeBalanceTracker :=
  log.foldl (fun t round => t.recordShortfall round.1 round.2) .default

theorem after_append (log : List (ℕ × ℕ)) (fee dust : ℕ) :
    FeeBalanceTracker.after (log ++ [(fee, dust)]) =
      (FeeBalanceTracker.after log).recordShortfall fee dust := by
  simp only [FeeBalanceTracker.after, List.foldl_append, List.foldl_cons, List.foldl_nil]

theorem request_after (log : List (ℕ × ℕ)) :
    (FeeBalanceTracker.after log).request = requested log := by
  induction log using List.reverseRecOn with
  | nil => rfl
  | append_singleton log round ih =>
    rw [after_append]
    unfold requested FeeBalanceTracker.request at *
    simp only [FeeBalanceTracker.recordShortfall, ih, List.map_append, List.sum_append,
      List.map_cons, List.map_nil, List.sum_singleton]
    omega

variable {price start}

/-- The rounds from a point on: either all of them come up short, or one ends the loop. -/
theorem loop_feeRound (es : List ℕ) {log : List (ℕ × ℕ)} {g : G}
    (h : FailedRounds price start log g) :
    (loop (feeRound price) (g, .after log) es).Holds
      (fun s => ∃ log', FailedRounds price start log' s.1 ∧ s.2 = .after log' ∧
        log'.length = log.length + es.length)
      (fun r => ∃ log' g', FailedRounds price start log' g' ∧
        log'.length < log.length + es.length ∧ Ends price log' g' r) := by
  induction es generalizing log g with
  | nil => exact ⟨log, h, rfl, rfl⟩
  | cons e es ih =>
    refine loop_cons_holds _ _ _ _ _ _ ?_
    unfold feeRound
    simp only [request_after]
    have hlt : log.length < log.length + (e :: es).length := by
      simp only [List.length_cons]
      omega
    cases hprice : price g (requested log) with
    | error err => exact ⟨log, g, h, hlt, hprice⟩
    | ok priced =>
      obtain ⟨g', candidate, fee, shortfall⟩ := priced
      cases shortfall with
      | none => exact ⟨log, g, h, hlt, fee, hprice⟩
      | some dust =>
        have hnext := ih (h.short hprice)
        rw [after_append] at hnext
        refine hnext.mono (fun s hs => ?_) (fun r hr => ?_)
        · obtain ⟨log', hlog', hafter, hlength⟩ := hs
          refine ⟨log', hlog', hafter, ?_⟩
          simp only [List.length_append, List.length_cons, List.length_nil] at hlength ⊢
          omega
        · obtain ⟨log', g'', hlog', hlength, hends⟩ := hr
          refine ⟨log', g'', hlog', ?_, hends⟩
          simp only [List.length_append, List.length_cons, List.length_nil] at hlength ⊢
          omega

/-- These failed rounds, and the one that ended the loop if there was one, are all that
the loop ran. -/
def Ran (price : Pricing G C) (start : G) (log : List (ℕ × ℕ)) (g : G) : Prop :=
  FailedRounds price start log g ∧
    (log.length < maxFeeBalanceIterations ∧ Ends price log g (feeLoop price start) ∨
      log.length = maxFeeBalanceIterations ∧
        feeLoop price start = .error (FeeBalanceTracker.after log).intoError)

/-- The loop ends in one of its rounds, or all of them came up short. -/
theorem exists_ran (price : Pricing G C) (start : G) : ∃ log g, Ran price start log g := by
  have hnil : FailedRounds price start [] start := .nil
  have hrounds := loop_feeRound (List.range maxFeeBalanceIterations) hnil
  have hstart : FeeBalanceTracker.after [] = .default := rfl
  rw [hstart] at hrounds
  cases hloop : loop (feeRound price) (start, .default) (List.range maxFeeBalanceIterations) with
  | again s =>
    rw [hloop] at hrounds
    obtain ⟨log, hlog, hafter, hlength⟩ := hrounds
    refine ⟨log, s.1, hlog, Or.inr ⟨by simpa using hlength, ?_⟩⟩
    simp only [feeLoop, hloop, hafter]
  | leave r =>
    rw [hloop] at hrounds
    obtain ⟨log, g, hlog, hlength, hends⟩ := hrounds
    refine ⟨log, g, hlog, Or.inl ⟨by simpa using hlength, ?_⟩⟩
    simp only [feeLoop, hloop]
    exact hends

theorem FailedRounds.eq_start {log : List (ℕ × ℕ)} {g : G} (h : FailedRounds price start log g)
    (hnil : log = []) : g = start := by
  cases h with
  | nil => rfl
  | short => exact absurd hnil (List.append_ne_nil_of_right_ne_nil _ (List.cons_ne_nil _ _))

/-- The first of the failed rounds asked for nothing. -/
theorem FailedRounds.first {log : List (ℕ × ℕ)} {g : G} (h : FailedRounds price start log g)
    (hne : log ≠ []) : ∃ g' candidate fee dust, price start 0 = .ok (g', candidate, fee, some dust) := by
  induction h with
  | nil => exact absurd rfl hne
  | @short log g g' candidate fee dust hlog hprice ih =>
    by_cases hlast : log = []
    · obtain rfl := hlog.eq_start hlast
      subst hlast
      exact ⟨g', candidate, fee, dust, hprice⟩
    · exact ih hlast

theorem feeLoop_of_first {g : G} {candidate : C} {fee : ℕ}
    (h : price start 0 = .ok (g, candidate, fee, none)) :
    feeLoop price start = .ok (g, candidate) := by
  have hround : feeRound price (start, .default) 0 = .leave (.ok (g, candidate)) := by
    unfold feeRound
    have hrequest : FeeBalanceTracker.default.request = 0 := rfl
    rw [hrequest, h]
  have hrange : List.range maxFeeBalanceIterations = 0 :: List.range' 1 9 := rfl
  unfold feeLoop
  rw [hrange]
  unfold loop
  rw [hround]

end Rounds

section Selection

variable (L : Ledger T) (info : TransactionInfo T) (wallets : Wallets T) (ctime : Timestamp)

/-- What the spends pay. -/
def value (spends : List (DustSpend T)) : ℕ := (spends.map DustSpend.vFee).sum

/-- The batches are drawn from the wallets of the seeds in turn, each asked for what
the ones before it left open, until nothing is. -/
inductive Selected : ℕ → List Seed → List (DustSpendBatch T) → Prop
  | done (seeds : List Seed) : Selected 0 seeds []
  | draw {remaining : ℕ} {seed : Seed} {seeds : List Seed} {wallet : Wallet T}
      {spends : List (DustSpend T)} {state : T.DustLocalState}
      {batches : List (DustSpendBatch T)} :
      remaining ≠ 0 → wallets seed = some wallet →
      L.speculativeSpend wallet.dust remaining ctime info.parameters = .ok (spends, state) →
      Selected (remaining - value spends) seeds batches →
      Selected remaining (seed :: seeds) (⟨seed, spends, state⟩ :: batches)

variable {L info wallets ctime}

theorem foldl_sub_value (spends : List (DustSpend T)) (remaining : ℕ) :
    spends.foldl (fun remaining spend => remaining - spend.vFee) remaining =
      remaining - value spends := by
  induction spends generalizing remaining with
  | nil => rfl
  | cons spend spends ih =>
    rw [List.foldl_cons, ih]
    simp only [value, List.map_cons, List.sum_cons]
    omega

theorem gatherFrom_selected {seeds : List Seed} {remaining left : ℕ}
    {batches : List (DustSpendBatch T)}
    (h : gatherFrom L info wallets ctime remaining seeds = .ok (batches, left)) (hleft : left = 0) :
    Selected L info wallets ctime remaining seeds batches := by
  induction seeds generalizing remaining batches with
  | nil =>
    obtain ⟨rfl, rfl⟩ := Prod.mk.inj (Except.ok.inj h)
    subst hleft
    exact .done []
  | cons seed seeds ih =>
    unfold gatherFrom at h
    by_cases hzero : remaining = 0
    · rw [if_pos hzero] at h
      obtain ⟨rfl, rfl⟩ := Prod.mk.inj (Except.ok.inj h)
      subst hleft
      exact .done _
    · rw [if_neg hzero] at h
      cases hwallet : wallets seed with
      | none =>
        rw [hwallet] at h
        cases h
      | some wallet =>
        rw [hwallet] at h
        obtain ⟨⟨spends, state⟩, hspend, h⟩ := exists_of_bind h
        obtain ⟨⟨rest, left'⟩, hrest, h⟩ := exists_of_bind h
        obtain ⟨rfl, rfl⟩ := Prod.mk.inj (Except.ok.inj h)
        rw [foldl_sub_value] at hrest
        exact .draw hzero hwallet (mapError_ok hspend) (ih hrest)

theorem gatherDustSpends_selected {request : ℕ} {batches : List (DustSpendBatch T)}
    (h : gatherDustSpends L info wallets ctime request = .ok batches) :
    Selected L info wallets ctime request info.fundingSeeds batches := by
  obtain ⟨⟨batches', left⟩, hgather, h⟩ := exists_of_bind h
  by_cases hleft : 0 < left
  · simp only [hleft, if_true] at h
    cases h
  · simp only [hleft, if_false] at h
    obtain rfl := Except.ok.inj h
    exact gatherFrom_selected hgather (by omega)

/-- Nothing is drawn for nothing. -/
theorem gatherDustSpends_zero : gatherDustSpends L info wallets ctime 0 = .ok [] := by
  have hgather : gatherFrom L info wallets ctime 0 info.fundingSeeds = .ok ([], 0) := by
    cases info.fundingSeeds with
    | nil => rfl
    | cons seed seeds => rfl
  unfold gatherDustSpends
  rw [hgather]
  rfl

theorem Selected.eq_nil {seeds : List Seed} {batches : List (DustSpendBatch T)}
    (h : Selected L info wallets ctime 0 seeds batches) : batches = [] := by
  cases h with
  | done => rfl
  | draw hne => exact absurd rfl hne

theorem value_append (xs ys : List (DustSpend T)) : value (xs ++ ys) = value xs + value ys := by
  simp only [value, List.map_append, List.sum_append]

/-- Selected spends pay the request. -/
theorem Selected.le_value {request : ℕ} {seeds : List Seed} {batches : List (DustSpendBatch T)}
    (h : Selected L info wallets ctime request seeds batches) :
    request ≤ value (flatSpends batches) := by
  induction h with
  | done => exact Nat.zero_le _
  | @draw remaining seed seeds wallet spends state batches _ _ _ _ ih =>
    have hsum : value (flatSpends (⟨seed, spends, state⟩ :: batches)) =
        value spends + value (flatSpends batches) := value_append _ _
    omega

/-- The wallet of a seed after the spends of that seed's batches are marked. -/
def marked (L : Ledger T) (batches : List (DustSpendBatch T)) (seed : Seed) (wallet : Wallet T) :
    Wallet T :=
  ⟨(batches.filter (fun batch => decide (batch.seed = seed))).foldl
    (fun dust batch => L.markSpent dust batch.spends batch.updatedState) wallet.dust, wallet.rest⟩

theorem confirmDustSpends_apply (batches : List (DustSpendBatch T)) (wallets : Wallets T)
    (seed : Seed) :
    confirmDustSpends L wallets batches seed = (wallets seed).map (marked L batches seed) := by
  induction batches generalizing wallets with
  | nil =>
    have hmarked : marked L [] seed = id := rfl
    rw [hmarked, Option.map_id]
    rfl
  | cons batch batches ih =>
    unfold confirmDustSpends at ih ⊢
    rw [List.foldl_cons, ih]
    by_cases hseed : batch.seed = seed
    · subst hseed
      cases hwallet : wallets batch.seed with
      | none => simp [hwallet]
      | some wallet => simp [marked]
    · have hmarked : marked L (batch :: batches) seed = marked L batches seed := by
        funext wallet
        simp [marked, hseed]
      rw [hmarked]
      cases hwallet : wallets batch.seed with
      | none => rfl
      | some wallet =>
        simp only
        rw [Function.update_of_ne (Ne.symm hseed)]

end Selection

section Prices

variable (L : Ledger T) (info : TransactionInfo T)

/-- The Dust of a transaction covers the fee that the ledger asks for it. -/
def Covers (tx : FinalizedTx T) : Prop :=
  ∃ fees imbalances, L.feesWithMargin tx info.parameters 3 = .ok fees ∧
    L.balance tx (some fees) = .ok imbalances ∧
    0 ≤ (imbalances.lookup (.dust, Segment.guaranteed)).getD 0

variable {L info}

theorem covers_iff (tx : FinalizedTx T) :
    Covers L info tx ↔ ∃ fee, computeMissingDust L info tx = .ok (fee, none) := by
  constructor
  · intro ⟨fees, imbalances, hfees, hbalance, hdust⟩
    refine ⟨fees, ?_⟩
    simp [computeMissingDust, hfees, hbalance, Except.mapError, bind, Except.bind,
      Int.not_lt.mpr hdust]
  · intro ⟨fee, h⟩
    obtain ⟨fees, hfees, h⟩ := exists_of_bind h
    obtain ⟨imbalances, hbalance, h⟩ := exists_of_bind h
    refine ⟨fees, imbalances, mapError_ok hfees, mapError_ok hbalance, ?_⟩
    by_contra hlt
    simp only [Int.not_le.mp hlt, if_true] at h
    cases h

theorem not_covers_of_short {tx : FinalizedTx T} {fee dust : ℕ}
    (h : computeMissingDust L info tx = .ok (fee, some dust)) : ¬ Covers L info tx := by
  intro hcovers
  obtain ⟨fee', h'⟩ := (covers_iff tx).mp hcovers
  rw [h] at h'
  cases h'

end Prices

section Candidates

variable {L : Ledger T} {info : TransactionInfo T} {wallets : Wallets T}

def Transaction.intentAt (tx : UnprovenTx T) (segment : ℕ) : Option (Intent T) :=
  match tx with
  | .standard stx => stx.intents segment
  | .claimRewards _ => none

/-- The Dust spends that a transaction carries at a segment. -/
def Transaction.dustSpendsAt (tx : UnprovenTx T) (segment : ℕ) : List (DustSpend T) :=
  ((Transaction.intentAt tx segment).bind Intent.dustActions).elim [] DustActions.spends

/-- The fallible intent gets the spends, every other intent stays. -/
theorem applyDust_dustSpendsAt (stx : UnprovenStandard T) (spends : List (DustSpend T))
    (rng : T.Rng) (ttl now : Timestamp) (segment : ℕ) :
    (applyDust L info (.standard stx) spends rng ttl now).dustSpendsAt segment =
      if segment = Segment.fallible ∧ (spends ≠ [] ∨ info.dustRegistrations ≠ []) then spends
      else Transaction.dustSpendsAt (.standard stx) segment := by
  unfold applyDust
  by_cases hnone : spends.isEmpty ∧ info.dustRegistrations.isEmpty
  · have hnot : ¬ (spends ≠ [] ∨ info.dustRegistrations ≠ []) := by
      rw [List.isEmpty_iff, List.isEmpty_iff] at hnone
      simp [hnone]
    simp only [hnone, hnot, and_false, and_self, if_true, if_false]
  · have hsome : spends ≠ [] ∨ info.dustRegistrations ≠ [] := by
      rw [List.isEmpty_iff, List.isEmpty_iff] at hnone
      exact not_and_or.mp hnone
    simp only [hnone, hsome, and_true, if_false]
    by_cases hsegment : segment = Segment.fallible
    · subst hsegment
      simp [Transaction.dustSpendsAt, Transaction.intentAt, Transaction.new]
    · simp [Transaction.dustSpendsAt, Transaction.intentAt, Transaction.new, hsegment]

theorem feeTransaction_intentAt (rng : T.Rng) (at' : ℕ) (spends : List (DustSpend T))
    (now : Timestamp) :
    (∀ segment, Transaction.dustSpendsAt (feeTransaction L info rng at' spends now).1 segment =
      if segment = at' then spends else []) ∧
    ∀ segment, Transaction.intentAt (feeTransaction L info rng at' spends now).1 segment ≠ none →
      segment = at' := by
  constructor
  · intro segment
    by_cases hsegment : segment = at'
    · subst hsegment
      simp [feeTransaction, Transaction.fromIntents, Transaction.new, Transaction.dustSpendsAt,
        Transaction.intentAt]
    · simp [feeTransaction, Transaction.fromIntents, Transaction.new, Transaction.dustSpendsAt,
        Transaction.intentAt, hsegment]
  · intro segment hintent
    by_contra hsegment
    simp [feeTransaction, Transaction.fromIntents, Transaction.new, Transaction.intentAt,
      hsegment] at hintent

/-- What a round of mock proofs has done when it balances. -/
theorem mockPricing_ok {tx paidTx : UnprovenTx T} {now ttl : Timestamp} {request fee : ℕ}
    {shortfall : Option ℕ} {batches : List (DustSpendBatch T)} {g : Unit}
    (h : mockPricing L info wallets tx now ttl () request =
      .ok (g, (paidTx, batches), fee, shortfall)) :
    Selected L info wallets now request info.fundingSeeds batches ∧
    paidTx = applyDust L info tx (flatSpends batches) (L.split info.rng) ttl now ∧
    ∃ mock, L.mockProve paidTx = .ok mock ∧
      computeMissingDust L info mock = .ok (fee, shortfall) := by
  obtain ⟨⟨paidTx', batches'⟩, hcandidate, h⟩ := exists_of_bind h
  obtain ⟨mock, hmock, h⟩ := exists_of_bind h
  obtain ⟨⟨fee', shortfall'⟩, hprice, h⟩ := exists_of_bind h
  obtain ⟨gathered, hgather, hcandidate⟩ := exists_of_bind hcandidate
  cases h
  cases hcandidate
  exact ⟨gatherDustSpends_selected hgather, rfl, mock, mapError_ok hmock, hprice⟩

/-- A transaction of the other kind takes no Dust, so a request for it fails again. -/
theorem claimRewards_first {claim : Bytes} {now ttl : Timestamp} {log : List (ℕ × ℕ)} {g : Unit}
    {paidTx : UnprovenTx T} {fee : ℕ} {batches : List (DustSpendBatch T)}
    (hlog : FailedRounds (mockPricing L info wallets (.claimRewards claim) now ttl) () log g)
    (h : mockPricing L info wallets (.claimRewards claim) now ttl () (requested log) =
      .ok (g, (paidTx, batches), fee, none)) : batches = [] := by
  obtain ⟨hselected, hpaid, mock, hmock, hprice⟩ := mockPricing_ok h
  by_cases hne : log = []
  · subst hne
    exact hselected.eq_nil
  · obtain ⟨_, ⟨firstTx, _⟩, fee', dust, hfirst⟩ := hlog.first hne
    obtain ⟨-, hfirstTx, mock', hmock', hprice'⟩ := mockPricing_ok hfirst
    have hsame : firstTx = paidTx := hfirstTx.trans hpaid.symm
    rw [hsame, hmock] at hmock'
    cases hmock'
    rw [hprice] at hprice'
    cases hprice'

/-- What a round beside an external transaction has done. -/
theorem externalPricing_ok {external : FinalizedTx T} {segment request fee : ℕ}
    {rng rng' : T.Rng} {shortfall : Option ℕ} {feeTx : Option (UnprovenTx T)}
    {batches : List (DustSpendBatch T)}
    (h : externalPricing L info wallets external segment rng request =
      .ok (rng', (feeTx, batches), fee, shortfall)) :
    Selected L info wallets info.block.tblock request info.fundingSeeds batches ∧
    (feeTx = none ∧ flatSpends batches = [] ∧
        computeMissingDust L info external = .ok (fee, shortfall) ∨
      ∃ tx mock merged, feeTx = some tx ∧ flatSpends batches ≠ [] ∧
        tx = (feeTransaction L info rng segment (flatSpends batches) info.block.tblock).1 ∧
        L.mockProve tx = .ok mock ∧ L.merge external mock = .ok merged ∧
        computeMissingDust L info merged = .ok (fee, shortfall)) := by
  obtain ⟨gathered, hgather, h⟩ := exists_of_bind h
  by_cases hempty : (flatSpends gathered).isEmpty
  · simp only [hempty, if_true] at h
    obtain ⟨⟨fee', shortfall'⟩, hprice, h⟩ := exists_of_bind h
    cases h
    exact ⟨gatherDustSpends_selected hgather,
      Or.inl ⟨rfl, List.isEmpty_iff.mp hempty, hprice⟩⟩
  · simp only [hempty] at h
    obtain ⟨mock, hmock, h⟩ := exists_of_bind h
    obtain ⟨merged, hmerged, h⟩ := exists_of_bind h
    obtain ⟨⟨fee', shortfall'⟩, hprice, h⟩ := exists_of_bind h
    cases h
    exact ⟨gatherDustSpends_selected hgather,
      Or.inr ⟨_, mock, merged, rfl, fun hnil => hempty (List.isEmpty_iff.mpr hnil), rfl,
        mapError_ok hmock, mapError_ok hmerged, hprice⟩⟩

theorem externalPricing_zero {external : FinalizedTx T} {segment fee : ℕ} {rng : T.Rng}
    {shortfall : Option ℕ} (h : computeMissingDust L info external = .ok (fee, shortfall)) :
    externalPricing L info wallets external segment rng 0 =
      .ok (rng, (none, []), fee, shortfall) := by
  have hempty : (flatSpends ([] : List (DustSpendBatch T))).isEmpty = true := rfl
  simp only [externalPricing, gatherDustSpends_zero, bind, Except.bind, hempty, if_true, h]

/-- A segment from the first candidate up that the transaction leaves free. -/
def FreeSegment (external : FinalizedTx T) (segment : ℕ) : Prop :=
  dustFeeSegment ≤ segment ∧ segment ≤ u16Max ∧
    ∃ tx, external = .standard tx ∧ tx.intents segment = none

theorem feeSegment_ok {external : FinalizedTx T} {segment : ℕ}
    (h : feeSegment external = .ok segment) : FreeSegment external segment := by
  cases external with
  | claimRewards claim => cases h
  | standard tx =>
    cases hfind : (List.range' dustFeeSegment (u16Max + 1 - dustFeeSegment)).find?
        (fun segment => (tx.intents segment).isNone) with
    | none =>
      simp only [feeSegment, hfind] at h
      cases h
    | some found =>
      simp only [feeSegment, hfind] at h
      cases h
      have hmem := List.mem_range'_1.mp (List.mem_of_find?_eq_some hfind)
      have hbounds : dustFeeSegment ≤ u16Max := by decide
      have hfree : (tx.intents segment).isNone := by simpa using List.find?_some hfind
      exact ⟨hmem.1, by omega, tx, rfl, Option.isNone_iff_eq_none.mp hfree⟩

theorem exists_feeSegment {external : FinalizedTx T} {free : ℕ} (h : FreeSegment external free) :
    ∃ segment, feeSegment external = .ok segment := by
  obtain ⟨hle, hmax, tx, rfl, hfree⟩ := h
  cases hfind : (List.range' dustFeeSegment (u16Max + 1 - dustFeeSegment)).find?
      (fun segment => (tx.intents segment).isNone) with
  | none =>
    have hmem : free ∈ List.range' dustFeeSegment (u16Max + 1 - dustFeeSegment) :=
      List.mem_range'_1.mpr ⟨hle, by omega⟩
    exact absurd (Option.isNone_iff_eq_none.mpr hfree) (List.find?_eq_none.mp hfind free hmem)
  | some segment =>
    refine ⟨segment, ?_⟩
    simp only [feeSegment, hfind]

end Candidates

section Balanced

variable (L : Ledger T) (info : TransactionInfo T) (wallets : Wallets T)

/-- What a build that balances its own fee leaves, given the rounds that failed. -/
def SelfBalanced (tx : UnprovenTx T) (now ttl : Timestamp) (log : List (ℕ × ℕ)) :
    Except WalletError (UnprovenTx T × List (DustSpendBatch T)) × Wallets T → Prop
  | (.error _, left) => left = wallets
  | (.ok (paidTx, batches), left) =>
    log.length < maxFeeBalanceIterations ∧
    paidTx = applyDust L info tx (flatSpends batches) (L.split info.rng) ttl now ∧
    (∀ segment, paidTx.dustSpendsAt segment =
      if segment = Segment.fallible ∧ (flatSpends batches ≠ [] ∨ info.dustRegistrations ≠ [])
      then flatSpends batches else tx.dustSpendsAt segment) ∧
    (∃ mock, L.mockProve paidTx = .ok mock ∧ Covers L info mock) ∧
    Selected L info wallets now (requested log) info.fundingSeeds batches ∧
    requested log ≤ value (flatSpends batches) ∧
    ∀ seed, left seed = (wallets seed).map (marked L batches seed)

/-- What paying for an external transaction leaves, given the rounds that failed. -/
def ExternalBalanced (external : FinalizedTx T) (log : List (ℕ × ℕ)) :
    Except WalletError (Option (PreparedTransfer T)) × Wallets T → Prop
  | (.error _, left) => left = wallets
  | (.ok none, left) => Covers L info external ∧ left = wallets
  | (.ok (some prepared), left) =>
    ¬ Covers L info external ∧
    log.length < maxFeeBalanceIterations ∧
    prepared.external = some external ∧
    (∃ segment, FreeSegment external segment ∧
      (∀ s, prepared.tx.dustSpendsAt s =
        if s = segment then flatSpends prepared.dustBatches else []) ∧
      ∀ s, prepared.tx.intentAt s ≠ none → s = segment) ∧
    (∃ mock merged, L.mockProve prepared.tx = .ok mock ∧
      L.merge external mock = .ok merged ∧ Covers L info merged) ∧
    Selected L info wallets info.block.tblock (requested log) info.fundingSeeds
      prepared.dustBatches ∧
    requested log ≤ value (flatSpends prepared.dustBatches) ∧
    ∀ seed, left seed = (wallets seed).map (marked L prepared.dustBatches seed)

variable {L info wallets}

theorem selfBalanced_of_ok {tx paidTx : UnprovenTx T} {now ttl : Timestamp}
    {log : List (ℕ × ℕ)} {g g' : Unit} {batches : List (DustSpendBatch T)}
    (hlog : FailedRounds (mockPricing L info wallets tx now ttl) () log g)
    (hlength : log.length < maxFeeBalanceIterations)
    (hends : Ends (mockPricing L info wallets tx now ttl) log g (.ok (g', paidTx, batches))) :
    SelfBalanced L info wallets tx now ttl log
      (.ok (paidTx, batches), confirmDustSpends L wallets batches) := by
  obtain ⟨fee, hprice⟩ := hends
  obtain ⟨hselected, hpaid, mock, hmock, hmissing⟩ := mockPricing_ok hprice
  refine ⟨hlength, hpaid, fun segment => ?_, ⟨mock, hmock, (covers_iff mock).mpr ⟨fee, hmissing⟩⟩,
    hselected, hselected.le_value, confirmDustSpends_apply batches wallets⟩
  cases tx with
  | standard stx =>
    rw [hpaid]
    exact applyDust_dustSpendsAt stx (flatSpends batches) _ ttl now segment
  | claimRewards claim =>
    obtain rfl := claimRewards_first hlog hprice
    rw [hpaid]
    exact (ite_self _).symm

theorem externalBalanced_of_ok {external : FinalizedTx T} {segment : ℕ}
    {log : List (ℕ × ℕ)} {rng rng' : T.Rng} {feeTx : Option (UnprovenTx T)}
    {batches : List (DustSpendBatch T)} (hsegment : FreeSegment external segment)
    (hlog : FailedRounds (externalPricing L info wallets external segment) info.rng log rng)
    (hlength : log.length < maxFeeBalanceIterations)
    (hends : Ends (externalPricing L info wallets external segment) log rng
      (.ok (rng', feeTx, batches))) :
    ExternalBalanced L info wallets external log
      (.ok (feeTx.map fun tx => ⟨tx, batches, some external⟩),
        if feeTx = none then wallets else confirmDustSpends L wallets batches) := by
  obtain ⟨fee, hprice⟩ := hends
  obtain ⟨hselected, ⟨rfl, -, hmissing⟩ | ⟨tx, mock, merged, rfl, hspends, htx, hmock, hmerged,
    hmissing⟩⟩ := externalPricing_ok hprice
  · rw [if_pos rfl]
    exact ⟨(covers_iff external).mpr ⟨fee, hmissing⟩, rfl⟩
  · have hne : log ≠ [] := by
      intro hnil
      subst hnil
      obtain rfl := hselected.eq_nil
      exact hspends rfl
    -- The failed first round priced the transaction as it is.
    have hshort : ¬ Covers L info external := by
      obtain ⟨_, ⟨_, _⟩, fee', dust, hfirst⟩ := hlog.first hne
      obtain ⟨hnothing, ⟨-, -, hprice'⟩ | ⟨_, _, _, -, hspends', -⟩⟩ := externalPricing_ok hfirst
      · exact not_covers_of_short hprice'
      · obtain rfl := hnothing.eq_nil
        exact absurd rfl hspends'
    rw [if_neg (Option.some_ne_none tx)]
    have hintents := @feeTransaction_intentAt T L info rng segment (flatSpends batches)
      info.block.tblock
    rw [← htx] at hintents
    exact ⟨hshort, hlength, rfl, ⟨segment, hsegment, hintents.1, hintents.2⟩,
      ⟨mock, merged, hmock, hmerged, (covers_iff merged).mpr ⟨fee, hmissing⟩⟩, hselected,
      hselected.le_value, confirmDustSpends_apply batches wallets⟩

theorem selfBalanced_loop (tx : UnprovenTx T) (now ttl : Timestamp) :
    ∃ log g, Ran (mockPricing L info wallets tx now ttl) () log g ∧
      SelfBalanced L info wallets tx now ttl log
        (balanceFeesWithMocks L info wallets tx now ttl) := by
  obtain ⟨log, g, hlog, hran⟩ := exists_ran (mockPricing L info wallets tx now ttl) ()
  refine ⟨log, g, ⟨hlog, hran⟩, ?_⟩
  unfold balanceFeesWithMocks
  rcases hran with ⟨hlength, hends⟩ | ⟨-, herror⟩
  · cases hloop : feeLoop (mockPricing L info wallets tx now ttl) () with
    | error e => rfl
    | ok found =>
      obtain ⟨g', paidTx, batches⟩ := found
      rw [hloop] at hends
      exact selfBalanced_of_ok hlog hlength hends
  · rw [herror]
    rfl

theorem externalBalanced_loop {external : FinalizedTx T} {segment : ℕ}
    (hsegment : feeSegment external = .ok segment) :
    ∃ log g, Ran (externalPricing L info wallets external segment) info.rng log g ∧
      ExternalBalanced L info wallets external log (balanceExternal L info wallets external) := by
  obtain ⟨log, g, hlog, hran⟩ :=
    exists_ran (externalPricing L info wallets external segment) info.rng
  refine ⟨log, g, ⟨hlog, hran⟩, ?_⟩
  unfold balanceExternal
  rw [hsegment]
  rcases hran with ⟨hlength, hends⟩ | ⟨-, herror⟩
  · cases hloop : feeLoop (externalPricing L info wallets external segment) info.rng with
    | error e =>
      simp only [hloop]
      rfl
    | ok found =>
      obtain ⟨g', feeTx, batches⟩ := found
      rw [hloop] at hends
      have hbalanced := externalBalanced_of_ok (feeSegment_ok hsegment) hlog hlength hends
      cases feeTx with
      | none =>
        simp only [hloop]
        exact hbalanced
      | some tx =>
        simp only [hloop]
        exact hbalanced
  · simp only [herror]
    rfl

/-- No fee is drawn exactly for a transaction that has a segment for it and needs none. -/
theorem balanceExternal_none_iff (external : FinalizedTx T) :
    (∃ left, balanceExternal L info wallets external = (.ok none, left)) ↔
      (∃ segment, FreeSegment external segment) ∧ Covers L info external := by
  constructor
  · intro ⟨left, h⟩
    cases hsegment : feeSegment external with
    | error e =>
      simp only [balanceExternal, hsegment] at h
      cases h
    | ok segment =>
      obtain ⟨log, g, -, hbalanced⟩ : ∃ log g, Ran _ info.rng log g ∧
          ExternalBalanced L info wallets external log _ := externalBalanced_loop hsegment
      rw [h] at hbalanced
      exact ⟨⟨segment, feeSegment_ok hsegment⟩, hbalanced.1⟩
  · intro ⟨⟨free, hfree⟩, hcovers⟩
    obtain ⟨segment, hsegment⟩ := exists_feeSegment hfree
    obtain ⟨fee, hmissing⟩ := (covers_iff external).mp hcovers
    have hfirst : externalPricing L info wallets external segment info.rng 0 = _ :=
      externalPricing_zero hmissing
    have hloop := feeLoop_of_first hfirst
    refine ⟨wallets, ?_⟩
    simp only [balanceExternal, hsegment, hloop]

theorem balanceExternal_refused {external : FinalizedTx T} {e : WalletError}
    (h : feeSegment external = .error e) :
    (∀ segment, ¬ FreeSegment external segment) ∧
      balanceExternal L info wallets external = (.error e, wallets) := by
  constructor
  · intro free hfree
    obtain ⟨segment, hsegment⟩ := exists_feeSegment hfree
    rw [h] at hsegment
    cases hsegment
  · simp only [balanceExternal, h]

end Balanced

/-- Both fee loops end with a candidate that pays for itself, drawn from the wallets as
they were, or leave the wallets alone. -/
theorem fee_loops_balance (L : Ledger T) (info : TransactionInfo T) (wallets : Wallets T) :
    (∀ tx now ttl, ∃ log g, Ran (mockPricing L info wallets tx now ttl) () log g ∧
      SelfBalanced L info wallets tx now ttl log
        (balanceFeesWithMocks L info wallets tx now ttl)) ∧
    (∀ external, match feeSegment external with
      | .error e => (∀ segment, ¬ FreeSegment external segment) ∧
        balanceExternal L info wallets external = (.error e, wallets)
      | .ok segment => ∃ log g,
        Ran (externalPricing L info wallets external segment) info.rng log g ∧
          ExternalBalanced L info wallets external log
            (balanceExternal L info wallets external)) ∧
    ∀ external, (∃ left, balanceExternal L info wallets external = (.ok none, left)) ↔
      (∃ segment, FreeSegment external segment) ∧ Covers L info external := by
  refine ⟨fun tx now ttl => selfBalanced_loop tx now ttl, fun external => ?_,
    balanceExternal_none_iff⟩
  cases hsegment : feeSegment external with
  | error e => exact balanceExternal_refused hsegment
  | ok segment => exact externalBalanced_loop hsegment

section Plain

/-- A ledger whose Dust wallets are the values they hold. -/
def plainTypes : LedgerTypes :=
  ⟨List ℕ, List ℕ, Unit, Unit, Unit, Unit, Unit, Unit, Unit, Unit, Unit, Unit, List ℕ, Unit,
    Unit, Unit, Unit⟩

/-- The values from the first on that reach the amount. -/
def drawn : List ℕ → ℕ → Except String (List ℕ × List ℕ)
  | held, 0 => .ok ([], held)
  | [], _ => .error "insufficient dust"
  | v :: held, amount => (drawn held (amount - v)).map fun r => (v :: r.1, r.2)

/-- A fee of two and one for each spend, and none for a claim. -/
def plainFee : FinalizedTx plainTypes → ℕ
  | .claimRewards _ => 0
  | .standard tx => 2 + ((tx.intents Segment.fallible : Option (List ℕ)).getD []).length

def plainPaid : FinalizedTx plainTypes → ℕ
  | .claimRewards _ => 0
  | .standard tx => ((tx.intents Segment.fallible : Option (List ℕ)).getD []).sum

def plainLedger : Ledger plainTypes where
  speculativeSpend held amount _ _ :=
    (drawn held amount).map fun r => (r.1.map fun v => ⟨v, ()⟩, r.2)
  markSpent _ _ left := left
  emptyIntent _ _ := (⟨none, none, none, ()⟩, ())
  split rng := rng
  sign _ rng _ := ((), rng)
  dataToSign _ _ := []
  bindingRandomness _ _ _ := ()
  mockProve
    | .claimRewards claim => .ok (.claimRewards claim)
    | .standard tx => .ok (.standard ⟨fun s => (tx.intents s).map fun intent =>
        intent.dustActions.elim [] fun dust => dust.spends.map DustSpend.vFee, ()⟩)
  merge external _ := .ok external
  feesWithMargin tx _ _ := .ok (plainFee tx)
  balance tx fees := .ok [((.dust, Segment.guaranteed), plainPaid tx - fees.getD 0)]

def plainInfo : TransactionInfo plainTypes :=
  ⟨"undeployed", (), 60, ⟨0, 0⟩, [[1]], (), [], fun _ => none, fun _ => ([], [])⟩

/-- One wallet with three values. -/
def plainWallets : Wallets plainTypes :=
  fun seed => if seed = [1] then some ⟨([1, 1, 5] : List ℕ), ()⟩ else none

example : ((balanceFeesWithMocks plainLedger plainInfo plainWallets
      (Transaction.fromIntents plainLedger "undeployed" (fun _ => none)) 0 60).1.toOption.map
    fun r => (flatSpends r.2).map DustSpend.vFee) = some [1, 1, 5] := by decide

/-- A standard transaction with an intent at each segment, paid for. -/
def crowded : FinalizedTx plainTypes := .standard ⟨fun _ => some ([2, 2] : List ℕ), ()⟩

/-- A transaction that needs no fee is refused when it has no segment for one. -/
theorem paid_without_segment_refused :
    Covers plainLedger plainInfo (.claimRewards [1]) ∧
    (∀ left, balanceExternal plainLedger plainInfo plainWallets (.claimRewards [1]) ≠
      (.ok none, left)) ∧
    Covers plainLedger plainInfo crowded ∧
    ∀ left, balanceExternal plainLedger plainInfo plainWallets crowded ≠ (.ok none, left) := by
  refine ⟨⟨0, _, rfl, rfl, by decide⟩, fun left h => ?_, ⟨4, _, rfl, rfl, by decide⟩,
    fun left h => ?_⟩
  · obtain ⟨⟨_, _, _, _, h, _⟩, -⟩ := (balanceExternal_none_iff _).mp ⟨left, h⟩
    cases h
  · obtain ⟨⟨_, _, _, _, h, hfree⟩, -⟩ := (balanceExternal_none_iff _).mp ⟨left, h⟩
    cases h
    cases hfree

end Plain

end MidnightRs.FeeBalancing
