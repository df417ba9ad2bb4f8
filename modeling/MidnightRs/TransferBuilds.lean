import MidnightRs.Deadlines
import MidnightRs.Registrations
import MidnightRs.Results
import Mathlib.Algebra.BigOperators.Group.List.Basic
import Mathlib.Algebra.Order.Ring.Nat
import Mathlib.Algebra.Order.Ring.Int

/-!
The transfers that a wallet builds: payments, the halves of a swap and a Dust
registration. A build selects inputs that cover the amount, pays the remainder back
to the wallet, and adds nothing else, so what its transaction leaves over in each
token is what the request declares. The ledger's wallet, its selection and its fee
are parameters.
-/
namespace MidnightRs.TransferBuilds

open Results Reservations WalletBuilds

inductive CoinSelectionStrategy where
  | largestFirst
  | smallestFirst
deriving DecidableEq, Repr

inductive TransferKind where
  | shielded (tokenType : Bytes) (amount : ℕ) (recipient : String) (payFees : Bool)
  | unshielded (tokenType : Bytes) (amount : ℕ) (recipient : String) (payFees : Bool)
  | shieldedSwap (giveToken : Bytes) (giveAmount : ℕ) (receiveToken : Bytes)
      (receiveAmount : ℕ)
  | dustRegistration (utxoCtime : Option Timestamp) (target : Option Bytes)
deriving DecidableEq, Repr

/-- A TTL counts nanoseconds. -/
structure TransferRequest where
  kind : TransferKind
  coinSelection : CoinSelectionStrategy
  ttl : Option ℕ
deriving DecidableEq, Repr

/-- A selected coin, which a selection pins by its nullifier. -/
structure InputInfo where
  tokenType : Bytes
  value : ℕ
  nullifier : Option Nullifier
deriving DecidableEq, Repr

structure UtxoSpendInfo where
  value : ℕ
  tokenType : Bytes
  intentHash : Option Bytes
  outputNumber : Option ℕ
deriving DecidableEq, Repr

structure UtxoSpend where
  value : ℕ
  tokenType : Bytes
  intentHash : Bytes
  outputNo : ℕ
deriving DecidableEq, Repr

inductive SelectionError where
  | insufficientBalance (required : ℕ) (tokenType : Bytes)
  | other (message : String)
deriving DecidableEq, Repr

variable (I D : Type)

/-- A shielded input the wallet already produced. -/
structure PreparedInput where
  input : I
  tokenType : Bytes
  value : ℕ
deriving DecidableEq, Repr

structure OutputInfo where
  destination : D
  tokenType : Bytes
  value : ℕ
deriving DecidableEq, Repr

structure OfferInfo where
  inputs : List (PreparedInput I)
  outputs : List (OutputInfo D)
deriving DecidableEq, Repr

structure UnshieldedOfferInfo where
  inputs : List UtxoSpendInfo
  outputs : List (OutputInfo D)
deriving DecidableEq, Repr

structure IntentInfo where
  guaranteedUnshieldedOffer : Option (UnshieldedOfferInfo D)
  fallibleUnshieldedOffer : Option (UnshieldedOfferInfo D)
deriving DecidableEq, Repr

structure DustRegistrationBuilder where
  dustAddress : Bytes
  allowFeePayment : ℕ
deriving DecidableEq, Repr

/-- A transaction to be: its intents stand at segments, and a build that funds
itself names its own seed. -/
structure StandardTransactionInfo where
  guaranteedOffer : Option (OfferInfo I D)
  intents : List (ℕ × IntentInfo D)
  fundsItself : Bool
  dustRegistrations : List DustRegistrationBuilder
  mockProofsForFees : Bool
deriving DecidableEq, Repr

structure UnshieldedOffer where
  inputs : List UtxoSpend
  outputs : List (OutputInfo D)
deriving DecidableEq, Repr

structure DustActions where
  spends : List DustSpend
  registrations : List DustRegistrationBuilder
  ctime : Timestamp
deriving DecidableEq, Repr

structure Intent where
  ttl : Timestamp
  guaranteedUnshieldedOffer : Option (UnshieldedOffer D)
  fallibleUnshieldedOffer : Option (UnshieldedOffer D)
  dustActions : Option DustActions
deriving DecidableEq, Repr

structure UnprovenTx where
  networkId : String
  guaranteedOffer : Option (OfferInfo I D)
  intents : List (ℕ × Intent D)
deriving DecidableEq, Repr

/-- A build whose inputs are selected and whose fee is balanced. -/
structure Prepared where
  tx : UnprovenTx I D
  draft : Draft
deriving DecidableEq, Repr

def Prepared.dustSpends {I D : Type} (p : Prepared I D) : List DustSpend :=
  p.draft.dustBatches.flatMap DustSpendBatch.spends

/-- The ledger's wallet in a build context, with the addresses it reads: its Zswap
state, its selections, and how its fee is balanced. -/
structure Toolkit (Z : Type) where
  networkId : String
  own : D
  dustKey : Bytes
  nullifier : I → Nullifier
  showNullifier : Nullifier → String
  shieldedDestination : String → Except WalletError D
  unshieldedRecipient : String → Except WalletError D
  zswap : ContextWallet → Z
  coin : Z → Nullifier → Option Coin
  spend : Z → Coin → Except String (Z × I)
  coinsToCoverValue : ContextWallet → ℕ → Bytes → CoinSelectionStrategy →
    Except SelectionError (List InputInfo × ℕ)
  utxosToCoverValue : List TrackedUtxo → ℕ → Bytes → CoinSelectionStrategy →
    Except SelectionError (List UtxoSpendInfo × ℕ)
  buildSpend : List TrackedUtxo → UtxoSpendInfo → UtxoSpend
  checkOffer : OfferInfo I D → Except String Unit
  balanceFees : BuildContext → StandardTransactionInfo I D → UnprovenTx I D → Timestamp →
    Timestamp → Except WalletError (List DustSpendBatch)

variable {I D}

def walletErr (e : WalletError) : Failure := .error e

/-- The segment of a transaction's own intent. -/
def Segment.fallible : ℕ := 1

namespace Toolkit

variable {Z : Type} (L : Toolkit I D Z)

section Shielded

/-- A funded context holds the wallet that it was funded from. -/
def viewOf (ctx : BuildContext) : Result ContextWallet :=
  match ctx.wallet with
  | some view => .ok view
  | none => .error .panicked

def shieldedSelectionError (view : ContextWallet) : SelectionError → WalletError
  | .insufficientBalance required tokenType =>
    .insufficientShielded tokenType required
      (((view.coins.filter (fun c => decide (c.tokenType = tokenType))).map Coin.value).foldl
        (fun sum value => min (sum + value) (2 ^ 128 - 1)) 0)
  | .other message => .transfer s!"shielded coin selection: {message}"

def utxoSelectionError (utxos : List TrackedUtxo) : SelectionError → WalletError
  | .insufficientBalance required tokenType =>
    .insufficientUnshielded tokenType required
      (((utxos.filter (fun u => decide (u.tokenType = tokenType))).map TrackedUtxo.value).foldl
        (fun sum value => min (sum + value) (2 ^ 128 - 1)) 0)
  | .other message => .transfer s!"utxo selection: {message}"

/-- The first nullifier that a list names again. -/
def repeatedAfter (named : List Nullifier) : List Nullifier → Option Nullifier
  | [] => none
  | n :: ns => if n ∈ named then some n else repeatedAfter (n :: named) ns

def refuseRepeatedNullifiers (nullifiers : List Nullifier) : Except WalletError Unit :=
  match repeatedAfter [] nullifiers with
  | some repeated => .error (.duplicateInput s!"shielded coin {L.showNullifier repeated}")
  | none => .ok ()

def notSpendable (n : Nullifier) : WalletError :=
  .transfer (s!"shielded coin {L.showNullifier n} is not spendable by this wallet (already " ++
    "spent, not yet synced, or not owned by it)")

/-- Spends the coins one after the other, each from the state the last one left. -/
def spendEach : Z → List Nullifier → Except WalletError (List (PreparedInput I))
  | _, [] => .ok []
  | z, n :: ns =>
    match L.coin z n with
    | none => .error (L.notSpendable n)
    | some coin =>
      match L.spend z coin with
      | .error e => .error (.transfer s!"spend shielded coin: {e}")
      | .ok (updated, input) => do
        let rest ← spendEach updated ns
        .ok (⟨input, coin.tokenType, coin.value⟩ :: rest)

def prepareShieldedInputs (view : ContextWallet) (nullifiers : List Nullifier) :
    Except WalletError (List (PreparedInput I)) := do
  L.refuseRepeatedNullifiers nullifiers
  L.spendEach (L.zswap view) nullifiers

def pinned (i : InputInfo) : Except WalletError Nullifier :=
  match i.nullifier with
  | some n => .ok n
  | none => .error (.transfer "selected shielded coin has no nullifier to reserve")

end Shielded

section Assembling

def paysOwnFee (info : StandardTransactionInfo I D) : Bool :=
  info.fundsItself || !info.dustRegistrations.isEmpty

def refuseTtlWithoutIntent (info : StandardTransactionInfo I D) (ttl : Option ℕ) :
    Except WalletError Unit :=
  if ttl.isSome ∧ info.intents.isEmpty ∧ paysOwnFee info = false then .error .ttlWithoutIntent
  else .ok ()

def buildUnshielded (utxos : List TrackedUtxo) (offer : UnshieldedOfferInfo D) :
    UnshieldedOffer D :=
  ⟨offer.inputs.map (L.buildSpend utxos), offer.outputs⟩

def buildIntent (utxos : List TrackedUtxo) (ttl : Timestamp) (info : IntentInfo D) : Intent D where
  ttl := ttl
  guaranteedUnshieldedOffer := info.guaranteedUnshieldedOffer.map (L.buildUnshielded utxos)
  fallibleUnshieldedOffer := info.fallibleUnshieldedOffer.map (L.buildUnshielded utxos)
  dustActions := none

def assembleUnproven (h : Helpers) (ctx : BuildContext) (info : StandardTransactionInfo I D)
    (ttl : Option ℕ) : Except WalletError (UnprovenTx I D × Timestamp × Timestamp) := do
  refuseTtlWithoutIntent info ttl
  let ttl ← ctx.intentTtl h ttl
  info.guaranteedOffer.forM fun offer =>
    (L.checkOffer offer).mapError (fun e => .transfer s!"build guaranteed offer: {e}")
  .ok (⟨L.networkId, info.guaranteedOffer,
    info.intents.map (fun i => (i.1, L.buildIntent ctx.utxos ttl i.2))⟩, (ctx.block h).tblock, ttl)

/-- The transaction with the spends in its fallible intent. -/
def applyDust (info : StandardTransactionInfo I D) (tx : UnprovenTx I D) (spends : List DustSpend)
    (ttl now : Timestamp) : UnprovenTx I D :=
  if spends.isEmpty ∧ info.dustRegistrations.isEmpty then tx
  else
    let intent := (tx.intents.lookup Segment.fallible).getD ⟨ttl, none, none, none⟩
    { tx with intents := (Segment.fallible, { intent with
        dustActions := some ⟨spends, info.dustRegistrations, now⟩ }) ::
      tx.intents.filter (fun i => !decide (i.1 = Segment.fallible)) }

def mocksRequired : WalletError :=
  .transfer ("cannot prepare a self-funded build that prices its fee with real proofs; it " ++
    "would prove on every balancing round")

/-- The transaction with its own fee, if it pays one, and the Dust drawn for it. -/
def withOwnFee (ctx : BuildContext) (info : StandardTransactionInfo I D) (tx : UnprovenTx I D)
    (now ttl : Timestamp) : Except WalletError (UnprovenTx I D × List DustSpendBatch) :=
  if paysOwnFee info = false then .ok (tx, [])
  else if info.mockProofsForFees = true then do
    let batches ← L.balanceFees ctx info tx now ttl
    .ok (applyDust info tx (batches.flatMap DustSpendBatch.spends) ttl now, batches)
  else .error mocksRequired

/-- The inputs are selected and the fee is balanced; nothing is proven. -/
def prepareWithTtl (h : Helpers) (ctx : BuildContext) (info : StandardTransactionInfo I D)
    (ttl : Option ℕ) (unshielded : List SpentUtxoKey) (shielded : List Nullifier) :
    Except WalletError (Prepared I D) := do
  let (tx, now, ttl) ← L.assembleUnproven h ctx info ttl
  let (tx, batches) ← L.withOwnFee ctx info tx now ttl
  .ok ⟨tx, ⟨batches, unshielded, shielded, tx.intents.map (fun i => i.2.ttl)⟩⟩

end Assembling

section Builders

variable (h : Helpers) (ctx : BuildContext)

/-- The payment comes first, then the change back to the wallet, if any. -/
def withChange (payment : OutputInfo D) (token : Bytes) (change : ℕ) : List (OutputInfo D) :=
  if 0 < change then [payment, ⟨L.own, token, change⟩] else [payment]

def prepareShieldedOffer (strategy : CoinSelectionStrategy) (ttl : Option ℕ)
    (spendToken : Bytes) (spendAmount : ℕ) (payment : OutputInfo D) (payFees : Bool) :
    Result (Prepared I D) := do
  let view ← viewOf ctx
  Except.mapError walletErr do
    let (inputs, change) ← (L.coinsToCoverValue view spendAmount spendToken strategy).mapError
      (shieldedSelectionError view)
    let nullifiers ← inputs.mapM pinned
    let prepared ← L.prepareShieldedInputs view nullifiers
    let offer : OfferInfo I D := ⟨prepared, L.withChange payment spendToken change⟩
    L.prepareWithTtl h ctx ⟨some offer, [], payFees, [], true⟩ ttl [] nullifiers

def prepareShielded (strategy : CoinSelectionStrategy) (ttl : Option ℕ) (tokenType : Bytes)
    (amount : ℕ) (recipient : String) (payFees : Bool) : Result (Prepared I D) := do
  let wallet ← (L.shieldedDestination recipient).mapError walletErr
  L.prepareShieldedOffer h ctx strategy ttl tokenType amount ⟨wallet, tokenType, amount⟩ payFees

/-- The half of a swap never funds its own Dust. -/
def prepareShieldedSwap (strategy : CoinSelectionStrategy) (ttl : Option ℕ) (giveToken : Bytes)
    (giveAmount : ℕ) (receiveToken : Bytes) (receiveAmount : ℕ) : Result (Prepared I D) :=
  L.prepareShieldedOffer h ctx strategy ttl giveToken giveAmount
    ⟨L.own, receiveToken, receiveAmount⟩ false

/-- The key of a pinned spend. -/
def spentKey? (i : UtxoSpendInfo) : Option SpentUtxoKey :=
  match i.intentHash, i.outputNumber with
  | some intentHash, some outputIndex => some ⟨intentHash, outputIndex⟩
  | _, _ => none

def prepareUnshielded (strategy : CoinSelectionStrategy) (ttl : Option ℕ) (tokenType : Bytes)
    (amount : ℕ) (recipient : String) (payFees : Bool) : Except WalletError (Prepared I D) := do
  let wallet ← L.unshieldedRecipient recipient
  let (spends, change) ← (L.utxosToCoverValue ctx.utxos amount tokenType strategy).mapError
    (utxoSelectionError ctx.utxos)
  let offer : UnshieldedOfferInfo D :=
    ⟨spends, L.withChange ⟨wallet, tokenType, amount⟩ tokenType change⟩
  L.prepareWithTtl h ctx
    ⟨some ⟨[], []⟩, [(Segment.fallible, ⟨some offer, none⟩)], payFees, [], true⟩ ttl
    (spends.filterMap spentKey?) []

/-- What a registration of a UTXO builds: it spends the UTXO and re-creates it. -/
def registrationInfo (target : Option Bytes) (u : TrackedUtxo) (allowFeePayment : ℕ) :
    StandardTransactionInfo I D where
  guaranteedOffer := none
  intents := [(Segment.fallible,
    ⟨some ⟨[⟨u.value, night, some u.intentHash, some u.outputIndex⟩],
      [⟨L.own, night, u.value⟩]⟩, none⟩)]
  fundsItself := false
  dustRegistrations := [⟨target.getD L.dustKey, allowFeePayment⟩]
  mockProofsForFees := true

def prepareRegisterDust (dust : DustParameters) (w : Wallet) (ttl : Option ℕ)
    (utxoCtime : Option Timestamp) (target : Option Bytes) : Except WalletError (Prepared I D) :=
  let now := (ctx.block h).tblock
  if w.allNight.isEmpty then .error Wallet.noNight
  else
    match w.registrationInput dust utxoCtime now with
    | none => .error Wallet.allRegistered
    | some chosen =>
      L.prepareWithTtl h ctx
        (L.registrationInfo target chosen (Wallet.availability dust utxoCtime now chosen)) ttl
        [chosen.spentKey] []

/-- The transfer that a request names, from the wallet and its funded context. -/
def prepare (dust : DustParameters) (request : TransferRequest) (w : Wallet) :
    Result (Prepared I D) :=
  match request.kind with
  | .shielded tokenType amount recipient payFees =>
    L.prepareShielded h ctx request.coinSelection request.ttl tokenType amount recipient payFees
  | .unshielded tokenType amount recipient payFees =>
    (L.prepareUnshielded h ctx request.coinSelection request.ttl tokenType amount recipient
      payFees).mapError walletErr
  | .shieldedSwap giveToken giveAmount receiveToken receiveAmount =>
    L.prepareShieldedSwap h ctx request.coinSelection request.ttl giveToken giveAmount
      receiveToken receiveAmount
  | .dustRegistration utxoCtime target =>
    (L.prepareRegisterDust h ctx dust w request.ttl utxoCtime target).mapError walletErr

end Builders

/-- What the ledger's crates promise of a wallet: a spend leaves the coins as they
are, and a selection pins spendable inputs of one token, whose values exceed the
amount by the change, and takes each UTXO that is listed at most once. -/
structure Lawful : Prop where
  coin_zswap : ∀ {view n c}, L.coin (L.zswap view) n = some c → c ∈ view.coins ∧ c.nullifier = n
  spend_coin : ∀ {z c z' input}, L.spend z c = .ok (z', input) →
    L.nullifier input = c.nullifier ∧ ∀ n, L.coin z' n = L.coin z n
  covers_coins : ∀ {view amount token strategy inputs change},
    L.coinsToCoverValue view amount token strategy = .ok (inputs, change) →
      (inputs.map InputInfo.value).sum = amount + change ∧ ∀ i ∈ inputs, ∃ n c,
        i.nullifier = some n ∧ L.coin (L.zswap view) n = some c ∧ c.tokenType = token ∧
          c.value = i.value
  covers_utxos : ∀ {utxos amount token strategy spends change},
    L.utxosToCoverValue utxos amount token strategy = .ok (spends, change) →
      (spends.map UtxoSpendInfo.value).sum = amount + change ∧ ∀ s ∈ spends,
        s.tokenType = token ∧ ∃ u ∈ utxos, s.intentHash = some u.intentHash ∧
          s.outputNumber = some u.outputIndex
  takes_once : ∀ {utxos amount token strategy spends change},
    L.utxosToCoverValue utxos amount token strategy = .ok (spends, change) →
      (spends.filterMap spentKey?).Subperm (utxos.map TrackedUtxo.spentKey)
  build_pinned : ∀ utxos value token intentHash output,
    L.buildSpend utxos ⟨value, token, some intentHash, some output⟩ =
      ⟨value, token, intentHash, output⟩
  balance_draws : ∀ {ctx info tx now ttl batches}, L.balanceFees ctx info tx now ttl = .ok batches →
    ∀ b ∈ batches, ∀ s ∈ b.spends, ∃ view, ctx.wallet = some view ∧
      s.oldNullifier ∉ view.dust.spentUtxos

end Toolkit

section Sums

variable {K A : Type} [DecidableEq K]

/-- What signed amounts come to in one key. -/
def net (entries : List (K × ℤ)) (key : K) : ℤ :=
  ((entries.filter (fun e => decide (e.1 = key))).map Prod.snd).sum

@[simp] theorem net_nil (key : K) : net [] key = 0 := rfl

theorem net_append (xs ys : List (K × ℤ)) (key : K) :
    net (xs ++ ys) key = net xs key + net ys key := by
  simp [net]

theorem net_cons (e : K × ℤ) (entries : List (K × ℤ)) (key : K) :
    net (e :: entries) key = (if e.1 = key then e.2 else 0) + net entries key := by
  by_cases h : e.1 = key <;> simp [net, h]

/-- Amounts that all stand under one key. -/
theorem net_keyed {f : A → K} (value : A → ℕ) {xs : List A} {token : K}
    (h : ∀ x ∈ xs, f x = token) (key : K) : net (xs.map (fun x => (f x, (value x : ℤ)))) key =
      if token = key then ((xs.map value).sum : ℤ) else 0 := by
  induction xs with
  | nil => simp
  | cons x xs ih =>
    obtain ⟨hx, hxs⟩ := List.forall_mem_cons.mp h
    rw [List.map_cons, net_cons, ih hxs, hx, List.map_cons, List.sum_cons]
    split
    · push_cast
      rfl
    · rfl

end Sums

section Transactions

variable {I D : Type}

/-- The tokens that offers move; Dust moves in a fee's own actions. -/
inductive Token where
  | shielded (type : Bytes)
  | unshielded (type : Bytes)
deriving DecidableEq, Repr

def OfferInfo.entries (offer : OfferInfo I D) : List (Token × ℤ) :=
  offer.inputs.map (fun i => (.shielded i.tokenType, (i.value : ℤ))) ++
    offer.outputs.map (fun o => (.shielded o.tokenType, -(o.value : ℤ)))

def UnshieldedOffer.entries (offer : UnshieldedOffer D) : List (Token × ℤ) :=
  offer.inputs.map (fun s => (.unshielded s.tokenType, (s.value : ℤ))) ++
    offer.outputs.map (fun o => (.unshielded o.tokenType, -(o.value : ℤ)))

def Intent.offers (intent : Intent D) : List (UnshieldedOffer D) :=
  intent.guaranteedUnshieldedOffer.toList ++ intent.fallibleUnshieldedOffer.toList

namespace UnprovenTx

def unshieldedOffers (tx : UnprovenTx I D) : List (UnshieldedOffer D) :=
  tx.intents.flatMap (fun i => i.2.offers)

/-- What the transaction's inputs bring and its outputs take, by token. -/
def entries (tx : UnprovenTx I D) : List (Token × ℤ) :=
  tx.guaranteedOffer.toList.flatMap OfferInfo.entries ++
    tx.unshieldedOffers.flatMap UnshieldedOffer.entries

/-- The UTXOs that the transaction spends. -/
def spentKeys (tx : UnprovenTx I D) : List SpentUtxoKey :=
  tx.unshieldedOffers.flatMap (fun o => o.inputs.map (fun s => ⟨s.intentHash, s.outputNo⟩))

/-- The Dust that the transaction spends. -/
def spentDust (tx : UnprovenTx I D) : List DustNullifier :=
  tx.intents.flatMap (fun i =>
    i.2.dustActions.toList.flatMap (fun d => d.spends.map DustSpend.oldNullifier))

/-- The shielded coins that the transaction spends. -/
def spentCoins (nullifier : I → Nullifier) (tx : UnprovenTx I D) : List Nullifier :=
  tx.guaranteedOffer.toList.flatMap (fun o => o.inputs.map (fun i => nullifier i.input))

end UnprovenTx

/-- What a transfer leaves over by itself: a half of a swap leaves what it gives and
lacks what it receives. -/
def TransferKind.declared : TransferKind → List (Token × ℤ)
  | .shielded _ _ _ _ => []
  | .unshielded _ _ _ _ => []
  | .shieldedSwap giveToken giveAmount receiveToken receiveAmount =>
    [(.shielded giveToken, (giveAmount : ℤ)), (.shielded receiveToken, -(receiveAmount : ℤ))]
  | .dustRegistration _ _ => []

end Transactions

section Spending

open Toolkit

variable {I D Z : Type} {L : Toolkit I D Z}

theorem repeatedAfter_none {named ns : List Nullifier} (h : repeatedAfter named ns = none) :
    ns.Nodup ∧ ∀ n ∈ ns, n ∉ named := by
  induction ns generalizing named with
  | nil => exact ⟨List.nodup_nil, fun _ hn => by cases hn⟩
  | cons n ns ih =>
    rw [repeatedAfter] at h
    split at h
    · cases h
    · rename_i hnot
      obtain ⟨hnodup, hfresh⟩ := ih h
      refine ⟨List.nodup_cons.mpr ⟨fun hn => hfresh n hn List.mem_cons_self, hnodup⟩, ?_⟩
      intro m hm
      rcases List.mem_cons.mp hm with rfl | hm
      · exact hnot
      · exact fun hmem => hfresh m hm (List.mem_cons_of_mem n hmem)

/-- A selected coin of the view, spent into an offer. -/
structure Spent (L : Toolkit I D Z) (view : ContextWallet) (token : Bytes) (n : Nullifier)
    (input : PreparedInput I) : Prop where
  nullifier : L.nullifier input.input = n
  tokenType : input.tokenType = token
  held : ∃ c ∈ view.coins, c.nullifier = n

/-- Each selected coin is spent once, with the token and the value it has in the
wallet, whatever was spent before it. -/
theorem spendEach_selected (hL : L.Lawful) {view : ContextWallet} {token : Bytes}
    {infos : List InputInfo} {ns : List Nullifier} {z : Z} {inputs : List (PreparedInput I)}
    (hz : ∀ n, L.coin z n = L.coin (L.zswap view) n)
    (hinfos : ∀ i ∈ infos, ∃ n c, i.nullifier = some n ∧ L.coin (L.zswap view) n = some c ∧
      c.tokenType = token ∧ c.value = i.value)
    (hns : infos.mapM pinned = .ok ns) (h : L.spendEach z ns = .ok inputs) :
    List.Forall₂ (Spent L view token) ns inputs ∧
      inputs.map PreparedInput.value = infos.map InputInfo.value := by
  induction infos generalizing ns z inputs with
  | nil =>
    rw [List.mapM_nil] at hns
    cases hns
    cases h
    exact ⟨.nil, rfl⟩
  | cons i infos ih =>
    obtain ⟨hi, hrest⟩ := List.forall_mem_cons.mp hinfos
    obtain ⟨n, c, hn, hc, htoken, hvalue⟩ := hi
    rw [List.mapM_cons] at hns
    obtain ⟨n', hn', hns⟩ := exists_of_bind hns
    obtain ⟨ns', hns', hns⟩ := exists_of_bind hns
    cases hns
    rw [pinned, hn] at hn'
    cases hn'
    rw [spendEach, hz, hc] at h
    simp only at h
    split at h
    · cases h
    · rename_i updated input hspend
      obtain ⟨rest, hrest', h⟩ := exists_of_bind h
      cases h
      obtain ⟨hnull, hkeeps⟩ := hL.spend_coin hspend
      obtain ⟨hheld, hname⟩ := hL.coin_zswap hc
      obtain ⟨hall, hvalues⟩ := ih (fun m => (hkeeps m).trans (hz m)) hrest hns' hrest'
      refine ⟨.cons ⟨hnull.trans hname, htoken, c, hheld, hname⟩ hall, ?_⟩
      rw [List.map_cons, List.map_cons, hvalues, hvalue]

theorem prepareShieldedInputs_selected (hL : L.Lawful) {view : ContextWallet} {token : Bytes}
    {infos : List InputInfo} {ns : List Nullifier} {inputs : List (PreparedInput I)}
    (hinfos : ∀ i ∈ infos, ∃ n c, i.nullifier = some n ∧ L.coin (L.zswap view) n = some c ∧
      c.tokenType = token ∧ c.value = i.value)
    (hns : infos.mapM pinned = .ok ns) (h : L.prepareShieldedInputs view ns = .ok inputs) :
    ns.Nodup ∧ List.Forall₂ (Spent L view token) ns inputs ∧
      inputs.map PreparedInput.value = infos.map InputInfo.value := by
  obtain ⟨_, hrefuse, h⟩ := exists_of_bind h
  refine ⟨?_, spendEach_selected hL (fun _ => rfl) hinfos hns h⟩
  unfold refuseRepeatedNullifiers at hrefuse
  split at hrefuse
  · cases hrefuse
  · exact (repeatedAfter_none (by assumption)).1

end Spending

section Assembled

open Toolkit

variable {I D Z : Type} (L : Toolkit I D Z)

/-- The intents of a build: those it asked for, and the one that carries its Dust. -/
def intentsOf (utxos : List TrackedUtxo) (info : StandardTransactionInfo I D) (ttl : Timestamp) :
    Option DustActions → List (ℕ × Intent D)
  | none => info.intents.map (fun i => (i.1, L.buildIntent utxos ttl i.2))
  | some dust => [(Segment.fallible,
      { ((info.intents.map (fun i => (i.1, L.buildIntent utxos ttl i.2))).lookup
          Segment.fallible).getD ⟨ttl, none, none, none⟩ with dustActions := some dust })]

/-- A build asks for at most one intent. -/
def OneIntent (info : StandardTransactionInfo I D) : Prop :=
  info.intents = [] ∨ ∃ i, info.intents = [(Segment.fallible, i)]

/-- What preparing adds to what a builder asked for: a TTL and Dust, nothing else. -/
structure Finished (h : Helpers) (ctx : BuildContext) (info : StandardTransactionInfo I D)
    (requested : Option ℕ) (p : Prepared I D) : Prop where
  networkId : p.tx.networkId = L.networkId
  offer : p.tx.guaranteedOffer = info.guaranteedOffer
  intents : ∃ ttl dust, ctx.intentTtl h requested = .ok ttl ∧
    p.tx.intents = intentsOf L ctx.utxos info ttl dust ∧
      (dust = none ↔ p.dustSpends = [] ∧ info.dustRegistrations = []) ∧
      ∀ d, dust = some d → d.spends = p.dustSpends
  ttls : p.draft.intentTtls = p.tx.intents.map (fun i => i.2.ttl)
  dust : p.draft.dustBatches = [] ∨ ∃ tx now ttl,
    L.balanceFees ctx info tx now ttl = .ok p.draft.dustBatches

variable {L} {h : Helpers} {ctx : BuildContext} {info : StandardTransactionInfo I D}
  {requested : Option ℕ} {p : Prepared I D}

theorem assembleUnproven_ok {tx : UnprovenTx I D} {now ttl : Timestamp}
    (ha : L.assembleUnproven h ctx info requested = .ok (tx, now, ttl)) :
    ctx.intentTtl h requested = .ok ttl ∧ tx = ⟨L.networkId, info.guaranteedOffer,
      intentsOf L ctx.utxos info ttl none⟩ := by
  obtain ⟨_, -, ha⟩ := exists_of_bind ha
  obtain ⟨t, ht, ha⟩ := exists_of_bind ha
  obtain ⟨_, -, ha⟩ := exists_of_bind ha
  cases ha
  exact ⟨ht, rfl⟩

theorem applyDust_intents {utxos : List TrackedUtxo} {ttl now : Timestamp}
    (hone : OneIntent info) (spends : List DustSpend) :
    ∃ dust, applyDust info ⟨L.networkId, info.guaranteedOffer, intentsOf L utxos info ttl none⟩
      spends ttl now = ⟨L.networkId, info.guaranteedOffer, intentsOf L utxos info ttl dust⟩ ∧
        (dust = none ↔ spends = [] ∧ info.dustRegistrations = []) ∧
        ∀ d, dust = some d → d.spends = spends := by
  unfold applyDust
  split
  · rename_i hnone
    exact ⟨none, rfl, by simpa using hnone, fun d hd => by cases hd⟩
  · rename_i hsome
    refine ⟨some ⟨spends, info.dustRegistrations, now⟩, ?_, by simpa using hsome,
      fun d hd => by cases hd; rfl⟩
    rcases hone with hnone | ⟨i, hi⟩
    · simp [intentsOf, hnone]
    · simp [intentsOf, hi]

theorem prepareWithTtl_ok (hone : OneIntent info) {unshielded : List SpentUtxoKey}
    {shielded : List Nullifier}
    (hp : L.prepareWithTtl h ctx info requested unshielded shielded = .ok p) :
    Finished L h ctx info requested p ∧ p.draft.spentUnshieldedInputs = unshielded ∧
      p.draft.spentShieldedInputs = shielded := by
  obtain ⟨⟨tx, now, ttl⟩, ha, hp⟩ := exists_of_bind hp
  obtain ⟨httl, rfl⟩ := assembleUnproven_ok ha
  obtain ⟨⟨tx', batches⟩, hfee, hp⟩ := exists_of_bind hp
  cases hp
  refine ⟨?_, rfl, rfl⟩
  unfold withOwnFee at hfee
  split at hfee
  · rename_i hno
    cases hfee
    have hregs : info.dustRegistrations = [] := by
      simpa [paysOwnFee] using (Bool.or_eq_false_iff.mp hno).2
    exact ⟨rfl, rfl, ⟨ttl, none, httl, rfl, ⟨fun _ => ⟨rfl, hregs⟩, fun _ => rfl⟩,
      fun d hd => by cases hd⟩, rfl, .inl rfl⟩
  · split at hfee
    · obtain ⟨batches', hbalance, hfee⟩ := exists_of_bind hfee
      cases hfee
      obtain ⟨dust, hdust, hnone⟩ := @applyDust_intents _ _ _ L _ ctx.utxos ttl now hone
        (batches.flatMap DustSpendBatch.spends)
      rw [hdust]
      exact ⟨rfl, rfl, ⟨ttl, dust, httl, rfl, hnone⟩, rfl, .inr ⟨_, now, ttl, hbalance⟩⟩
    · cases hfee

/-- Dust changes no offer of a build. -/
theorem unshieldedOffers_intentsOf (hone : OneIntent info) (utxos : List TrackedUtxo)
    (ttl : Timestamp) (dust : Option DustActions) :
    (intentsOf L utxos info ttl dust).flatMap (fun i => i.2.offers) =
      info.intents.flatMap (fun i =>
        (i.2.guaranteedUnshieldedOffer.toList ++ i.2.fallibleUnshieldedOffer.toList).map
          (L.buildUnshielded utxos)) := by
  rcases hone with hnone | ⟨i, hi⟩
  · cases dust <;> simp [intentsOf, hnone, Intent.offers]
  · obtain ⟨g, f⟩ := i
    cases dust <;> cases g <;> cases f <;>
      simp [intentsOf, hi, Intent.offers, buildIntent]

theorem Finished.unshieldedOffers (hf : Finished L h ctx info requested p)
    (hone : OneIntent info) : p.tx.unshieldedOffers = info.intents.flatMap (fun i =>
      (i.2.guaranteedUnshieldedOffer.toList ++ i.2.fallibleUnshieldedOffer.toList).map
        (L.buildUnshielded ctx.utxos)) := by
  obtain ⟨ttl, dust, -, hintents, -⟩ := hf.intents
  rw [UnprovenTx.unshieldedOffers, hintents]
  exact unshieldedOffers_intentsOf hone ctx.utxos ttl dust

/-- The Dust that a build spends is what was drawn for its fee. -/
theorem Finished.spentDust (hf : Finished L h ctx info requested p) :
    p.tx.spentDust = p.dustSpends.map DustSpend.oldNullifier := by
  obtain ⟨ttl, dust, -, hintents, hnone, hsome⟩ := hf.intents
  rw [UnprovenTx.spentDust, hintents]
  cases dust with
  | none =>
    rw [(hnone.mp rfl).1, intentsOf, List.flatMap_map]
    exact List.flatMap_eq_nil_iff.mpr fun _ _ => rfl
  | some d => simp [intentsOf, hsome d rfl]

/-- An intent stands in the transaction when the builder or the fee asks for one. -/
theorem Finished.segments (hf : Finished L h ctx info requested p) (hone : OneIntent info) :
    p.tx.intents.map Prod.fst =
      if info.intents = [] ∧ p.dustSpends = [] ∧ info.dustRegistrations = [] then []
      else [Segment.fallible] := by
  obtain ⟨ttl, dust, -, hintents, hnone, -⟩ := hf.intents
  rw [hintents]
  simp only [← hnone]
  rcases hone with hi | ⟨i, hi⟩
  · cases dust <;> simp [intentsOf, hi]
  · cases dust <;> simp [intentsOf, hi]

/-- Every intent of a build has the TTL that the request gives. -/
theorem Finished.ttl_eq (hf : Finished L h ctx info requested p) (hone : OneIntent info) :
    ∀ t ∈ p.draft.intentTtls, ctx.intentTtl h requested = .ok t := by
  obtain ⟨ttl, dust, httl, hintents, -⟩ := hf.intents
  have hall : ∀ i ∈ intentsOf L ctx.utxos info ttl dust, i.2.ttl = ttl := by
    rcases hone with hnone | ⟨i, hi⟩
    · cases dust <;> simp [intentsOf, hnone]
    · cases dust <;> simp [intentsOf, hi, buildIntent]
  intro t ht
  rw [hf.ttls, hintents] at ht
  obtain ⟨i, hi, rfl⟩ := List.mem_map.mp ht
  rw [hall i hi]
  exact httl

end Assembled

section Conserving

open Toolkit

variable {I D Z : Type} (L : Toolkit I D Z)

/-- A build leaves over what it declares, reserves exactly what its transaction
spends, no coin twice and no UTXO that the view lists once, and gives its intents the
requested TTL. One intent stands in it if the builder or the Dust of the fee needs one. -/
structure Conserved (h : Helpers) (ctx : BuildContext) (requested : Option ℕ)
    (declared : List (Token × ℤ)) (own : Bool) (p : Prepared I D) : Prop where
  networkId : p.tx.networkId = L.networkId
  segments : p.tx.intents.map Prod.fst =
    if own = false ∧ p.dustSpends = [] then [] else [Segment.fallible]
  balance : ∀ token, net p.tx.entries token = net declared token
  shielded : p.draft.spentShieldedInputs = p.tx.spentCoins L.nullifier
  once : p.draft.spentShieldedInputs.Nodup
  unshielded : p.draft.spentUnshieldedInputs = p.tx.spentKeys
  utxosOnce : (ctx.utxos.map TrackedUtxo.spentKey).Nodup → p.draft.spentUnshieldedInputs.Nodup
  dust : p.tx.spentDust = p.dustSpends.map DustSpend.oldNullifier
  ttls : ∀ t ∈ p.draft.intentTtls, ctx.intentTtl h requested = .ok t

/-- Unshielded inputs and registrations stand in an intent, shielded ones do not. -/
def TransferKind.ownIntent : TransferKind → Bool
  | .shielded _ _ _ _ => false
  | .unshielded _ _ _ _ => true
  | .shieldedSwap _ _ _ _ => false
  | .dustRegistration _ _ => true

/-- Payments draw from the funding view, a registration one tNIGHT UTXO from the
wallet. -/
def Drawn (ctx : BuildContext) (w : Wallet) (d : Draft) : TransferKind → Prop
  | .shielded _ _ _ _ => Ownership.Draws ctx d
  | .unshielded _ _ _ _ => Ownership.Draws ctx d
  | .shieldedSwap _ _ _ _ => Ownership.Draws ctx d
  | .dustRegistration _ _ => ∃ u ∈ w.unshieldedUtxos, u.isNight = true ∧
      u.isRegisteredForDust = false ∧ d.spentUnshieldedInputs = [u.spentKey]

variable {L} {h : Helpers} {ctx : BuildContext} {w : Wallet} {p : Prepared I D}

theorem Finished.draws (hL : L.Lawful) {info : StandardTransactionInfo I D}
    {requested : Option ℕ} (hf : Finished L h ctx info requested p) :
    ∀ b ∈ p.draft.dustBatches, ∀ s ∈ b.spends, ∃ view, ctx.wallet = some view ∧
      s.oldNullifier ∉ view.dust.spentUtxos := by
  rcases hf.dust with hnone | ⟨tx, now, ttl, hbalance⟩
  · rw [hnone]
    exact fun b hb => by cases hb
  · exact hL.balance_draws hbalance

theorem spentCoins_eq {view : ContextWallet} {token : Bytes} {ns : List Nullifier}
    {inputs : List (PreparedInput I)} (hall : List.Forall₂ (Spent L view token) ns inputs) :
    inputs.map (fun i => L.nullifier i.input) = ns := by
  induction hall with
  | nil => rfl
  | cons hspent _ ih => rw [List.map_cons, ih, hspent.nullifier]

theorem tokenType_eq {view : ContextWallet} {token : Bytes} {ns : List Nullifier}
    {inputs : List (PreparedInput I)} (hall : List.Forall₂ (Spent L view token) ns inputs) :
    ∀ i ∈ inputs, Token.shielded i.tokenType = .shielded token := by
  induction hall with
  | nil => exact fun i hi => by cases hi
  | cons hspent _ ih => exact List.forall_mem_cons.mpr ⟨by rw [hspent.tokenType], ih⟩

theorem held_of_mem {view : ContextWallet} {token : Bytes} {ns : List Nullifier}
    {inputs : List (PreparedInput I)} (hall : List.Forall₂ (Spent L view token) ns inputs) :
    ∀ n ∈ ns, ∃ c ∈ view.coins, c.nullifier = n := by
  induction hall with
  | nil => exact fun n hn => by cases hn
  | cons hspent _ ih => exact List.forall_mem_cons.mpr ⟨hspent.held, ih⟩

/-- Inputs that bring the amount and the change, against the payment and the change. -/
theorem net_withChange (L : Toolkit I D Z) (kind : Bytes → Token) {ins : List (Token × ℤ)}
    {token : Bytes} {amount change : ℕ} (payment : OutputInfo D) (key : Token)
    (hins : net ins key = if kind token = key then ((amount + change : ℕ) : ℤ) else 0) :
    net (ins ++ (L.withChange payment token change).map
        (fun o => (kind o.tokenType, -(o.value : ℤ)))) key =
      net [(kind token, (amount : ℤ)), (kind payment.tokenType, -(payment.value : ℤ))] key := by
  rw [net_append, hins, withChange]
  by_cases hchange : 0 < change
  · rw [if_pos hchange]
    simp only [List.map_cons, List.map_nil, net_cons, net_nil]
    push_cast
    split_ifs <;> omega
  · obtain rfl : change = 0 := by omega
    rw [if_neg hchange]
    simp only [List.map_cons, List.map_nil, net_cons, net_nil]
    split_ifs <;> omega

section Offers

variable {strategy : CoinSelectionStrategy} {ttl : Option ℕ} {payFees : Bool}

theorem prepareShieldedOffer_conserves (hL : L.Lawful) {token : Bytes} {amount : ℕ}
    {payment : OutputInfo D} (hp : L.prepareShieldedOffer h ctx strategy ttl token amount payment
      payFees = .ok p) :
    Conserved L h ctx ttl [(.shielded token, (amount : ℤ)),
      (.shielded payment.tokenType, -(payment.value : ℤ))] false p ∧
        Ownership.Draws ctx p.draft := by
  obtain ⟨view, hview, hp⟩ := exists_of_bind hp
  have hp := mapError_ok hp
  obtain ⟨⟨infos, change⟩, hselect, hp⟩ := exists_of_bind hp
  obtain ⟨ns, hns, hp⟩ := exists_of_bind hp
  obtain ⟨inputs, hinputs, hp⟩ := exists_of_bind hp
  obtain ⟨hsum, hinfos⟩ := hL.covers_coins (mapError_ok hselect)
  obtain ⟨hnodup, hall, hvalues⟩ := prepareShieldedInputs_selected hL hinfos hns hinputs
  have hone : OneIntent (⟨some ⟨inputs, L.withChange payment token change⟩, [], payFees, [],
    true⟩ : StandardTransactionInfo I D) := .inl rfl
  obtain ⟨hf, hunshielded, hshielded⟩ := prepareWithTtl_ok hone hp
  have hctx : ctx.wallet = some view := by
    unfold viewOf at hview
    split at hview
    · cases hview
      assumption
    · cases hview
  have hoffers : p.tx.unshieldedOffers = [] := hf.unshieldedOffers hone
  refine ⟨⟨hf.networkId, ?_, fun key => ?_, ?_, hshielded ▸ hnodup, ?_,
    fun _ => hunshielded ▸ List.nodup_nil, hf.spentDust, hf.ttl_eq hone⟩, hf.draws hL, ?_, ?_⟩
  · simpa using hf.segments hone
  · rw [UnprovenTx.entries, hoffers, hf.offer]
    have hins := net_keyed PreparedInput.value (tokenType_eq hall) key
    rw [hvalues, hsum] at hins
    simpa [OfferInfo.entries] using net_withChange L Token.shielded payment key hins
  · rw [UnprovenTx.spentCoins, hf.offer, hshielded]
    simpa using (spentCoins_eq hall).symm
  · rw [hunshielded, UnprovenTx.spentKeys, hoffers]
    rfl
  · rw [hunshielded]
    exact fun key hkey => by cases hkey
  · rw [hshielded]
    exact fun n hn => ⟨view, hctx, held_of_mem hall n hn⟩

/-- A pinned spend is built as it is, and reserved under its key. -/
theorem build_spend (hL : L.Lawful) {utxos : List TrackedUtxo} {s : UtxoSpendInfo}
    {u : TrackedUtxo} (hhash : s.intentHash = some u.intentHash)
    (hindex : s.outputNumber = some u.outputIndex) :
    L.buildSpend utxos s = ⟨s.value, s.tokenType, u.intentHash, u.outputIndex⟩ ∧
      spentKey? s = some u.spentKey := by
  obtain ⟨value, token, hash, index⟩ := s
  obtain rfl : hash = some u.intentHash := hhash
  obtain rfl : index = some u.outputIndex := hindex
  exact ⟨hL.build_pinned utxos value token _ _, rfl⟩

theorem build_spends (hL : L.Lawful) {utxos : List TrackedUtxo} {token : Bytes}
    {spends : List UtxoSpendInfo} (hspends : ∀ s ∈ spends, s.tokenType = token ∧ ∃ u ∈ utxos,
      s.intentHash = some u.intentHash ∧ s.outputNumber = some u.outputIndex) :
    (spends.map (L.buildSpend utxos)).map (fun s => (⟨s.intentHash, s.outputNo⟩ : SpentUtxoKey)) =
        spends.filterMap spentKey? ∧
      (spends.map (L.buildSpend utxos)).map UtxoSpend.value = spends.map UtxoSpendInfo.value ∧
      (∀ s ∈ spends.map (L.buildSpend utxos), Token.unshielded s.tokenType = .unshielded token) ∧
      ∀ key ∈ spends.filterMap spentKey?, ∃ u ∈ utxos, u.spentKey = key := by
  induction spends with
  | nil => simp
  | cons s spends ih =>
    obtain ⟨⟨htoken, u, hu, hhash, hindex⟩, hrest⟩ := List.forall_mem_cons.mp hspends
    obtain ⟨hkeys, hvalues, htokens, hdrawn⟩ := ih hrest
    obtain ⟨hbuild, hkey⟩ := build_spend hL hhash hindex
    rw [List.filterMap_cons_some hkey, List.map_cons, hbuild]
    refine ⟨congrArg (List.cons u.spentKey) hkeys, congrArg (List.cons s.value) hvalues, ?_, ?_⟩
    · exact List.forall_mem_cons.mpr ⟨by rw [htoken], htokens⟩
    · exact List.forall_mem_cons.mpr ⟨⟨u, hu, rfl⟩, hdrawn⟩

/-- A build whose one offer is the guaranteed unshielded one of its intent. -/
theorem Finished.single {info : StandardTransactionInfo I D} {requested : Option ℕ}
    {offer : UnshieldedOfferInfo D} (hf : Finished L h ctx info requested p)
    (hinfo : info.intents = [(Segment.fallible, ⟨some offer, none⟩)]) :
    p.tx.unshieldedOffers = [L.buildUnshielded ctx.utxos offer] := by
  rw [hf.unshieldedOffers (.inr ⟨_, hinfo⟩), hinfo]
  rfl

theorem prepareUnshielded_conserves (hL : L.Lawful) {token : Bytes} {amount : ℕ}
    {recipient : String} (hp : L.prepareUnshielded h ctx strategy ttl token amount recipient
      payFees = .ok p) :
    Conserved L h ctx ttl [] true p ∧ Ownership.Draws ctx p.draft := by
  obtain ⟨wallet, -, hp⟩ := exists_of_bind hp
  obtain ⟨⟨spends, change⟩, hselect, hp⟩ := exists_of_bind hp
  obtain ⟨hsum, hspends⟩ := hL.covers_utxos (mapError_ok hselect)
  obtain ⟨hkeys, hvalues, htokens, hdrawn⟩ := build_spends hL hspends
  have hone : OneIntent (⟨some ⟨[], []⟩, [(Segment.fallible, ⟨some ⟨spends, L.withChange
    ⟨wallet, token, amount⟩ token change⟩, none⟩)], payFees, [], true⟩ :
      StandardTransactionInfo I D) := .inr ⟨_, rfl⟩
  obtain ⟨hf, hunshielded, hshielded⟩ := prepareWithTtl_ok hone hp
  have hoffers := hf.single rfl
  have honce : (ctx.utxos.map TrackedUtxo.spentKey).Nodup →
      p.draft.spentUnshieldedInputs.Nodup := by
    intro hlisted
    rw [hunshielded]
    obtain ⟨taken, hperm, hsub⟩ := hL.takes_once (mapError_ok hselect)
    exact hperm.nodup (hsub.nodup hlisted)
  refine ⟨⟨hf.networkId, ?_, fun key => ?_, ?_, hshielded ▸ List.nodup_nil, ?_, honce,
    hf.spentDust, hf.ttl_eq hone⟩, hf.draws hL, ?_, ?_⟩
  · simpa using hf.segments hone
  · have hins := net_keyed UtxoSpend.value htokens key
    rw [hvalues, hsum] at hins
    have hnet := net_withChange L Token.unshielded ⟨wallet, token, amount⟩ key hins
    rw [UnprovenTx.entries, hoffers, hf.offer]
    simp only [Option.toList_some, List.flatMap_singleton, OfferInfo.entries, List.map_nil,
      List.nil_append, UnshieldedOffer.entries]
    rw [buildUnshielded, hnet, net_cons, net_cons]
    simp only [net_nil]
    split_ifs <;> omega
  · rw [hshielded, UnprovenTx.spentCoins, hf.offer]
    rfl
  · rw [hunshielded, UnprovenTx.spentKeys, hoffers, List.flatMap_singleton, buildUnshielded]
    exact hkeys.symm
  · exact hunshielded ▸ hdrawn
  · rw [hshielded]
    exact fun n hn => by cases hn

end Offers

theorem prepareRegisterDust_conserves (hL : L.Lawful) {dust : DustParameters}
    {requested : Option ℕ} {utxoCtime : Option Timestamp} {target : Option Bytes}
    (hp : L.prepareRegisterDust h ctx dust w requested utxoCtime target = .ok p) :
    Conserved L h ctx requested [] true p ∧ ∃ u ∈ w.unshieldedUtxos, u.isNight = true ∧
      u.isRegisteredForDust = false ∧ p.draft.spentUnshieldedInputs = [u.spentKey] := by
  unfold prepareRegisterDust at hp
  split at hp
  · cases hp
  · simp only at hp
    split at hp
    · cases hp
    · rename_i u hpick
      obtain ⟨hmem, hnight, hfree⟩ := registrationInput_mem hpick
      have hone : OneIntent (L.registrationInfo (I := I) target u
        (Wallet.availability dust utxoCtime (ctx.block h).tblock u)) := .inr ⟨_, rfl⟩
      obtain ⟨hf, hunshielded, hshielded⟩ := prepareWithTtl_ok hone hp
      have hoffers := hf.single rfl
      rw [buildUnshielded, List.map_singleton, hL.build_pinned] at hoffers
      refine ⟨⟨hf.networkId, ?_, fun key => ?_, ?_, hshielded ▸ List.nodup_nil, ?_,
        fun _ => by simp [hunshielded], hf.spentDust, hf.ttl_eq hone⟩,
        u, hmem, hnight, hfree, hunshielded⟩
      · simpa [registrationInfo] using hf.segments hone
      · rw [UnprovenTx.entries, hoffers, hf.offer]
        simp only [registrationInfo, Option.toList_none, List.flatMap_nil, List.nil_append,
          List.flatMap_singleton, UnshieldedOffer.entries, List.map_cons, List.map_nil,
          List.cons_append, net_cons, net_nil]
        split_ifs <;> omega
      · rw [hshielded, UnprovenTx.spentCoins, hf.offer]
        rfl
      · rw [hunshielded, UnprovenTx.spentKeys, hoffers]
        rfl

/-- Whatever a wallet selects, a transfer it prepares leaves over in each token what
the request declares, and it reserves exactly the inputs it spends. -/
theorem prepare_conserves (hL : L.Lawful) {dust : DustParameters} {request : TransferRequest}
    (hp : L.prepare h ctx dust request w = .ok p) :
    Conserved L h ctx request.ttl request.kind.declared request.kind.ownIntent p ∧
      Drawn ctx w p.draft request.kind := by
  obtain ⟨kind, strategy, ttl⟩ := request
  cases kind with
  | shielded token amount recipient payFees =>
    obtain ⟨wallet, -, hp⟩ := exists_of_bind hp
    obtain ⟨hc, hd⟩ := prepareShieldedOffer_conserves hL hp
    refine ⟨{ hc with balance := fun key => (hc.balance key).trans ?_ }, hd⟩
    simp only [TransferKind.declared, net_cons, net_nil]
    split_ifs <;> omega
  | unshielded token amount recipient payFees =>
    exact prepareUnshielded_conserves hL (mapError_ok hp)
  | shieldedSwap giveToken giveAmount receiveToken receiveAmount =>
    exact prepareShieldedOffer_conserves hL hp
  | dustRegistration utxoCtime target =>
    exact prepareRegisterDust_conserves hL (mapError_ok hp)

end Conserving

section Plain

/-- Takes inputs from the front until they cover the amount. -/
def coverFrom {A : Type} (value : A → ℕ) : ℕ → List A → Option (List A × ℕ)
  | _, [] => none
  | amount, a :: as =>
    if amount ≤ value a then some ([a], value a - amount)
    else (coverFrom value (amount - value a) as).map (fun taken => (a :: taken.1, taken.2))

theorem coverFrom_some {A : Type} {value : A → ℕ} {amount change : ℕ} {as taken : List A}
    (h : coverFrom value amount as = some (taken, change)) :
    (taken.map value).sum = amount + change ∧ taken.Sublist as := by
  induction as generalizing amount taken with
  | nil => cases h
  | cons a as ih =>
    rw [coverFrom] at h
    split at h
    · cases h
      refine ⟨?_, List.singleton_sublist.mpr List.mem_cons_self⟩
      simp only [List.map_cons, List.map_nil, List.sum_cons, List.sum_nil]
      omega
    · obtain ⟨⟨rest, change'⟩, hrest, heq⟩ := Option.map_eq_some_iff.mp h
      cases heq
      obtain ⟨hsum, hsub⟩ := ih hrest
      refine ⟨?_, hsub.cons_cons a⟩
      rw [List.map_cons, List.sum_cons, hsum]
      omega

def findCoin (coins : List Coin) (n : Nullifier) : Option Coin :=
  coins.find? (fun c => decide (c.nullifier = n))

def selectCoins (view : ContextWallet) (amount : ℕ) (token : Bytes) (_ : CoinSelectionStrategy) :
    Except SelectionError (List InputInfo × ℕ) :=
  match coverFrom Coin.value amount (view.coins.filter
    (fun c => decide (c.tokenType = token ∧ findCoin view.coins c.nullifier = some c))) with
  | some (coins, change) => .ok (coins.map (fun c => ⟨c.tokenType, c.value, some c.nullifier⟩),
      change)
  | none => .error (.insufficientBalance amount token)

def selectUtxos (utxos : List TrackedUtxo) (amount : ℕ) (token : Bytes)
    (_ : CoinSelectionStrategy) : Except SelectionError (List UtxoSpendInfo × ℕ) :=
  match coverFrom TrackedUtxo.value amount
    (utxos.filter (fun u => decide (u.tokenType = token))) with
  | some (taken, change) => .ok (taken.map (fun u => ⟨u.value, token, some u.intentHash,
      some u.outputIndex⟩), change)
  | none => .error (.insufficientBalance amount token)

/-- The one Dust output that fees are paid with. -/
def drawDust (ctx : BuildContext) : Except WalletError (List DustSpendBatch) :=
  match ctx.wallet with
  | none => .ok []
  | some view => if [5] ∈ view.dust.spentUtxos then .error (.transfer "out of Dust")
    else .ok [⟨[⟨1, [5]⟩]⟩]

/-- A wallet that selects from the front, on a ledger that charges one Dust output. -/
def plainToolkit : Toolkit Nullifier String (List Coin) where
  networkId := "undeployed"
  own := "own"
  dustKey := [9]
  nullifier := id
  showNullifier := fun _ => "nullifier"
  shieldedDestination := .ok
  unshieldedRecipient := .ok
  zswap := ContextWallet.coins
  coin := findCoin
  spend := fun z c => .ok (z, c.nullifier)
  coinsToCoverValue := selectCoins
  utxosToCoverValue := selectUtxos
  buildSpend := fun _ s => ⟨s.value, s.tokenType, s.intentHash.getD [], s.outputNumber.getD 0⟩
  checkOffer := fun _ => .ok ()
  balanceFees := fun ctx _ _ _ _ => drawDust ctx

theorem plainToolkit_lawful : plainToolkit.Lawful where
  coin_zswap := by
    intro view n c h
    have hfind : view.coins.find? (fun c => decide (c.nullifier = n)) = some c := h
    have hname := List.find?_some hfind
    exact ⟨List.mem_of_find?_eq_some hfind, by simpa using hname⟩
  spend_coin := by
    intro z c z' input h
    cases h
    exact ⟨rfl, fun _ => rfl⟩
  covers_coins := by
    intro view amount token strategy inputs change h
    simp only [plainToolkit, selectCoins] at h
    split at h
    · rename_i coins change' hcover
      cases h
      obtain ⟨hsum, hsub⟩ := coverFrom_some hcover
      refine ⟨by rw [List.map_map]; exact hsum, fun i hi => ?_⟩
      obtain ⟨c, hc, rfl⟩ := List.mem_map.mp hi
      obtain ⟨htoken, hfind⟩ := of_decide_eq_true (List.mem_filter.mp (hsub.subset hc)).2
      exact ⟨c.nullifier, c, rfl, hfind, htoken, rfl⟩
    · cases h
  covers_utxos := by
    intro utxos amount token strategy spends change h
    simp only [plainToolkit, selectUtxos] at h
    split at h
    · rename_i taken change' hcover
      cases h
      obtain ⟨hsum, hsub⟩ := coverFrom_some hcover
      refine ⟨by rw [List.map_map]; exact hsum, fun s hs => ?_⟩
      obtain ⟨u, hu, rfl⟩ := List.mem_map.mp hs
      exact ⟨rfl, u, (List.mem_filter.mp (hsub.subset hu)).1, rfl, rfl⟩
    · cases h
  takes_once := by
    intro utxos amount token strategy spends change h
    simp only [plainToolkit, selectUtxos] at h
    split at h
    · rename_i taken change' hcover
      cases h
      have hkeys : (taken.map (fun u => (⟨u.value, token, some u.intentHash,
          some u.outputIndex⟩ : UtxoSpendInfo))).filterMap Toolkit.spentKey? =
            taken.map TrackedUtxo.spentKey := by
        rw [List.filterMap_map, ← List.filterMap_eq_map]
        rfl
      rw [hkeys]
      exact (((coverFrom_some hcover).2.trans List.filter_sublist).map _).subperm
    · cases h
  build_pinned := fun _ _ _ _ _ => rfl
  balance_draws := by
    intro ctx info tx now ttl batches h
    simp only [plainToolkit, drawDust] at h
    split at h
    · cases h
      exact fun b hb => by cases hb
    · rename_i view hview
      split at h
      · cases h
      · rename_i hunspent
        cases h
        intro b hb s hs
        cases List.mem_singleton.mp hb
        cases List.mem_singleton.mp hs
        exact ⟨view, hview, hunspent⟩

def plainWallet : Wallet := ⟨[], ⟨none, []⟩, [], ⟨1, 1⟩, none, .default⟩

/-- A funded context with the coins given. -/
def holding (coins : List Coin) : BuildContext := ⟨⟨1, 1⟩, none, [], some ⟨coins, ⟨none, []⟩⟩⟩

def plainSelection : Helpers :=
  ⟨⟨0, 0⟩, fun _ => .ok (), fun _ => "nullifier", fun _ => "key"⟩

def swapHalf (give : Bytes) (giveAmount : ℕ) (receive : Bytes) (receiveAmount : ℕ) :
    TransferRequest :=
  ⟨.shieldedSwap give giveAmount receive receiveAmount, .largestFirst, none⟩

def twoCoins : BuildContext := holding [⟨[1], [7], 3⟩, ⟨[2], [7], 4⟩]

/-- A half that gives 5 from coins of 3 and 4, and gets 2 back. -/
theorem prepare_conserves_swap : ∃ p, plainToolkit.prepare plainSelection twoCoins ⟨5, 1⟩
      (swapHalf [7] 5 [8] 6) plainWallet = .ok p ∧
    p.draft.spentShieldedInputs = [[1], [2]] ∧
    (Conserved plainToolkit plainSelection twoCoins (swapHalf [7] 5 [8] 6).ttl
      (swapHalf [7] 5 [8] 6).kind.declared (swapHalf [7] 5 [8] 6).kind.ownIntent p ∧
    Drawn twoCoins plainWallet p.draft (swapHalf [7] 5 [8] 6).kind) :=
  ⟨_, rfl, rfl, @prepare_conserves _ _ _ plainToolkit plainSelection twoCoins plainWallet _
    plainToolkit_lawful ⟨5, 1⟩ (swapHalf [7] 5 [8] 6) rfl⟩

end Plain

end MidnightRs.TransferBuilds
