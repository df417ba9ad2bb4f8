import MidnightRs.CompactTypes
import MidnightRs.UnshieldedDeposits
import Mathlib.Data.List.Induction
import Mathlib.Data.Prod.Lex

/-!
The shielded coins of a contract call. The coins that the circuit creates ride in the
segments of their commitments, a coin that it also spends is a transient, and the
coins that the caller attaches follow the outputs of their token; what these carry
beyond the outputs comes back as change. The ledger's coins and transcripts, the
wallet and the prover are parameters.
-/
namespace MidnightRs.ShieldedCalls

open Results SortedMaps SortedMap
open UnshieldedDeposits (u128Max totalOf)
open Submission (ContractError)

section Model

/-- The segment of the intent that a call adds. -/
def intentSegment : ℕ := 1

def guaranteedSegment : ℕ := 0

def segmentId (fallible : Bool) : ℕ := if fallible then intentSegment else guaranteedSegment

variable (K C U T : Type)

structure CoinInfo where
  nonce : Bytes
  type : K
  value : ℕ
deriving DecidableEq, Repr

inductive Recipient where
  | user (cpk : Bytes)
  | contract (address : Bytes)
deriving DecidableEq, Repr

inductive TokenType where
  | unshielded (type : U)
  | shielded (type : K)
  | dust
deriving DecidableEq, Repr

/-- A transcript, with its shielded effects. -/
structure Transcript where
  claimedShieldedSpends : List C
  claimedShieldedReceives : List C
  shieldedMints : List (Bytes × ℕ)
  unshielded : UnshieldedDeposits.Transcript U
deriving DecidableEq, Repr

/-- Where a coin of the circuit goes, with the key that lets a user find it. -/
inductive MintRecipient where
  | user (cpk : Bytes) (epk : Option Bytes)
  | contract (address : Bytes)
deriving DecidableEq, Repr

structure MintedCoinOutput where
  coin : CoinInfo K
  recipient : MintRecipient
deriving DecidableEq, Repr

/-- A coin that the circuit both creates and spends. -/
structure ContractOwnedTransient where
  coin : CoinInfo K
  contract : Bytes
  segment : ℕ
deriving DecidableEq, Repr

/-- A coin of the wallet, spent into the build. -/
structure PreparedInput where
  tokenType : K
  value : ℕ
  nullifier : Bytes
deriving DecidableEq, Repr

/-- A fresh coin for a wallet's keys. -/
structure OutputInfo where
  destination : Bytes × Bytes
  tokenType : K
  value : ℕ
deriving DecidableEq, Repr

inductive OfferOutput where
  | minted (output : MintedCoinOutput K)
  | change (output : OutputInfo K)
deriving DecidableEq, Repr

structure OfferInfo where
  inputs : List (PreparedInput K)
  outputs : List (OfferOutput K)
  transients : List (ContractOwnedTransient K)
deriving DecidableEq, Repr

/-- A call's two Zswap offers, the fallible one in the intent's segment. -/
structure SegmentOffers where
  guaranteed : OfferInfo K
  fallible : OfferInfo K
deriving DecidableEq, Repr

structure CircuitZswapOutput where
  coin : Compact.Value
  recipient : Compact.Value
deriving Repr

structure CircuitZswapInput where
  coin : Compact.Value
deriving Repr

/-- The ledger's coins: how captured structs decode, and what names a coin and a token. -/
structure Coins where
  readCoin : List Compact.Atom → Option (CoinInfo K)
  readQualified : List Compact.Atom → Option (CoinInfo K × ℕ)
  readRecipient : List Compact.Atom → Option (Bool × Bytes × Bytes)
  commitment : CoinInfo K → Recipient → C
  customShieldedTokenType : Bytes → Bytes → K
  customUnshieldedTokenType : Bytes → Bytes → U
  debug : Compact.Value → String

/-- The intent of a call, with the transcripts that its action carries. -/
structure IntentInfo where
  guaranteedTranscript : Option (Transcript C U)
  fallibleTranscript : Option (Transcript C U)
  guaranteedUnshieldedOffer : Option (UnshieldedDeposits.UnshieldedOfferInfo U)
  fallibleUnshieldedOffer : Option (UnshieldedDeposits.UnshieldedOfferInfo U)
deriving DecidableEq, Repr

structure TransactionInfo where
  intents : List (ℕ × IntentInfo C U)
  guaranteedOffer : OfferInfo K
  fallibleOffers : List (ℕ × OfferInfo K)
deriving DecidableEq, Repr

/-- The wallet, the ledger's partition and the prover, with what each answers. -/
structure Builds where
  nativeState : Except ContractError Unit
  shieldedPublicKeys : Except ContractError (Bytes × Bytes)
  executionContext : Except ContractError Unit
  partitioned : Except ContractError (Option (Transcript C U) × Option (Transcript C U))
  callInput : Except ContractError Unit
  addFunding : Except ContractError Unit
  prepareShieldedInputs : List Bytes → Except ContractError (List (PreparedInput K))
  prepareUnshieldedInputs : List (U × ℕ) →
    Except ContractError (List (UnshieldedDeposits.PreparedUnshielded U))
  proveWithoutFee : TransactionInfo K C U → Except ContractError T
  signUnshieldedSpends : T → List Bytes → Except ContractError T
  imbalance : T → Except String (List ((TokenType K U × ℕ) × ℤ))
  payFee : T → Except ContractError T

/-- What a call brings: the coins that the run captured, and those of its caller. -/
structure Call where
  contractAddress : Bytes
  zswapInputs : List CircuitZswapInput
  zswapOutputs : List CircuitZswapOutput
  coinEncryptionKeys : List (Bytes × Bytes)
  coins : List Bytes
  payFees : Bool

variable {K C U T}

def OfferInfo.empty : OfferInfo K := ⟨[], [], []⟩

def OfferInfo.pushInput (offer : OfferInfo K) (input : PreparedInput K) : OfferInfo K :=
  { offer with inputs := offer.inputs ++ [input] }

def OfferInfo.pushOutput (offer : OfferInfo K) (output : OfferOutput K) : OfferInfo K :=
  { offer with outputs := offer.outputs ++ [output] }

def OfferInfo.pushTransient (offer : OfferInfo K) (transient : ContractOwnedTransient K) :
    OfferInfo K :=
  { offer with transients := offer.transients ++ [transient] }

namespace SegmentOffers

def new : SegmentOffers K := ⟨.empty, .empty⟩

def offerAt (offers : SegmentOffers K) (fallible : Bool) : OfferInfo K :=
  if fallible then offers.fallible else offers.guaranteed

def modifyAt (offers : SegmentOffers K) (fallible : Bool) (f : OfferInfo K → OfferInfo K) :
    SegmentOffers K :=
  if fallible then { offers with fallible := f offers.fallible }
  else { offers with guaranteed := f offers.guaranteed }

end SegmentOffers

/-- A captured value, read as the struct that it encodes. -/
def decode {A : Type} (coins : Coins K C U) (read : List Compact.Atom → Option A)
    (value : Compact.Value) (what : String) : Except ContractError A :=
  match value with
  | .alignedValue av =>
    match read av.value with
    | some a => .ok a
    | none => .error (.construction s!"{what} does not decode: {coins.debug value}")
  | _ => .error (.construction s!"{what} is not a struct-encoded value: {coins.debug value}")

def decodeShieldedOutput (coins : Coins K C U) (output : CircuitZswapOutput) :
    Except ContractError (CoinInfo K × Recipient) := do
  let coin ← decode coins coins.readCoin output.coin "shielded output coin"
  let (isLeft, user, contract) ← decode coins coins.readRecipient output.recipient
    "shielded output recipient"
  .ok (coin, if isLeft then .user user else .contract contract)

def decodeShieldedInput (coins : Coins K C U) (input : CircuitZswapInput) :
    Except ContractError (CoinInfo K) := do
  let (coin, _) ← decode coins coins.readQualified input.coin "shielded input coin"
  .ok coin

/-- The last key listed for a user; the wallet's own if none is listed. -/
def encryptionKeyOf (keys : List (Bytes × Bytes)) (wallet : Bytes × Bytes) (cpk : Bytes) :
    Option Bytes :=
  (keys.reverse.lookup cpk).or (if cpk = wallet.1 then some wallet.2 else none)

def buildShieldedOfferOutputs (coins : Coins K C U) (outputs : List CircuitZswapOutput)
    (keys : List (Bytes × Bytes)) (wallet : Bytes × Bytes) :
    Except ContractError (List (C × MintedCoinOutput K)) :=
  outputs.mapM fun output => do
    let (coin, recipient) ← decodeShieldedOutput coins output
    let mintRecipient := match recipient with
      | .user cpk => MintRecipient.user cpk (encryptionKeyOf keys wallet cpk)
      | .contract address => .contract address
    .ok (coins.commitment coin recipient, ⟨coin, mintRecipient⟩)

/-- The coin that the circuit spends, under its commitment in the contract's hands. -/
def pendingInput (coins : Coins K C U) (address : Bytes) (input : CircuitZswapInput) :
    Except ContractError (C × CoinInfo K) := do
  let coin ← decodeShieldedInput coins input
  .ok (coins.commitment coin (.contract address), coin)

/-- The commitments that the fallible transcript claims. -/
def fallibleCommitments (fallible : Option (Transcript C U)) : List C :=
  fallible.elim [] fun t => t.claimedShieldedSpends ++ t.claimedShieldedReceives

def mintsIn (coins : Coins K C U) (address : Bytes) (transcript : Option (Transcript C U)) :
    List (K × ℕ) :=
  transcript.elim [] fun t =>
    t.shieldedMints.map fun mint => (coins.customShieldedTokenType address mint.1, mint.2)

/-- The amounts that the transcripts mint, with their segments. -/
def mintsOf (coins : Coins K C U) (address : Bytes)
    (guaranteed fallible : Option (Transcript C U)) : List ((K ×ₗ Bool) × ℕ) :=
  [(guaranteed, false), (fallible, true)].flatMap fun (transcript, isFallible) =>
    (mintsIn coins address transcript).map fun mint => (toLex (mint.1, isFallible), mint.2)

/-- The circuit's coins on their way to the offers. -/
structure Routing (K C : Type) where
  pending : List (C × CoinInfo K)
  offers : SegmentOffers K
  outputSegments : List (K × Bool)
  drawn : List ((K ×ₗ Bool) × ℕ)

/-- A coin of a contract that the circuit also spends is a transient. -/
def routeOutput [DecidableEq C] (claimed : List C) (r : Routing K C)
    (out : C × MintedCoinOutput K) : Routing K C :=
  let isFallible := decide (out.1 ∈ claimed)
  let outputSegments := r.outputSegments ++ [(out.2.coin.type, isFallible)]
  let paired := match out.2.recipient with
    | .contract contract =>
      (r.pending.findIdx? fun p => decide (p.1 = out.1)).map fun idx => (idx, contract)
    | .user _ _ => none
  match paired with
  | some (idx, contract) =>
    { r with
      pending := r.pending.eraseIdx idx
      outputSegments
      offers := r.offers.modifyAt isFallible fun offer =>
        offer.pushTransient ⟨out.2.coin, contract, segmentId isFallible⟩ }
  | none =>
    { r with
      outputSegments
      drawn := r.drawn ++ [(toLex (out.2.coin.type, isFallible), out.2.coin.value)]
      offers := r.offers.modifyAt isFallible fun offer => offer.pushOutput (.minted out.2) }

def routeOutputs [DecidableEq C] (claimed : List C) (pending : List (C × CoinInfo K))
    (outputs : List (C × MintedCoinOutput K)) : Routing K C :=
  outputs.foldl (routeOutput claimed) ⟨pending, .new, [], []⟩

def refusePending (pending : List (C × CoinInfo K)) : Except ContractError Unit :=
  if pending.isEmpty then .ok ()
  else .error (.construction (s!"createZswapInput on {pending.length} coin(s) not created in " ++
    "the same call (persistent contract-owned shielded spend) is not yet supported"))

/-- The segments in which the circuit creates coins of a token, guaranteed and fallible. -/
def segmentsOf [DecidableEq K] (tokenType : K) (outputSegments : List (K × Bool)) : Bool × Bool :=
  outputSegments.foldl (fun seen out =>
    if out.1 = tokenType then (if out.2 then (seen.1, true) else (true, seen.2)) else seen)
    (false, false)

def shieldedInputToFallible [DecidableEq K] [ToString K] (tokenType : K)
    (outputSegments : List (K × Bool)) : Except ContractError Bool :=
  match segmentsOf tokenType outputSegments with
  | (true, true) => .error (.construction
      (s!"cannot route shielded input for token {tokenType}: the circuit creates outputs of " ++
        "this token in both the guaranteed and fallible segments, so the input's segment is " ++
        "ambiguous"))
  | (false, true) => .ok true
  | _ => .ok false

def refuseBothSegments [DecidableEq U] [ToString U] (guaranteed fallible : List (U × ℕ)) :
    Except ContractError Unit :=
  match guaranteed.find? (fun d => fallible.any (fun o => decide (o.1 = d.1))) with
  | some (tokenType, _) => .error (.construction
      (s!"a call that receives unshielded token {tokenType} in both its guaranteed and " ++
        "fallible parts is not yet supported"))
  | none => .ok ()

end Model

section Change

variable {K : Type} [LinearOrder K]

def checkedSub (a b : ℕ) : Option ℕ := if b ≤ a then some (a - b) else none

/-- A value goes to the total of its key, while the total is a `u128`. -/
def addValue (totals : SortedMap K ℕ) (e : K × ℕ) : Except ContractError (SortedMap K ℕ) :=
  let total := (totals.get? e.1).getD 0 + e.2
  if total ≤ u128Max then .ok (totals.modify e.1 (fun _ => total))
  else .error (.construction "shielded values overflow a u128 total")

/-- The total value under each key. -/
def totalByKey (values : List (K × ℕ)) : Except ContractError (SortedMap K ℕ) :=
  values.foldlM addValue empty

/-- The attached value each key carries beyond what the outputs draw from it. -/
def changeDue (attachedValue drawnValue mintedValue : SortedMap K ℕ) : List (K × ℕ) :=
  attachedValue.entries.filterMap fun (key, attached) =>
    let drawn := (drawnValue.get? key).getD 0
    let minted := (mintedValue.get? key).getD 0
    ((checkedSub attached (drawn - minted)).filter (fun owed => decide (0 < owed))).map
      (fun owed => (key, owed))

theorem foldlM_addValue {values : List (K × ℕ)} {totals totals' : SortedMap K ℕ}
    (h : values.foldlM addValue totals = .ok totals') (key : K) :
    (totals'.get? key).getD 0 = (totals.get? key).getD 0 + totalOf key values := by
  induction values generalizing totals with
  | nil =>
    cases h
    rfl
  | cons e values ih =>
    obtain ⟨key', value⟩ := e
    rw [List.foldlM_cons] at h
    obtain ⟨next, hnext, hrest⟩ := exists_of_bind h
    rw [ih hrest]
    unfold addValue at hnext
    simp only at hnext
    split at hnext
    · cases hnext
      rw [get?_modify]
      by_cases hkey : key = key'
      · subst hkey
        rw [if_pos rfl, Option.getD_some, totalOf, totalOf, amountsOf_cons_self, List.sum_cons]
        omega
      · rw [if_neg hkey, totalOf, totalOf, amountsOf_cons_ne (Ne.symm hkey)]
    · cases hnext

theorem totalByKey_get {values : List (K × ℕ)} {totals : SortedMap K ℕ}
    (h : totalByKey values = .ok totals) (key : K) :
    (totals.get? key).getD 0 = totalOf key values :=
  (foldlM_addValue h key).trans (Nat.zero_add _)

theorem mem_changeDue {attachedValue drawnValue mintedValue : SortedMap K ℕ} {key : K}
    {owed : ℕ} : (key, owed) ∈ changeDue attachedValue drawnValue mintedValue ↔
      owed = (attachedValue.get? key).getD 0 -
        ((drawnValue.get? key).getD 0 - (mintedValue.get? key).getD 0) ∧ 0 < owed := by
  unfold changeDue
  rw [List.mem_filterMap]
  constructor
  · rintro ⟨⟨key', attached⟩, hmem, hentry⟩
    simp only [Option.map_eq_some_iff, Option.filter_eq_some_iff, decide_eq_true_eq,
      Prod.mk.injEq] at hentry
    obtain ⟨owed', ⟨howed, hpos⟩, rfl, rfl⟩ := hentry
    rw [(mem_entries_iff _ _ _).mp hmem, Option.getD_some]
    unfold checkedSub at howed
    split at howed
    · exact ⟨(Option.some.inj howed).symm, hpos⟩
    · cases howed
  · rintro ⟨howed, hpos⟩
    cases hget : attachedValue.get? key with
    | none =>
      rw [hget, Option.getD_none] at howed
      omega
    | some attached =>
      rw [hget, Option.getD_some] at howed
      refine ⟨(key, attached), (mem_entries_iff _ _ _).mpr hget, ?_⟩
      have hsub : checkedSub attached
          ((drawnValue.get? key).getD 0 - (mintedValue.get? key).getD 0) = some owed := by
        rw [checkedSub, if_pos (by omega), howed]
      simp only [hsub, Option.filter_some, hpos, decide_true, if_true, Option.map_some]

theorem changeDue_keys_nodup (attachedValue drawnValue mintedValue : SortedMap K ℕ) :
    ((changeDue attachedValue drawnValue mintedValue).map Prod.fst).Nodup := by
  refine (keys_nodup _).sublist (keys_filterMap_sublist (fun e r h => ?_) _)
  obtain ⟨owed, -, rfl⟩ := Option.map_eq_some_iff.mp h
  rfl

/-- A list of entries with each key once has at most one amount of a key. -/
theorem amountsOf_eq_of_nodup {entries : List (K × ℕ)} (hnodup : (entries.map Prod.fst).Nodup)
    {key : K} {owed : ℕ} (h : (key, owed) ∈ entries) : amountsOf key entries = [owed] := by
  induction entries with
  | nil => cases h
  | cons e entries ih =>
    obtain ⟨hnot, hrest⟩ := List.nodup_cons.mp hnodup
    rcases List.mem_cons.mp h with rfl | h
    · rw [amountsOf_cons_self, List.cons.injEq]
      refine ⟨rfl, List.map_eq_nil_iff.mpr (List.filter_eq_nil_iff.mpr fun e he heq => hnot ?_)⟩
      exact List.mem_map.mpr ⟨e, he, of_decide_eq_true heq⟩
    · have hne : e.1 ≠ key := fun heq => hnot (heq ▸ List.mem_map_of_mem h)
      rw [amountsOf_cons_ne hne, ih hrest h]

/-- The change of a key is what was attached beyond what mints leave uncovered. -/
theorem amountsOf_changeDue (attachedValue drawnValue mintedValue : SortedMap K ℕ) (key : K) :
    amountsOf key (changeDue attachedValue drawnValue mintedValue) =
      let uncovered := (drawnValue.get? key).getD 0 - (mintedValue.get? key).getD 0
      if uncovered < (attachedValue.get? key).getD 0 then
        [(attachedValue.get? key).getD 0 - uncovered]
      else [] := by
  simp only
  split
  · rename_i hlt
    exact amountsOf_eq_of_nodup (changeDue_keys_nodup _ _ _)
      (mem_changeDue.mpr ⟨rfl, by omega⟩)
  · rename_i hle
    refine List.map_eq_nil_iff.mpr (List.filter_eq_nil_iff.mpr fun e he heq => ?_)
    obtain ⟨key', owed⟩ := e
    obtain rfl : key' = key := of_decide_eq_true heq
    obtain ⟨howed, hpos⟩ := mem_changeDue.mp he
    omega

/-- The amounts listed under a token and a segment are those of the token in the segment. -/
theorem amountsOf_keyed {A : Type} (xs : List A) (f : A → K × ℕ) (segment : A → Bool) (token : K)
    (s : Bool) :
    amountsOf (toLex (token, s)) (xs.map fun x => (toLex ((f x).1, segment x), (f x).2)) =
      amountsOf token ((xs.filter fun x => decide (segment x = s)).map f) := by
  have hkey : ((fun e : (K ×ₗ Bool) × ℕ => decide (e.1 = toLex (token, s))) ∘
      fun x => (toLex ((f x).1, segment x), (f x).2)) =
      fun x => decide ((f x).1 = token) && decide (segment x = s) := by
    funext x
    simp only [Function.comp_apply, toLex_inj, Prod.mk.injEq, Bool.decide_and]
  unfold amountsOf
  rw [List.filter_map, List.filter_map, hkey, List.filter_filter, List.map_map, List.map_map]
  rfl

theorem totalOf_keyed {A : Type} (xs : List A) (f : A → K × ℕ) (segment : A → Bool) (token : K)
    (s : Bool) :
    totalOf (toLex (token, s)) (xs.map fun x => (toLex ((f x).1, segment x), (f x).2)) =
      totalOf token ((xs.filter fun x => decide (segment x = s)).map f) :=
  congrArg List.sum (amountsOf_keyed xs f segment token s)

end Change

section Amounts

variable {K : Type}

def PreparedInput.amount (input : PreparedInput K) : K × ℕ := (input.tokenType, input.value)

def OutputInfo.amount (output : OutputInfo K) : K × ℕ := (output.tokenType, output.value)

def ContractOwnedTransient.amount (transient : ContractOwnedTransient K) : K × ℕ :=
  (transient.coin.type, transient.coin.value)

def OfferOutput.amount : OfferOutput K → K × ℕ
  | .minted output => (output.coin.type, output.coin.value)
  | .change output => output.amount

/-- What an offer brings of a token less what it takes; a transient does both. -/
def OfferInfo.delta [LinearOrder K] (offer : OfferInfo K) (token : K) : ℤ :=
  let transients : ℤ := totalOf token (offer.transients.map ContractOwnedTransient.amount)
  (totalOf token (offer.inputs.map PreparedInput.amount) + transients) -
    (totalOf token (offer.outputs.map OfferOutput.amount) + transients)

/-- A transient counts on neither side. -/
theorem delta_eq [LinearOrder K] (offer : OfferInfo K) (token : K) :
    offer.delta token = totalOf token (offer.inputs.map PreparedInput.amount) -
      totalOf token (offer.outputs.map OfferOutput.amount) := by
  simp only [OfferInfo.delta]
  omega

end Amounts

section Routing

variable {K C : Type}

@[simp] theorem offerAt_modifyAt (offers : SegmentOffers K) (s s' : Bool)
    (f : OfferInfo K → OfferInfo K) : (offers.modifyAt s f).offerAt s' =
      if s = s' then f (offers.offerAt s') else offers.offerAt s' := by
  cases s <;> cases s' <;> rfl

/-- Each segment gets what is pushed to it, in order. -/
theorem offerAt_foldl {A : Type} (segment : A → Bool) (push : OfferInfo K → A → OfferInfo K)
    (xs : List A) (offers : SegmentOffers K) (s : Bool) :
    (xs.foldl (fun offers x => offers.modifyAt (segment x) fun offer => push offer x)
        offers).offerAt s =
      (xs.filter fun x => decide (segment x = s)).foldl push (offers.offerAt s) := by
  induction xs generalizing offers with
  | nil => rfl
  | cons x xs ih =>
    rw [List.foldl_cons, ih, offerAt_modifyAt]
    by_cases hs : segment x = s
    · rw [if_pos hs, List.filter_cons_of_pos (by simpa using hs), List.foldl_cons]
    · rw [if_neg hs, List.filter_cons_of_neg (by simpa using hs)]

theorem foldl_pushInput (inputs : List (PreparedInput K)) (offer : OfferInfo K) :
    inputs.foldl OfferInfo.pushInput offer =
      { offer with inputs := offer.inputs ++ inputs } := by
  induction inputs generalizing offer with
  | nil => rw [List.append_nil, List.foldl_nil]
  | cons input inputs ih =>
    rw [List.foldl_cons, ih, OfferInfo.pushInput, List.append_assoc, List.singleton_append]

theorem foldl_pushOutput {A : Type} (f : A → OfferOutput K) (xs : List A) (offer : OfferInfo K) :
    xs.foldl (fun offer x => offer.pushOutput (f x)) offer =
      { offer with outputs := offer.outputs ++ xs.map f } := by
  induction xs generalizing offer with
  | nil => rw [List.map_nil, List.append_nil, List.foldl_nil]
  | cons x xs ih =>
    rw [List.foldl_cons, ih, OfferInfo.pushOutput, List.append_assoc, List.singleton_append,
      List.map_cons]

variable [DecidableEq C]

/-- The segment of a coin, `true` for the fallible one. -/
def rides (claimed : List C) (out : C × MintedCoinOutput K) : Bool := decide (out.1 ∈ claimed)

def amountOf (out : C × MintedCoinOutput K) : K × ℕ := (out.2.coin.type, out.2.coin.value)

/-- The coins of a segment. -/
def ridingIn (claimed : List C) (outs : List (C × MintedCoinOutput K)) (s : Bool) :
    List (C × MintedCoinOutput K) :=
  outs.filter fun out => decide (rides claimed out = s)

/-- A contract's coin as the transient that it is when the circuit spends it. -/
def transientOf (claimed : List C) (out : C × MintedCoinOutput K) :
    Option (ContractOwnedTransient K) :=
  match out.2.recipient with
  | .contract contract => some ⟨out.2.coin, contract, segmentId (rides claimed out)⟩
  | .user _ _ => none

/-- The coins routed so far: those that stay outputs, and those paired with an input of
the circuit, which are transients. -/
structure Routed (claimed : List C) (pending : List (C × CoinInfo K))
    (outs plain paired : List (C × MintedCoinOutput K)) (r : Routing K C) : Prop where
  created : (plain ++ paired).Perm outs
  spent : (paired.map Prod.fst ++ r.pending.map Prod.fst).Perm (pending.map Prod.fst)
  owned : ∀ out ∈ paired, ∃ contract, out.2.recipient = .contract contract
  segments : r.outputSegments = outs.map fun out => (out.2.coin.type, rides claimed out)
  drawn : r.drawn = plain.map fun out =>
    (toLex ((amountOf out).1, rides claimed out), (amountOf out).2)
  offers : ∀ s, r.offers.offerAt s = ⟨[],
    (ridingIn claimed plain s).map fun out => .minted out.2,
    (ridingIn claimed paired s).filterMap (transientOf claimed)⟩

section Step

variable {claimed : List C} {pending : List (C × CoinInfo K)}
  {outs plain paired : List (C × MintedCoinOutput K)} {r : Routing K C}

theorem ridingIn_append (xs ys : List (C × MintedCoinOutput K)) (s : Bool) :
    ridingIn claimed (xs ++ ys) s = ridingIn claimed xs s ++ ridingIn claimed ys s :=
  List.filter_append _ _

theorem ridingIn_singleton (out : C × MintedCoinOutput K) (s : Bool) :
    ridingIn claimed [out] s = if rides claimed out = s then [out] else [] := by
  by_cases hs : rides claimed out = s
  · rw [if_pos hs, ridingIn, List.filter_cons_of_pos (by simpa using hs), List.filter_nil]
  · rw [if_neg hs, ridingIn, List.filter_cons_of_neg (by simpa using hs), List.filter_nil]

theorem Routed.output (h : Routed claimed pending outs plain paired r)
    (out : C × MintedCoinOutput K) : Routed claimed pending (outs ++ [out]) (plain ++ [out]) paired
      { r with
        outputSegments := r.outputSegments ++ [(out.2.coin.type, rides claimed out)]
        drawn := r.drawn ++ [(toLex (out.2.coin.type, rides claimed out), out.2.coin.value)]
        offers := r.offers.modifyAt (rides claimed out) fun offer =>
          offer.pushOutput (.minted out.2) } where
  created := by
    have hswap : (plain ++ ([out] ++ paired)).Perm (plain ++ (paired ++ [out])) :=
      List.perm_append_comm.append_left plain
    rw [← List.append_assoc, ← List.append_assoc] at hswap
    exact hswap.trans (h.created.append_right [out])
  spent := h.spent
  owned := h.owned
  segments := by
    rw [h.segments, List.map_append]
    rfl
  drawn := by
    rw [h.drawn, List.map_append]
    rfl
  offers := fun s => by
    rw [offerAt_modifyAt, h.offers, ridingIn_append, ridingIn_singleton]
    split
    · rw [List.map_append]
      rfl
    · rw [List.append_nil]

theorem Routed.transient (h : Routed claimed pending outs plain paired r)
    {out : C × MintedCoinOutput K} {contract : Bytes}
    (hrecipient : out.2.recipient = .contract contract) {idx : ℕ}
    (hfind : r.pending.findIdx? (fun p => decide (p.1 = out.1)) = some idx) :
    Routed claimed pending (outs ++ [out]) plain (paired ++ [out])
      { r with
        pending := r.pending.eraseIdx idx
        outputSegments := r.outputSegments ++ [(out.2.coin.type, rides claimed out)]
        offers := r.offers.modifyAt (rides claimed out) fun offer =>
          offer.pushTransient ⟨out.2.coin, contract, segmentId (rides claimed out)⟩ } where
  created := by
    rw [← List.append_assoc]
    exact h.created.append_right [out]
  spent := by
    obtain ⟨hidx, hkey, -⟩ := List.findIdx?_eq_some_iff_getElem.mp hfind
    have hperm := (List.getElem_cons_eraseIdx_perm hidx).map Prod.fst
    rw [List.map_cons, of_decide_eq_true hkey] at hperm
    rw [List.map_append, List.append_assoc]
    exact (hperm.append_left _).trans h.spent
  owned := by
    intro out' hout
    rcases List.mem_append.mp hout with hout | hout
    · exact h.owned out' hout
    · obtain rfl := List.mem_singleton.mp hout
      exact ⟨contract, hrecipient⟩
  segments := by
    rw [h.segments, List.map_append]
    rfl
  drawn := h.drawn
  offers := fun s => by
    have htransient : transientOf claimed out =
        some ⟨out.2.coin, contract, segmentId (rides claimed out)⟩ := by
      rw [transientOf, hrecipient]
    rw [offerAt_modifyAt, h.offers, ridingIn_append, ridingIn_singleton]
    split
    · rw [List.filterMap_append, List.filterMap_cons_some htransient]
      rfl
    · rw [List.append_nil]

/-- One coin goes to its segment, as an output or as a transient. -/
theorem routeOutput_routed (h : Routed claimed pending outs plain paired r)
    (out : C × MintedCoinOutput K) : ∃ plain' paired',
      Routed claimed pending (outs ++ [out]) plain' paired' (routeOutput claimed r out) := by
  unfold routeOutput
  cases hrecipient : out.2.recipient with
  | user cpk epk => exact ⟨_, _, h.output out⟩
  | contract contract =>
    cases hfind : r.pending.findIdx? (fun p => decide (p.1 = out.1)) with
    | none => exact ⟨_, _, h.output out⟩
    | some idx => exact ⟨_, _, h.transient hrecipient hfind⟩

end Step

/-- Each coin that the circuit creates goes to the segment that claims it. -/
theorem routeOutputs_routed (claimed : List C) (pending : List (C × CoinInfo K))
    (outs : List (C × MintedCoinOutput K)) : ∃ plain paired,
      Routed claimed pending outs plain paired (routeOutputs claimed pending outs) := by
  induction outs using List.reverseRecOn with
  | nil =>
    refine ⟨[], [], .refl _, .refl _, fun _ h => absurd h List.not_mem_nil, rfl, rfl, fun s => ?_⟩
    cases s <;> rfl
  | append_singleton outs out ih =>
    obtain ⟨plain, paired, h⟩ := ih
    have hrun : routeOutputs claimed pending (outs ++ [out]) =
        routeOutput claimed (routeOutputs claimed pending outs) out := by
      rw [routeOutputs, List.foldl_append]
      rfl
    rw [hrun]
    exact routeOutput_routed h out

end Routing

section Attaching

variable {K : Type} [DecidableEq K]

theorem foldl_segments (tokenType : K) (outputSegments : List (K × Bool)) (seen : Bool × Bool) :
    outputSegments.foldl (fun seen out =>
        if out.1 = tokenType then (if out.2 then (seen.1, true) else (true, seen.2)) else seen)
        seen =
      (seen.1 || decide ((tokenType, false) ∈ outputSegments),
        seen.2 || decide ((tokenType, true) ∈ outputSegments)) := by
  induction outputSegments generalizing seen with
  | nil => simp
  | cons out outputSegments ih =>
    obtain ⟨token, isFallible⟩ := out
    rw [List.foldl_cons, ih]
    by_cases htoken : token = tokenType
    · cases isFallible <;> simp [htoken]
    · simp [htoken, Ne.symm htoken]

theorem segmentsOf_eq (tokenType : K) (outputSegments : List (K × Bool)) :
    segmentsOf tokenType outputSegments = (decide ((tokenType, false) ∈ outputSegments),
      decide ((tokenType, true) ∈ outputSegments)) := by
  unfold segmentsOf
  rw [foldl_segments, Bool.false_or, Bool.false_or]

/-- The circuit creates coins of the token in both segments. -/
def Ambiguous (tokenType : K) (outputSegments : List (K × Bool)) : Prop :=
  (tokenType, false) ∈ outputSegments ∧ (tokenType, true) ∈ outputSegments

/-- The segment that a coin of the caller joins. -/
def joins (outputSegments : List (K × Bool)) (input : PreparedInput K) : Bool :=
  decide ((input.tokenType, true) ∈ outputSegments)

theorem shieldedInputToFallible_ok [ToString K] {tokenType : K} {outputSegments : List (K × Bool)}
    {isFallible : Bool} (h : shieldedInputToFallible tokenType outputSegments = .ok isFallible) :
    ¬ Ambiguous tokenType outputSegments ∧
      isFallible = decide ((tokenType, true) ∈ outputSegments) := by
  unfold shieldedInputToFallible at h
  rw [segmentsOf_eq] at h
  unfold Ambiguous
  by_cases hguaranteed : (tokenType, false) ∈ outputSegments <;>
    by_cases hfallible : (tokenType, true) ∈ outputSegments <;>
    simp [hguaranteed, hfallible] at h ⊢
  all_goals exact h

end Attaching

section Calls

variable {K C U T : Type} [LinearOrder K]

/-- The circuit's side of a call's offers, before the caller's coins join them. -/
structure CircuitOffers (K : Type) [LinearOrder K] where
  offers : SegmentOffers K
  outputSegments : List (K × Bool)
  circuitOutputValue : SortedMap (K ×ₗ Bool) ℕ
  mintedValue : SortedMap (K ×ₗ Bool) ℕ

/-- A coin of the caller rides in the segment of the outputs of its token. -/
def attach [ToString K] (outputSegments : List (K × Bool))
    (s : List ((K ×ₗ Bool) × ℕ) × SegmentOffers K) (input : PreparedInput K) :
    Except ContractError (List ((K ×ₗ Bool) × ℕ) × SegmentOffers K) := do
  let toFallible ← shieldedInputToFallible input.tokenType outputSegments
  .ok (s.1 ++ [(toLex (input.tokenType, toFallible), input.value)],
    s.2.modifyAt toFallible fun offer => offer.pushInput input)

def pushChange (wallet : Bytes × Bytes) (offers : SegmentOffers K) (due : (K ×ₗ Bool) × ℕ) :
    SegmentOffers K :=
  offers.modifyAt (ofLex due.1).2 fun offer =>
    offer.pushOutput (.change ⟨wallet, (ofLex due.1).1, due.2⟩)

/-- The transaction of a call; an empty fallible offer is left out. -/
def transactionInfo (intent : IntentInfo C U) (offers : SegmentOffers K) :
    TransactionInfo K C U where
  intents := [(intentSegment, intent)]
  guaranteedOffer := offers.guaranteed
  fallibleOffers :=
    if !offers.fallible.outputs.isEmpty || !offers.fallible.inputs.isEmpty ||
        !offers.fallible.transients.isEmpty then [(intentSegment, offers.fallible)] else []

/-- The fee is added to a transaction that no other token leaves short. -/
def balanceTransaction [DecidableEq U] (builds : Builds K C U T) (unpaid : T) :
    Except ContractError T := do
  let imbalance ← (builds.imbalance unpaid).mapError
    (fun e => ContractError.provider (.transaction s!"compute balance: {e}"))
  if imbalance.any (fun entry => decide (entry.1.1 ≠ .dust ∧ entry.2 < 0)) then
    .error (.provider (.transaction ("balance_transaction covers fees only; the transaction has " ++
      "a token deficit (swap balancing is not supported yet)")))
  else builds.payFee unpaid

def signed (builds : Builds K C U T) (proven : T) (keys : List Bytes) : Except ContractError T :=
  if keys.isEmpty then .ok proven else builds.signUnshieldedSpends proven keys

def attachAndProve [ToString K] [DecidableEq U] (builds : Builds K C U T)
    (intent : IntentInfo C U) (circuit : CircuitOffers K) (prepared : List (PreparedInput K))
    (wallet : Bytes × Bytes) (keys : List Bytes) (payFees : Bool) : Except ContractError T := do
  let (attached, offers) ← prepared.foldlM (attach circuit.outputSegments) ([], circuit.offers)
  let attachedValue ← totalByKey attached
  let change := changeDue attachedValue circuit.circuitOutputValue circuit.mintedValue
  let offers := change.foldl (pushChange wallet) offers
  let proven ← builds.proveWithoutFee (transactionInfo intent offers)
  let unpaid ← signed builds proven keys
  if payFees then balanceTransaction builds unpaid else .ok unpaid

/-- The transaction of a call, proven, and funded if it pays its own fee. -/
def callTransaction [ToString K] [DecidableEq C] [LinearOrder U] [ToString U]
    (coins : Coins K C U) (builds : Builds K C U T) (call : Call) : Except ContractError T := do
  builds.nativeState
  let wallet ← builds.shieldedPublicKeys
  builds.executionContext
  let (guaranteed, fallible) ← builds.partitioned
  let mintedValue ← totalByKey (mintsOf coins call.contractAddress guaranteed fallible)
  let unshielded := fun t : Option (Transcript C U) => t.map Transcript.unshielded
  let deposits := fun t => UnshieldedDeposits.depositsOf coins.customUnshieldedTokenType
    (unshielded t) call.contractAddress
  refuseBothSegments (deposits guaranteed) (deposits fallible)
  builds.callInput
  builds.addFunding
  let pending ← call.zswapInputs.mapM (pendingInput coins call.contractAddress)
  let outputs ← buildShieldedOfferOutputs coins call.zswapOutputs call.coinEncryptionKeys wallet
  let routed := routeOutputs (fallibleCommitments fallible) pending outputs
  let circuitOutputValue ← totalByKey routed.drawn
  refusePending routed.pending
  let prepared ← builds.prepareShieldedInputs call.coins
  let drawn ← builds.prepareUnshieldedInputs (deposits guaranteed ++ deposits fallible)
  let (guaranteedDrawn, fallibleDrawn) := drawn.splitAt (deposits guaranteed).length
  let intent := ⟨guaranteed, fallible,
    UnshieldedDeposits.offer (UnshieldedDeposits.payoutsOf (unshielded guaranteed)) guaranteedDrawn,
    UnshieldedDeposits.offer (UnshieldedDeposits.payoutsOf (unshielded fallible)) fallibleDrawn⟩
  let keys := drawn.flatMap fun draw => draw.inputs.map UnshieldedDeposits.UtxoSpend.owner
  attachAndProve builds intent ⟨routed.offers, routed.outputSegments, circuitOutputValue,
    mintedValue⟩ prepared wallet keys call.payFees

namespace TransactionInfo

def offerAt (info : TransactionInfo K C U) (s : Bool) : OfferInfo K :=
  if s then (info.fallibleOffers.lookup intentSegment).getD .empty else info.guaranteedOffer

def transcriptAt (info : TransactionInfo K C U) (s : Bool) : Option (Transcript C U) :=
  (info.intents.lookup intentSegment).bind fun intent =>
    if s then intent.fallibleTranscript else intent.guaranteedTranscript

/-- What the ledger balances a token of a segment to. -/
def balance (coins : Coins K C U) (address : Bytes) (info : TransactionInfo K C U) (s : Bool)
    (token : K) : ℤ :=
  totalOf token (mintsIn coins address (info.transcriptAt s)) + (info.offerAt s).delta token

end TransactionInfo

theorem attach_ok [ToString K] {outputSegments : List (K × Bool)}
    {prepared : List (PreparedInput K)} {s s' : List ((K ×ₗ Bool) × ℕ) × SegmentOffers K}
    (h : prepared.foldlM (attach outputSegments) s = .ok s') :
    (∀ input ∈ prepared, ¬ Ambiguous input.tokenType outputSegments) ∧
      s'.1 = s.1 ++ prepared.map (fun input =>
        (toLex (input.amount.1, joins outputSegments input), input.amount.2)) ∧
      s'.2 = prepared.foldl (fun offers input =>
        offers.modifyAt (joins outputSegments input) fun offer => offer.pushInput input) s.2 := by
  induction prepared generalizing s with
  | nil =>
    cases h
    exact ⟨fun _ h => absurd h List.not_mem_nil, (List.append_nil _).symm, rfl⟩
  | cons input prepared ih =>
    rw [List.foldlM_cons] at h
    obtain ⟨next, hnext, hrest⟩ := exists_of_bind h
    obtain ⟨toFallible, hroute, hnext⟩ := exists_of_bind hnext
    cases hnext
    obtain ⟨hclear, rfl⟩ := shieldedInputToFallible_ok hroute
    obtain ⟨hall, hattached, hoffers⟩ := ih hrest
    refine ⟨fun input' hmem => ?_, ?_, hoffers⟩
    · rcases List.mem_cons.mp hmem with rfl | hmem
      · exact hclear
      · exact hall input' hmem
    · rw [hattached, List.append_assoc]
      rfl

theorem offerAt_attach (outputSegments : List (K × Bool)) (prepared : List (PreparedInput K))
    (offers : SegmentOffers K) (s : Bool) :
    (prepared.foldl (fun offers input => offers.modifyAt (joins outputSegments input)
        fun offer => offer.pushInput input) offers).offerAt s =
      { offers.offerAt s with
        inputs := (offers.offerAt s).inputs ++
          prepared.filter fun input => decide (joins outputSegments input = s) } := by
  rw [offerAt_foldl (joins outputSegments) OfferInfo.pushInput, foldl_pushInput]

/-- The change of a segment. -/
def changeIn (wallet : Bytes × Bytes) (due : List ((K ×ₗ Bool) × ℕ)) (s : Bool) :
    List (OutputInfo K) :=
  (due.filter fun d => decide ((ofLex d.1).2 = s)).map fun d => ⟨wallet, (ofLex d.1).1, d.2⟩

omit [LinearOrder K] in
theorem offerAt_pushChange (wallet : Bytes × Bytes) (due : List ((K ×ₗ Bool) × ℕ))
    (offers : SegmentOffers K) (s : Bool) :
    (due.foldl (pushChange wallet) offers).offerAt s =
      { offers.offerAt s with
        outputs := (offers.offerAt s).outputs ++ (changeIn wallet due s).map .change } := by
  have hrun := offerAt_foldl (fun d : (K ×ₗ Bool) × ℕ => (ofLex d.1).2)
    (fun offer d => offer.pushOutput (.change ⟨wallet, (ofLex d.1).1, d.2⟩)) due offers s
  rw [foldl_pushOutput] at hrun
  rw [changeIn, List.map_map]
  exact hrun

theorem amountsOf_changeIn (wallet : Bytes × Bytes) (due : List ((K ×ₗ Bool) × ℕ)) (s : Bool)
    (token : K) : amountsOf token ((changeIn wallet due s).map OutputInfo.amount) =
      amountsOf (toLex (token, s)) due := by
  have hkeyed := amountsOf_keyed due (fun d => ((ofLex d.1).1, d.2)) (fun d => (ofLex d.1).2)
    token s
  rw [changeIn, List.map_map]
  refine hkeyed.symm.trans (congrArg _ ?_)
  exact List.map_id due

omit [LinearOrder K] in
theorem offerAt_transactionInfo (intent : IntentInfo C U) (offers : SegmentOffers K) (s : Bool) :
    (transactionInfo intent offers).offerAt s = offers.offerAt s := by
  cases s with
  | false => rfl
  | true =>
    obtain ⟨guaranteed, ⟨inputs, outputs, transients⟩⟩ := offers
    cases outputs <;> cases inputs <;> cases transients <;> rfl

theorem totalOf_mintsOf (coins : Coins K C U) (address : Bytes)
    (guaranteed fallible : Option (Transcript C U)) (s : Bool) (token : K) :
    totalOf (toLex (token, s)) (mintsOf coins address guaranteed fallible) =
      totalOf token (mintsIn coins address (if s then fallible else guaranteed)) := by
  have hone : ∀ (transcript : Option (Transcript C U)) (s' : Bool),
      totalOf (toLex (token, s)) ((mintsIn coins address transcript).map fun mint =>
        (toLex (mint.1, s'), mint.2)) =
        if s' = s then totalOf token (mintsIn coins address transcript) else 0 := by
    intro transcript s'
    refine (totalOf_keyed (mintsIn coins address transcript) id (fun _ => s') token s).trans ?_
    rw [List.map_id]
    by_cases hs : s' = s
    · rw [if_pos hs, List.filter_eq_self.mpr (fun _ _ => decide_eq_true hs)]
    · rw [if_neg hs, List.filter_eq_nil_iff.mpr (fun _ _ => by simpa using hs)]
      rfl
  unfold mintsOf
  rw [List.flatMap_cons, List.flatMap_cons, List.flatMap_nil, List.append_nil,
    UnshieldedDeposits.totalOf_append, hone, hone]
  cases s <;> simp

theorem balanceTransaction_ok [DecidableEq U] {builds : Builds K C U T} {unpaid result : T}
    (h : balanceTransaction builds unpaid = .ok result) :
    (∃ imbalance, builds.imbalance unpaid = .ok imbalance ∧
      ∀ entry ∈ imbalance, ¬ (entry.1.1 ≠ .dust ∧ entry.2 < 0)) ∧
      builds.payFee unpaid = .ok result := by
  obtain ⟨imbalance, himbalance, h⟩ := exists_of_bind h
  split at h
  · cases h
  · rename_i hnone
    refine ⟨⟨imbalance, mapError_ok himbalance, fun entry hentry hshort => hnone ?_⟩, h⟩
    exact List.any_eq_true.mpr ⟨entry, hentry, decide_eq_true hshort⟩

theorem attachAndProve_ok [ToString K] [DecidableEq U] {builds : Builds K C U T}
    {intent : IntentInfo C U} {circuit : CircuitOffers K} {result : T}
    {prepared : List (PreparedInput K)} {wallet : Bytes × Bytes} {keys : List Bytes}
    {payFees : Bool}
    (h : attachAndProve builds intent circuit prepared wallet keys payFees = .ok result) :
    (∀ input ∈ prepared, ¬ Ambiguous input.tokenType circuit.outputSegments) ∧
    ∃ attachedValue, totalByKey (prepared.map fun input =>
        (toLex (input.amount.1, joins circuit.outputSegments input), input.amount.2)) =
          .ok attachedValue ∧
    ∃ info proven unpaid, info.intents = [(intentSegment, intent)] ∧
      (∀ s, info.offerAt s =
        ⟨(circuit.offers.offerAt s).inputs ++
            prepared.filter fun input => decide (joins circuit.outputSegments input = s),
          (circuit.offers.offerAt s).outputs ++ (changeIn wallet
            (changeDue attachedValue circuit.circuitOutputValue circuit.mintedValue) s).map .change,
          (circuit.offers.offerAt s).transients⟩) ∧
      builds.proveWithoutFee info = .ok proven ∧ signed builds proven keys = .ok unpaid ∧
      (if payFees then balanceTransaction builds unpaid else .ok unpaid) = .ok result := by
  obtain ⟨⟨attached, offers⟩, hattach, h⟩ := exists_of_bind h
  obtain ⟨hclear, hattached, hoffers⟩ := attach_ok hattach
  obtain ⟨attachedValue, htotal, h⟩ := exists_of_bind h
  obtain ⟨proven, hproven, h⟩ := exists_of_bind h
  obtain ⟨unpaid, hunpaid, h⟩ := exists_of_bind h
  simp only at hattached hoffers
  rw [hattached, List.nil_append] at htotal
  refine ⟨hclear, attachedValue, htotal, _, proven, unpaid, rfl, fun s => ?_, hproven, hunpaid, h⟩
  rw [offerAt_transactionInfo, offerAt_pushChange, hoffers, offerAt_attach]

variable [DecidableEq C]

/-- What the steps of a call answer: its wallet, its transcripts and its coins. -/
structure Outcome (K C U : Type) where
  wallet : Bytes × Bytes
  guaranteed : Option (Transcript C U)
  fallible : Option (Transcript C U)
  inputs : List (C × CoinInfo K)
  outputs : List (C × MintedCoinOutput K)
  prepared : List (PreparedInput K)

structure Answers (coins : Coins K C U) (builds : Builds K C U T) (call : Call)
    (o : Outcome K C U) : Prop where
  wallet : builds.shieldedPublicKeys = .ok o.wallet
  transcripts : builds.partitioned = .ok (o.guaranteed, o.fallible)
  inputs : call.zswapInputs.mapM (pendingInput coins call.contractAddress) = .ok o.inputs
  outputs : buildShieldedOfferOutputs coins call.zswapOutputs call.coinEncryptionKeys o.wallet =
    .ok o.outputs
  prepared : builds.prepareShieldedInputs call.coins = .ok o.prepared

namespace Outcome

def claimed (o : Outcome K C U) : List C := fallibleCommitments o.fallible

def segments (o : Outcome K C U) : List (K × Bool) :=
  o.outputs.map fun out => (out.2.coin.type, rides o.claimed out)

def transcriptAt (o : Outcome K C U) (s : Bool) : Option (Transcript C U) :=
  if s then o.fallible else o.guaranteed

/-- What a segment's transcript mints of a token. -/
def minted (coins : Coins K C U) (address : Bytes) (o : Outcome K C U) (s : Bool) (token : K) : ℕ :=
  totalOf token (mintsIn coins address (o.transcriptAt s))

/-- What the coins of a segment draw of a token. -/
def drawn (o : Outcome K C U) (plain : List (C × MintedCoinOutput K)) (s : Bool) (token : K) : ℕ :=
  totalOf token ((ridingIn o.claimed plain s).map amountOf)

/-- The caller's coins that join a segment. -/
def attachedIn (o : Outcome K C U) (s : Bool) : List (PreparedInput K) :=
  o.prepared.filter fun input => decide (joins o.segments input = s)

def attached (o : Outcome K C U) (s : Bool) (token : K) : ℕ :=
  totalOf token ((o.attachedIn s).map PreparedInput.amount)

end Outcome

/-- The ledger reports each token that a proven transaction leaves short. -/
def Builds.ReportsDeficits (builds : Builds K C U T) (coins : Coins K C U) (address : Bytes) :
    Prop :=
  ∀ info proven keys unpaid imbalance, builds.proveWithoutFee info = .ok proven →
    signed builds proven keys = .ok unpaid → builds.imbalance unpaid = .ok imbalance →
    ∀ s token, info.balance coins address s token < 0 →
      ((.shielded token, segmentId s), info.balance coins address s token) ∈ imbalance

/-- A segment takes the coins attached to it and gives back, to the wallet, what they carry
beyond what its coins draw and no mint covers. -/
structure Conserved (coins : Coins K C U) (address : Bytes) (o : Outcome K C U)
    (plain paired : List (C × MintedCoinOutput K)) (info : TransactionInfo K C U) (s : Bool) :
    Prop where
  inputs : (info.offerAt s).inputs = o.attachedIn s
  outputs : ∃ change : List (OutputInfo K),
    (info.offerAt s).outputs =
      ((ridingIn o.claimed plain s).map fun out => .minted out.2) ++ change.map .change ∧
    (∀ c ∈ change, c.destination = o.wallet) ∧
    ∀ token, amountsOf token (change.map OutputInfo.amount) =
      if o.drawn plain s token - o.minted coins address s token < o.attached s token then
        [o.attached s token - (o.drawn plain s token - o.minted coins address s token)]
      else []
  transients : (info.offerAt s).transients =
    (ridingIn o.claimed paired s).filterMap (transientOf o.claimed)
  balance : ∀ token, info.balance coins address s token =
    if o.drawn plain s token - o.minted coins address s token ≤ o.attached s token then
      ((o.minted coins address s token - o.drawn plain s token : ℕ) : ℤ)
    else
      o.attached s token + o.minted coins address s token - o.drawn plain s token

end Calls

section Conserving

variable {K C U T : Type} [LinearOrder K] [DecidableEq C]
  {coins : Coins K C U} {builds : Builds K C U T} {call : Call} {result : T}

/-- What a call that is accepted went through. -/
theorem callTransaction_ok [ToString K] [LinearOrder U] [ToString U]
    (h : callTransaction coins builds call = .ok result) :
    ∃ o intent circuitOutputValue mintedValue keys, Answers coins builds call o ∧
      intent.guaranteedTranscript = o.guaranteed ∧ intent.fallibleTranscript = o.fallible ∧
      totalByKey (mintsOf coins call.contractAddress o.guaranteed o.fallible) = .ok mintedValue ∧
      totalByKey (routeOutputs o.claimed o.inputs o.outputs).drawn = .ok circuitOutputValue ∧
      (routeOutputs o.claimed o.inputs o.outputs).pending = [] ∧
      attachAndProve builds intent ⟨(routeOutputs o.claimed o.inputs o.outputs).offers,
        (routeOutputs o.claimed o.inputs o.outputs).outputSegments, circuitOutputValue,
        mintedValue⟩ o.prepared o.wallet keys call.payFees = .ok result := by
  obtain ⟨-, -, h⟩ := exists_of_bind h
  obtain ⟨wallet, hwallet, h⟩ := exists_of_bind h
  obtain ⟨-, -, h⟩ := exists_of_bind h
  obtain ⟨⟨guaranteed, fallible⟩, htranscripts, h⟩ := exists_of_bind h
  obtain ⟨mintedValue, hminted, h⟩ := exists_of_bind h
  obtain ⟨-, -, h⟩ := exists_of_bind h
  obtain ⟨-, -, h⟩ := exists_of_bind h
  obtain ⟨-, -, h⟩ := exists_of_bind h
  obtain ⟨inputs, hinputs, h⟩ := exists_of_bind h
  obtain ⟨outputs, houtputs, h⟩ := exists_of_bind h
  obtain ⟨circuitOutputValue, hdrawn, h⟩ := exists_of_bind h
  obtain ⟨_, hpending, h⟩ := exists_of_bind h
  obtain ⟨prepared, hprepared, h⟩ := exists_of_bind h
  obtain ⟨drawn, -, h⟩ := exists_of_bind h
  refine ⟨⟨wallet, guaranteed, fallible, inputs, outputs, prepared⟩, _, circuitOutputValue,
    mintedValue, _, ⟨hwallet, htranscripts, hinputs, houtputs, hprepared⟩, rfl, rfl, hminted,
    hdrawn, ?_, h⟩
  unfold refusePending at hpending
  split at hpending
  · rename_i hempty
    exact List.isEmpty_iff.mp hempty
  · cases hpending

variable {o : Outcome K C U} {plain paired : List (C × MintedCoinOutput K)} {r : Routing K C}
  {info : TransactionInfo K C U} {intent : IntentInfo C U} {address : Bytes}
  {attachedValue drawnValue mintedValue : SortedMap (K ×ₗ Bool) ℕ}

/-- The totals by which the change is sized are those of the segment. -/
theorem change_sized (hrouted : Routed o.claimed o.inputs o.outputs plain paired r)
    (hattached : totalByKey (o.prepared.map fun input =>
      (toLex (input.amount.1, joins o.segments input), input.amount.2)) = .ok attachedValue)
    (hdrawn : totalByKey r.drawn = .ok drawnValue)
    (hminted : totalByKey (mintsOf coins address o.guaranteed o.fallible) = .ok mintedValue)
    (s : Bool) (token : K) :
    amountsOf token ((changeIn o.wallet (changeDue attachedValue drawnValue mintedValue) s).map
        OutputInfo.amount) =
      if o.drawn plain s token - o.minted coins address s token < o.attached s token then
        [o.attached s token - (o.drawn plain s token - o.minted coins address s token)]
      else [] := by
  have hA : (attachedValue.get? (toLex (token, s))).getD 0 = o.attached s token :=
    (totalByKey_get hattached _).trans
      (totalOf_keyed o.prepared PreparedInput.amount (joins o.segments) token s)
  have hD : (drawnValue.get? (toLex (token, s))).getD 0 = o.drawn plain s token := by
    rw [hrouted.drawn] at hdrawn
    exact (totalByKey_get hdrawn _).trans (totalOf_keyed plain amountOf (rides o.claimed) token s)
  have hM : (mintedValue.get? (toLex (token, s))).getD 0 = o.minted coins address s token :=
    (totalByKey_get hminted _).trans (totalOf_mintsOf coins address _ _ s token)
  rw [amountsOf_changeIn, amountsOf_changeDue, hA, hD, hM]

theorem conserved (hrouted : Routed o.claimed o.inputs o.outputs plain paired r)
    (hattached : totalByKey (o.prepared.map fun input =>
      (toLex (input.amount.1, joins o.segments input), input.amount.2)) = .ok attachedValue)
    (hdrawn : totalByKey r.drawn = .ok drawnValue)
    (hminted : totalByKey (mintsOf coins address o.guaranteed o.fallible) = .ok mintedValue)
    (hintents : info.intents = [(intentSegment, intent)])
    (hguaranteed : intent.guaranteedTranscript = o.guaranteed)
    (hfallible : intent.fallibleTranscript = o.fallible)
    (hoffers : ∀ s, info.offerAt s =
      ⟨(r.offers.offerAt s).inputs ++ o.attachedIn s,
        (r.offers.offerAt s).outputs ++
          (changeIn o.wallet (changeDue attachedValue drawnValue mintedValue) s).map .change,
        (r.offers.offerAt s).transients⟩) (s : Bool) :
    Conserved coins address o plain paired info s := by
  have hsized := change_sized hrouted hattached hdrawn hminted s
  have hoffer := hoffers s
  rw [hrouted.offers s] at hoffer
  have htranscript : info.transcriptAt s = o.transcriptAt s := by
    rw [TransactionInfo.transcriptAt, hintents, List.lookup_cons_self, Option.bind_some,
      hguaranteed, hfallible, Outcome.transcriptAt]
  refine ⟨by rw [hoffer, List.nil_append], ⟨_, by rw [hoffer], fun c hc => ?_, hsized⟩,
    by rw [hoffer], fun token => ?_⟩
  · obtain ⟨d, -, rfl⟩ := List.mem_map.mp hc
    rfl
  · have hchange : totalOf token ((changeIn o.wallet
        (changeDue attachedValue drawnValue mintedValue) s).map OutputInfo.amount) = _ :=
      congrArg List.sum (hsized token)
    have houtputs : totalOf token ((info.offerAt s).outputs.map OfferOutput.amount) =
        o.drawn plain s token + totalOf token
          ((changeIn o.wallet (changeDue attachedValue drawnValue mintedValue) s).map
            OutputInfo.amount) := by
      rw [hoffer, List.map_append, UnshieldedDeposits.totalOf_append, List.map_map, List.map_map]
      rfl
    have hinputs : totalOf token ((info.offerAt s).inputs.map PreparedInput.amount) =
        o.attached s token := by
      rw [hoffer, List.nil_append]
      rfl
    rw [TransactionInfo.balance, htranscript, delta_eq, hinputs, houtputs, hchange]
    change (o.minted coins address s token : ℤ) + _ = _
    by_cases hshort : o.drawn plain s token - o.minted coins address s token ≤ o.attached s token
    · rw [if_pos hshort]
      split
      · rw [List.sum_singleton]
        omega
      · rw [List.sum_nil]
        omega
    · rw [if_neg hshort, if_neg (by omega), List.sum_nil]
      omega

/-- A call keeps its caller's coins. -/
theorem shielded_call_conserves [ToString K] [LinearOrder U] [ToString U]
    (h : callTransaction coins builds call = .ok result) :
    ∃ o, Answers coins builds call o ∧
      (∀ input ∈ o.prepared, ¬ Ambiguous input.tokenType o.segments) ∧
      ∃ plain paired, (plain ++ paired).Perm o.outputs ∧
        (paired.map Prod.fst).Perm (o.inputs.map Prod.fst) ∧
        (∀ out ∈ paired, ∃ contract, out.2.recipient = .contract contract) ∧
        ∃ info proven unpaid keys, builds.proveWithoutFee info = .ok proven ∧
          signed builds proven keys = .ok unpaid ∧
          (if call.payFees then builds.payFee unpaid else .ok unpaid) = .ok result ∧
          ∀ s, Conserved coins call.contractAddress o plain paired info s ∧
            (call.payFees = true → builds.ReportsDeficits coins call.contractAddress →
              ∀ token, o.drawn plain s token ≤
                o.minted coins call.contractAddress s token + o.attached s token) := by
  obtain ⟨o, intent, drawnValue, mintedValue, keys, hanswers, hguaranteed, hfallible, hminted,
    hdrawn, hpending, h⟩ := callTransaction_ok h
  obtain ⟨plain, paired, hrouted⟩ := routeOutputs_routed o.claimed o.inputs o.outputs
  obtain ⟨hclear, attachedValue, hattached, info, proven, unpaid, hintents, hoffers, hproven,
    hunpaid, hresult⟩ := attachAndProve_ok h
  rw [hrouted.segments] at hclear hattached hoffers
  have hconserved := conserved hrouted hattached hdrawn hminted hintents hguaranteed hfallible
    hoffers
  have hspent := hrouted.spent
  rw [hpending, List.map_nil, List.append_nil] at hspent
  refine ⟨o, hanswers, hclear, plain, paired, hrouted.created, hspent, hrouted.owned, info, proven,
    unpaid, keys, hproven, hunpaid, ?_, fun s => ⟨hconserved s, fun hpays hreports token => ?_⟩⟩
  · by_cases hpays : call.payFees = true
    · rw [if_pos hpays] at hresult ⊢
      exact (balanceTransaction_ok hresult).2
    · rw [if_neg hpays] at hresult ⊢
      exact hresult
  · rw [if_pos hpays] at hresult
    obtain ⟨⟨imbalance, himbalance, hnone⟩, -⟩ := balanceTransaction_ok hresult
    by_contra hshort
    have hbalance := (hconserved s).balance token
    rw [if_neg (by omega)] at hbalance
    have hdeficit : info.balance coins call.contractAddress s token < 0 := by omega
    have hentry := hreports info proven keys unpaid imbalance hproven hunpaid himbalance s token
      hdeficit
    exact hnone _ hentry ⟨by simp, hdeficit⟩

end Conserving

section Plain

/-- Structs of little-endian numbers, and coins under commitments that hide nothing. -/
def plainCoins : Coins ℕ (CoinInfo ℕ × Recipient) ℕ where
  readCoin
    | [nonce, color, value] => some ⟨nonce, Compact.ofLeBytes color, Compact.ofLeBytes value⟩
    | _ => none
  readQualified
    | [nonce, color, value, index] =>
      some (⟨nonce, Compact.ofLeBytes color, Compact.ofLeBytes value⟩, Compact.ofLeBytes index)
    | _ => none
  readRecipient
    | [side, user, contract] => some (decide (side = [1]), user, contract)
    | _ => none
  commitment := Prod.mk
  customShieldedTokenType _ separator := Compact.ofLeBytes separator
  customUnshieldedTokenType _ separator := Compact.ofLeBytes separator
  debug _ := ""

def flatValue (atoms : List Compact.Atom) : Compact.Value := .alignedValue ⟨atoms, []⟩

/-- Pays a user ten of token 5, of which it mints four. -/
def payingTranscript (mints : List (Bytes × ℕ)) :
    Transcript (CoinInfo ℕ × Recipient) ℕ :=
  ⟨[(⟨[1], 5, 10⟩, .user [9])], [], mints, ⟨[], [], [], []⟩⟩

/-- Receives three of token 6 and spends them. -/
def passingTranscript : Transcript (CoinInfo ℕ × Recipient) ℕ :=
  ⟨[], [(⟨[2], 6, 3⟩, .contract [3])], [], ⟨[], [], [], []⟩⟩

def plainImbalance (info : TransactionInfo ℕ (CoinInfo ℕ × Recipient) ℕ) :
    List ((TokenType ℕ ℕ × ℕ) × ℤ) :=
  [false, true].flatMap fun s => (info.offerAt s).outputs.map fun output =>
    ((.shielded output.amount.1, segmentId s), info.balance plainCoins [3] s output.amount.1)

/-- A prover that hands back what it is given, and a wallet that has what it is asked for. -/
def plainBuilds (mints : List (Bytes × ℕ)) (prepared : List (PreparedInput ℕ)) :
    Builds ℕ (CoinInfo ℕ × Recipient) ℕ (TransactionInfo ℕ (CoinInfo ℕ × Recipient) ℕ) where
  nativeState := .ok ()
  shieldedPublicKeys := .ok ([7], [8])
  executionContext := .ok ()
  partitioned := .ok (some (payingTranscript mints), some passingTranscript)
  callInput := .ok ()
  addFunding := .ok ()
  prepareShieldedInputs _ := .ok prepared
  prepareUnshieldedInputs _ := .ok []
  proveWithoutFee info := .ok info
  signUnshieldedSpends info _ := .ok info
  imbalance info := .ok (plainImbalance info)
  payFee info := .ok info

def plainCall (payFees : Bool) : Call where
  contractAddress := [3]
  zswapInputs := [⟨flatValue [[2], [6], [3], []]⟩]
  zswapOutputs := [⟨flatValue [[1], [5], [10]], flatValue [[1], [9], []]⟩,
    ⟨flatValue [[2], [6], [3]], flatValue [[], [], [3]]⟩]
  coinEncryptionKeys := []
  coins := [[4]]
  payFees

theorem plainBuilds_reports (mints : List (Bytes × ℕ)) (prepared : List (PreparedInput ℕ)) :
    (plainBuilds mints prepared).ReportsDeficits plainCoins [3] := by
  intro info proven keys unpaid imbalance hproven hunpaid himbalance s token hdeficit
  cases hproven
  have hsame : unpaid = info := by
    unfold signed at hunpaid
    split at hunpaid <;> exact (Except.ok.inj hunpaid).symm
  subst hsame
  cases himbalance
  have hdrawn : token ∈ (unpaid.offerAt s).outputs.map fun output => output.amount.1 := by
    by_contra hnone
    have hzero : totalOf token ((unpaid.offerAt s).outputs.map OfferOutput.amount) = 0 := by
      refine UnshieldedDeposits.totalOf_of_not_mem fun amount hmem => hnone ?_
      obtain ⟨output, houtput, heq⟩ := List.mem_map.mp hmem
      exact List.mem_map.mpr ⟨output, houtput, congrArg Prod.fst heq⟩
    rw [TransactionInfo.balance, delta_eq, hzero] at hdeficit
    omega
  obtain ⟨output, houtput, rfl⟩ := List.mem_map.mp hdrawn
  refine List.mem_flatMap.mpr ⟨s, ?_, List.mem_map.mpr ⟨output, houtput, rfl⟩⟩
  cases s <;> simp

/-- Twenty-five attached to a call that pays ten, four of them minted. -/
theorem shielded_call_conserves_change : ∃ o plain paired info,
    Answers plainCoins (plainBuilds [([5], 4)] [⟨5, 25, [4]⟩]) (plainCall true) o ∧
      ∀ s, Conserved plainCoins [3] o plain paired info s ∧
        ∀ token, o.drawn plain s token ≤ o.minted plainCoins [3] s token + o.attached s token := by
  obtain ⟨result, haccepted⟩ : ∃ result, callTransaction plainCoins
      (plainBuilds [([5], 4)] [⟨5, 25, [4]⟩]) (plainCall true) = .ok result := ⟨_, rfl⟩
  obtain ⟨o, hanswers, -, plain, paired, -, -, -, info, -, -, -, -, -, -, hall⟩ :=
    shielded_call_conserves haccepted
  exact ⟨o, plain, paired, info, hanswers,
    fun s => ⟨(hall s).1, (hall s).2 rfl (plainBuilds_reports _ _)⟩⟩

/-- Without a fee to pay, a call takes four attached coins for ten that it pays. -/
theorem shielded_call_short : ∃ info,
    callTransaction plainCoins (plainBuilds [] [⟨5, 4, [4]⟩]) (plainCall false) = .ok info ∧
      (info.offerAt false).outputs = [.minted ⟨⟨[1], 5, 10⟩, .user [9] none⟩] ∧
      info.balance plainCoins [3] false 5 = -6 := by
  refine ⟨_, rfl, rfl, ?_⟩
  decide

end Plain

end MidnightRs.ShieldedCalls
