import MidnightRs.Results
import MidnightRs.SortedMaps
import MidnightRs.Submission
import Mathlib.Algebra.Order.BigOperators.Group.List
import Mathlib.Algebra.Order.Ring.Nat

/-!
The unshielded value that a contract call draws from its caller. Each segment of
the call owes what its transcript takes in and pays out beyond what the contract
sends and mints; the caller's UTXOs and their change make up for exactly that.
The ledger's wallet is a parameter, and tokens are compared in their own order.
-/
namespace MidnightRs.UnshieldedDeposits

open Results SortedMaps SortedMap
open Reservations (SpentUtxoKey)
open Submission (ContractError)

section Model

variable (K : Type)

inductive TokenType where
  | unshielded (type : K)
  | shielded (type : Bytes)
  | dust
deriving DecidableEq, Repr

inductive PublicAddress where
  | contract (address : Bytes)
  | user (address : Bytes)
deriving DecidableEq, Repr

/-- The unshielded effects of a transcript. -/
structure Effects where
  claimedUnshieldedSpends : List ((TokenType K × PublicAddress) × ℕ)
  unshieldedInputs : List (TokenType K × ℕ)
  unshieldedOutputs : List (TokenType K × ℕ)
  unshieldedMints : List (Bytes × ℕ)
deriving DecidableEq, Repr

structure Transcript where
  effects : Effects K
deriving DecidableEq, Repr

structure UtxoOutputInfo where
  value : ℕ
  owner : Bytes
  tokenType : K
deriving DecidableEq, Repr

structure UtxoSpend where
  value : ℕ
  owner : Bytes
  tokenType : K
  intentHash : Bytes
  outputNo : ℕ
deriving DecidableEq, Repr

/-- The value a wallet put toward one draw, with the change back to the wallet. -/
structure PreparedUnshielded where
  inputs : List (UtxoSpend K)
  change : Option (UtxoOutputInfo K)
  spent : List SpentUtxoKey
deriving DecidableEq, Repr

structure UnshieldedOfferInfo where
  inputs : List (UtxoSpend K)
  outputs : List (UtxoOutputInfo K)
deriving DecidableEq, Repr

/-- The wallet that pays, with the coin selection of the ledger's helpers. -/
structure Payer (I : Type) where
  utxosToCoverValue : ℕ → K → Except WalletError (List I × ℕ)
  build : I → UtxoSpend K
  userAddress : Bytes

variable {K} {I : Type}

def u128Max : ℕ := 2 ^ 128 - 1

def saturatingAdd (a b : ℕ) : ℕ := min (a + b) u128Max

def payoutsOf (transcript : Option (Transcript K)) : List (UtxoOutputInfo K) :=
  match transcript with
  | none => []
  | some transcript => transcript.effects.claimedUnshieldedSpends.filterMap fun
    | ((.unshielded tokenType, .user owner), value) => some ⟨value, owner, tokenType⟩
    | _ => none

/-- The amounts in unshielded tokens. -/
def unshieldedOf (amounts : List (TokenType K × ℕ)) : List (K × ℕ) :=
  amounts.filterMap fun
    | (.unshielded token, value) => some (token, value)
    | _ => none

def UtxoSpend.spentKey (u : UtxoSpend K) : SpentUtxoKey := ⟨u.intentHash, u.outputNo⟩

def prepareUnshieldedInputs (P : Payer K I) (tokenType : K) (amount : ℕ) :
    Except WalletError (PreparedUnshielded K) := do
  let (selected, change) ← P.utxosToCoverValue amount tokenType
  let inputs := selected.map P.build
  .ok ⟨inputs, if 0 < change then some ⟨change, P.userAddress, tokenType⟩ else none,
    inputs.map UtxoSpend.spentKey⟩

/-- The UTXOs are held against the keys that are reserved when the wallet is locked. -/
def spendUnshielded (h : WalletBuilds.Helpers) (P : Payer K I) (reserved : List SpentUtxoKey)
    (tokenType : K) (amount : ℕ) : Except WalletError (PreparedUnshielded K) := do
  let prepared ← prepareUnshieldedInputs P tokenType amount
  match prepared.spent.find? (fun key => reserved.contains key) with
  | some taken => .error (WalletBuilds.Wallet.unshieldedReserved h taken)
  | none => .ok prepared

/-- One draw after the other; the wallet may reserve for other builds in between. -/
def drawEach (h : WalletBuilds.Helpers) (P : Payer K I) (reserved : ℕ → List SpentUtxoKey) :
    ℕ → List (K × ℕ) → Except WalletError (List (PreparedUnshielded K))
  | _, [] => .ok []
  | n, (tokenType, amount) :: draws => do
    let draw ← spendUnshielded h P (reserved n) tokenType amount
    let rest ← drawEach h P reserved (n + 1) draws
    .ok (draw :: rest)

def offer (payouts : List (UtxoOutputInfo K)) (drawn : List (PreparedUnshielded K)) :
    Option (UnshieldedOfferInfo K) :=
  let inputs := drawn.flatMap PreparedUnshielded.inputs
  let outputs := payouts ++ drawn.flatMap (fun draw => draw.change.toList)
  if inputs.isEmpty ∧ outputs.isEmpty then none else some ⟨inputs, outputs⟩

variable [LinearOrder K]

/-- What a transcript's caller must fund, by token. -/
def depositsOf (customTokenType : Bytes → Bytes → K) (transcript : Option (Transcript K))
    (contract : Bytes) : List (K × ℕ) :=
  match transcript with
  | none => []
  | some transcript =>
    let effects := transcript.effects
    let need := addAll saturatingAdd 0 empty (unshieldedOf effects.unshieldedInputs)
    let need := addAll saturatingAdd 0 need
      ((payoutsOf (some transcript)).map fun payout => (payout.tokenType, payout.value))
    let held := addAll saturatingAdd 0 empty (unshieldedOf effects.unshieldedOutputs)
    let held := addAll saturatingAdd 0 held
      (effects.unshieldedMints.map fun mint => (customTokenType contract mint.1, mint.2))
    need.entries.filterMap fun (token, needed) =>
      let owed := needed - (held.get? token).getD 0
      if 0 < owed then some (token, owed) else none

/-- The guaranteed and the fallible unshielded offer of a call. -/
def unshieldedOffers [ToString K] (h : WalletBuilds.Helpers) (P : Payer K I)
    (reserved : ℕ → List SpentUtxoKey) (customTokenType : Bytes → Bytes → K) (contract : Bytes)
    (guaranteed fallible : Option (Transcript K)) :
    Except ContractError (Option (UnshieldedOfferInfo K) × Option (UnshieldedOfferInfo K)) :=
  let guaranteedPayouts := payoutsOf guaranteed
  let falliblePayouts := payoutsOf fallible
  let guaranteedDeposits := depositsOf customTokenType guaranteed contract
  let fallibleDeposits := depositsOf customTokenType fallible contract
  match guaranteedDeposits.find? (fun d => fallibleDeposits.any (fun o => decide (o.1 = d.1))) with
  | some (tokenType, _) => .error (.construction
      (s!"a call that receives unshielded token {tokenType} in both its guaranteed and " ++
        "fallible parts is not yet supported"))
  | none => do
    let drawn ← (drawEach h P reserved 0 (guaranteedDeposits ++ fallibleDeposits)).mapError
      (fun e => ContractError.provider (.wallet e))
    let (guaranteedDrawn, fallibleDrawn) := drawn.splitAt guaranteedDeposits.length
    .ok (offer guaranteedPayouts guaranteedDrawn, offer falliblePayouts fallibleDrawn)

end Model

section Sums

variable {K I : Type} [LinearOrder K]

def totalOf (token : K) (amounts : List (K × ℕ)) : ℕ := (amountsOf token amounts).sum

theorem totalOf_append (token : K) (xs ys : List (K × ℕ)) :
    totalOf token (xs ++ ys) = totalOf token xs + totalOf token ys := by
  simp [totalOf]

theorem totalOf_of_not_mem {token : K} {amounts : List (K × ℕ)}
    (h : ∀ amount, (token, amount) ∉ amounts) : totalOf token amounts = 0 := by
  have hnone : amounts.filter (fun e => decide (e.1 = token)) = [] := by
    rw [List.filter_eq_nil_iff]
    intro e he heq
    obtain rfl := of_decide_eq_true heq
    exact h e.2 he
  rw [totalOf, amountsOf, hnone]
  rfl

/-- With each token listed once, a listed amount is the token's total. -/
theorem totalOf_of_mem {token : K} {amount : ℕ} {amounts : List (K × ℕ)}
    (hnodup : (amounts.map Prod.fst).Nodup) (h : (token, amount) ∈ amounts) :
    totalOf token amounts = amount := by
  induction amounts with
  | nil => cases h
  | cons e amounts ih =>
    obtain ⟨hnot, hrest⟩ := List.nodup_cons.mp hnodup
    rcases List.mem_cons.mp h with rfl | h
    · have hzero : totalOf token amounts = 0 :=
        totalOf_of_not_mem fun a ha => hnot (List.mem_map.mpr ⟨(token, a), ha, rfl⟩)
      rw [totalOf, amountsOf_cons_self, List.sum_cons]
      unfold totalOf at hzero
      omega
    · have hne : e.1 ≠ token := fun heq => hnot (heq ▸ List.mem_map_of_mem h)
      rw [← ih hrest h]
      exact congrArg List.sum (amountsOf_cons_ne hne e.2 amounts)

/-- What the contract takes in. -/
def received (transcript : Option (Transcript K)) (token : K) : ℕ :=
  transcript.elim 0 fun t => totalOf token (unshieldedOf t.effects.unshieldedInputs)

/-- What the contract sends out. -/
def sent (transcript : Option (Transcript K)) (token : K) : ℕ :=
  transcript.elim 0 fun t => totalOf token (unshieldedOf t.effects.unshieldedOutputs)

def minted (customTokenType : Bytes → Bytes → K) (contract : Bytes)
    (transcript : Option (Transcript K)) (token : K) : ℕ :=
  transcript.elim 0 fun t => totalOf token
    (t.effects.unshieldedMints.map fun mint => (customTokenType contract mint.1, mint.2))

def outputAmounts (outputs : List (UtxoOutputInfo K)) : List (K × ℕ) :=
  outputs.map fun output => (output.tokenType, output.value)

def inputAmounts (inputs : List (UtxoSpend K)) : List (K × ℕ) :=
  inputs.map fun input => (input.tokenType, input.value)

/-- What users are claimed to be paid. -/
def paid (transcript : Option (Transcript K)) (token : K) : ℕ :=
  totalOf token (outputAmounts (payoutsOf transcript))

/-- No sum of the transcript leaves a `u128`. -/
def Fits (customTokenType : Bytes → Bytes → K) (contract : Bytes)
    (transcript : Option (Transcript K)) : Prop :=
  ∀ token, received transcript token + paid transcript token ≤ u128Max ∧
    sent transcript token + minted customTokenType contract transcript token ≤ u128Max

variable (customTokenType : Bytes → Bytes → K) (contract : Bytes)
  (transcript : Option (Transcript K))

/-- The amount that a call draws of a token for a transcript. -/
def drawnOf (token : K) : ℕ :=
  totalOf token (depositsOf customTokenType transcript contract)

theorem getD_addAll_saturating (m : SortedMap K ℕ) (amounts : List (K × ℕ)) (token : K)
    (h : (m.get? token).getD 0 ≤ u128Max) :
    ((addAll saturatingAdd 0 m amounts).get? token).getD 0 =
      min ((m.get? token).getD 0 + totalOf token amounts) u128Max := by
  rw [getD_addAll]
  exact foldl_saturating u128Max _ h

/-- Two lots of amounts have the sum of both, up to the bound. -/
theorem getD_addAll_two (xs ys : List (K × ℕ)) (token : K) :
    ((addAll saturatingAdd 0 (addAll saturatingAdd 0 empty xs) ys).get? token).getD 0 =
      min (totalOf token xs + totalOf token ys) u128Max := by
  have hempty : ((empty : SortedMap K ℕ).get? token).getD 0 = 0 := rfl
  have hfirst := getD_addAll_saturating empty xs token (by omega)
  rw [getD_addAll_saturating _ ys token (by omega), hfirst, hempty]
  omega

theorem depositsOf_keys_nodup :
    ((depositsOf customTokenType transcript contract).map Prod.fst).Nodup := by
  unfold depositsOf
  cases transcript with
  | none => exact List.nodup_nil
  | some t =>
    refine (keys_nodup _).sublist (keys_filterMap_sublist (fun e r h => ?_) _)
    simp only at h
    split at h
    · cases h
      rfl
    · cases h

theorem mem_depositsOf (token : K) (owed : ℕ) :
    (token, owed) ∈ depositsOf customTokenType transcript contract ↔
      owed = min (received transcript token + paid transcript token) u128Max -
        min (sent transcript token + minted customTokenType contract transcript token) u128Max ∧
      0 < owed := by
  cases transcript with
  | none => simp [depositsOf, received, paid, payoutsOf, totalOf, amountsOf, outputAmounts]
  | some t =>
    have hneed : _ = min (received (some t) token + paid (some t) token) u128Max :=
      getD_addAll_two (unshieldedOf t.effects.unshieldedInputs)
        (outputAmounts (payoutsOf (some t))) token
    have hheld : _ = min (sent (some t) token +
        minted customTokenType contract (some t) token) u128Max :=
      getD_addAll_two (unshieldedOf t.effects.unshieldedOutputs)
        (t.effects.unshieldedMints.map fun mint => (customTokenType contract mint.1, mint.2)) token
    unfold depositsOf
    rw [List.mem_filterMap]
    constructor
    · rintro ⟨⟨token', needed⟩, hmem, hentry⟩
      simp only at hentry
      split at hentry
      · rename_i howed
        cases hentry
        have hget := (mem_entries_iff _ _ _).mp hmem
        unfold outputAmounts at hneed
        rw [hget, Option.getD_some] at hneed
        rw [hheld] at howed ⊢
        rw [hneed] at howed ⊢
        exact ⟨rfl, howed⟩
      · cases hentry
    · rintro ⟨howed, hpos⟩
      cases hget : (addAll saturatingAdd 0 (addAll saturatingAdd 0 empty
          (unshieldedOf t.effects.unshieldedInputs))
          (outputAmounts (payoutsOf (some t)))).get? token with
      | none =>
        rw [hget, Option.getD_none] at hneed
        omega
      | some needed =>
        rw [hget, Option.getD_some] at hneed
        refine ⟨(token, needed), (mem_entries_iff _ _ _).mpr hget, ?_⟩
        have hleft : needed - min (sent (some t) token +
            minted customTokenType contract (some t) token) u128Max = owed := by
          rw [howed, hneed]
        simp only [hheld]
        rw [if_pos (by omega)]
        exact congrArg (fun n => some (token, n)) hleft

/-- The amount drawn is what the transcript owes beyond what it gives. -/
theorem drawnOf_eq (h : Fits customTokenType contract transcript) (token : K) :
    (drawnOf customTokenType contract transcript token : ℤ) =
      max 0 (received transcript token + paid transcript token - sent transcript token -
        minted customTokenType contract transcript token) := by
  obtain ⟨hneed, hheld⟩ := h token
  by_cases howed : 0 < received transcript token + paid transcript token -
      (sent transcript token + minted customTokenType contract transcript token)
  · have hmem := (mem_depositsOf customTokenType contract transcript token _).mpr
      ⟨by omega, howed⟩
    rw [drawnOf, totalOf_of_mem (depositsOf_keys_nodup _ _ _) hmem]
    omega
  · have hnot : ∀ owed, (token, owed) ∉ depositsOf customTokenType transcript contract := by
      intro owed hmem
      have hspec := (mem_depositsOf customTokenType contract transcript token owed).mp hmem
      omega
    rw [drawnOf, totalOf_of_not_mem hnot]
    omega

end Sums

section Draws

variable {K I : Type}

/-- The selection covers an amount with UTXOs of the token that the view holds under
their keys, up to the change that it names. -/
def Payer.Lawful (P : Payer K I) (view : SpentUtxoKey → Option (UtxoSpend K)) : Prop :=
  ∀ amount token selected change, P.utxosToCoverValue amount token = .ok (selected, change) →
    (∀ i ∈ selected, (P.build i).tokenType = token ∧
      view (P.build i).spentKey = some (P.build i)) ∧
    ((selected.map P.build).map UtxoSpend.value).sum = amount + change

variable {view : SpentUtxoKey → Option (UtxoSpend K)}

/-- A draw spends UTXOs of its token for its amount and the change. -/
structure Drawn (view : SpentUtxoKey → Option (UtxoSpend K)) (d : K × ℕ)
    (prepared : PreparedUnshielded K) : Prop where
  inputs : ∀ u ∈ prepared.inputs, u.tokenType = d.1 ∧ view u.spentKey = some u
  change : ∀ c ∈ prepared.change, c.tokenType = d.1
  value : (prepared.inputs.map UtxoSpend.value).sum =
    d.2 + prepared.change.elim 0 UtxoOutputInfo.value

theorem spendUnshielded_drawn {h : WalletBuilds.Helpers} {P : Payer K I} (hP : P.Lawful view)
    {reserved : List SpentUtxoKey} {token : K} {amount : ℕ} {prepared : PreparedUnshielded K}
    (hspend : spendUnshielded h P reserved token amount = .ok prepared) :
    Drawn view (token, amount) prepared := by
  obtain ⟨prepared', hprepare, hspend⟩ := exists_of_bind hspend
  obtain ⟨⟨selected, change⟩, hcover, hprepare⟩ := exists_of_bind hprepare
  cases hprepare
  obtain ⟨htoken, hvalue⟩ := hP _ _ _ _ hcover
  split at hspend
  · cases hspend
  · cases hspend
    refine ⟨fun u hu => ?_, fun c hc => ?_, ?_⟩
    · obtain ⟨i, hi, rfl⟩ := List.mem_map.mp hu
      exact htoken i hi
    · simp only at hc
      split at hc
      · cases hc
        rfl
      · cases hc
    · simp only
      rw [hvalue]
      by_cases hchange : 0 < change
      · simp [hchange]
      · simp [hchange]
        omega

/-- The draws come back one for one, in order. -/
theorem drawEach_drawn {h : WalletBuilds.Helpers} {P : Payer K I} (hP : P.Lawful view)
    {reserved : ℕ → List SpentUtxoKey} {n : ℕ} {draws : List (K × ℕ)}
    {drawn : List (PreparedUnshielded K)} (hdrawn : drawEach h P reserved n draws = .ok drawn) :
    List.Forall₂ (Drawn view) draws drawn := by
  induction draws generalizing n drawn with
  | nil =>
    cases hdrawn
    exact .nil
  | cons d draws ih =>
    obtain ⟨draw, hdraw, hdrawn⟩ := exists_of_bind hdrawn
    obtain ⟨rest, hrest, hdrawn⟩ := exists_of_bind hdrawn
    cases hdrawn
    exact .cons (spendUnshielded_drawn hP hdraw) (ih hrest)

/-- The change that the draws leave. -/
def changeOf (drawn : List (PreparedUnshielded K)) : List (UtxoOutputInfo K) :=
  drawn.flatMap fun draw => draw.change.toList

theorem mem_drawn {draws : List (K × ℕ)} {drawn : List (PreparedUnshielded K)}
    (h : List.Forall₂ (Drawn view) draws drawn) {u : UtxoSpend K}
    (hu : u ∈ drawn.flatMap PreparedUnshielded.inputs) :
    u.tokenType ∈ draws.map Prod.fst ∧ view u.spentKey = some u := by
  induction h with
  | nil => cases hu
  | @cons d prepared draws drawn hd _ ih =>
    rw [List.flatMap_cons, List.mem_append] at hu
    rcases hu with hu | hu
    · obtain ⟨htoken, hview⟩ := hd.inputs u hu
      rw [htoken]
      exact ⟨List.mem_cons_self, hview⟩
    · exact (ih hu).imp (List.mem_cons_of_mem _) id

variable [LinearOrder K]

/-- Amounts of one token count for that token alone. -/
theorem totalOf_same {token : K} {amounts : List (K × ℕ)} (h : ∀ e ∈ amounts, e.1 = token)
    (token' : K) :
    totalOf token' amounts = if token = token' then (amounts.map Prod.snd).sum else 0 := by
  by_cases htoken : token = token'
  · have hall : amounts.filter (fun e => decide (e.1 = token')) = amounts :=
      List.filter_eq_self.mpr fun e he => decide_eq_true ((h e he).trans htoken)
    rw [if_pos htoken, totalOf, amountsOf, hall]
  · rw [if_neg htoken]
    exact totalOf_of_not_mem fun amount hmem => htoken (h _ hmem).symm

/-- The inputs of the draws carry the amounts drawn and the change. -/
theorem total_drawn (token : K) {draws : List (K × ℕ)} {drawn : List (PreparedUnshielded K)}
    (h : List.Forall₂ (Drawn view) draws drawn) :
    totalOf token (inputAmounts (drawn.flatMap PreparedUnshielded.inputs)) =
      totalOf token draws + totalOf token (outputAmounts (changeOf drawn)) := by
  induction h with
  | nil => rfl
  | @cons d prepared draws drawn hd _ ih =>
    have hinputs : totalOf token (inputAmounts prepared.inputs) =
        if d.1 = token then (prepared.inputs.map UtxoSpend.value).sum else 0 := by
      rw [totalOf_same (fun e he => ?_) token]
      · simp only [inputAmounts, List.map_map]
        rfl
      · obtain ⟨u, hu, rfl⟩ := List.mem_map.mp he
        exact (hd.inputs u hu).1
    have hchange : totalOf token (outputAmounts prepared.change.toList) =
        if d.1 = token then prepared.change.elim 0 UtxoOutputInfo.value else 0 := by
      rw [totalOf_same (fun e he => ?_) token]
      · cases prepared.change with
        | none => rfl
        | some c => simp [outputAmounts]
      · obtain ⟨c, hc, rfl⟩ := List.mem_map.mp he
        exact hd.change c (Option.mem_toList.mp hc)
    have hdraw : totalOf token (d :: draws) = (if d.1 = token then d.2 else 0) +
        totalOf token draws := by
      by_cases htoken : d.1 = token
      · subst htoken
        rw [if_pos rfl]
        exact congrArg List.sum (amountsOf_cons_self d.1 d.2 draws)
      · rw [if_neg htoken, Nat.zero_add]
        exact congrArg List.sum (amountsOf_cons_ne htoken d.2 draws)
    have hsplit : totalOf token (inputAmounts
        ((prepared :: drawn).flatMap PreparedUnshielded.inputs)) =
        totalOf token (inputAmounts prepared.inputs) +
          totalOf token (inputAmounts (drawn.flatMap PreparedUnshielded.inputs)) := by
      rw [List.flatMap_cons, inputAmounts, List.map_append, totalOf_append]
      rfl
    have hsplit' : totalOf token (outputAmounts (changeOf (prepared :: drawn))) =
        totalOf token (outputAmounts prepared.change.toList) +
          totalOf token (outputAmounts (changeOf drawn)) := by
      rw [changeOf, List.flatMap_cons, outputAmounts, List.map_append, totalOf_append]
      rfl
    have hvalue := hd.value
    rw [hsplit, hsplit', hdraw, hinputs, hchange, ih]
    split <;> omega

end Draws

section Balance

variable {K I : Type}

def offerInputs (offer : Option (UnshieldedOfferInfo K)) : List (UtxoSpend K) :=
  offer.elim [] UnshieldedOfferInfo.inputs

def offerOutputs (offer : Option (UnshieldedOfferInfo K)) : List (UtxoOutputInfo K) :=
  offer.elim [] UnshieldedOfferInfo.outputs

theorem offerInputs_offer (payouts : List (UtxoOutputInfo K))
    (drawn : List (PreparedUnshielded K)) :
    offerInputs (offer payouts drawn) = drawn.flatMap PreparedUnshielded.inputs := by
  unfold offer
  by_cases hempty : (drawn.flatMap PreparedUnshielded.inputs).isEmpty ∧
      (payouts ++ drawn.flatMap (fun draw => draw.change.toList)).isEmpty
  · simp only [hempty, and_self, if_true]
    exact (List.isEmpty_iff.mp hempty.1).symm
  · simp only [hempty, if_false]
    rfl

theorem offerOutputs_offer (payouts : List (UtxoOutputInfo K))
    (drawn : List (PreparedUnshielded K)) :
    offerOutputs (offer payouts drawn) = payouts ++ changeOf drawn := by
  unfold offer
  by_cases hempty : (drawn.flatMap PreparedUnshielded.inputs).isEmpty ∧
      (payouts ++ drawn.flatMap (fun draw => draw.change.toList)).isEmpty
  · simp only [hempty, and_self, if_true]
    exact (List.isEmpty_iff.mp hempty.2).symm
  · simp only [hempty, if_false]
    rfl

variable [LinearOrder K] (customTokenType : Bytes → Bytes → K) (contract : Bytes)

/-- What the ledger balances a token of a segment to: the mints, what the contract sends
and the inputs of the offer, less what the contract takes in and the outputs. -/
def ledgerBalance (transcript : Option (Transcript K)) (offer : Option (UnshieldedOfferInfo K))
    (token : K) : ℤ :=
  minted customTokenType contract transcript token + sent transcript token +
      totalOf token (inputAmounts (offerInputs offer)) -
    received transcript token - totalOf token (outputAmounts (offerOutputs offer))

/-- A segment's offer spends UTXOs of the tokens that the segment draws, pays its payouts
and its change, and leaves no token short and no drawn token over. -/
structure SegmentBalanced (transcript : Option (Transcript K))
    (offer : Option (UnshieldedOfferInfo K)) : Prop where
  rides : ∀ u ∈ offerInputs offer, 0 < drawnOf customTokenType contract transcript u.tokenType
  pays : ∃ change, offerOutputs offer = payoutsOf transcript ++ change ∧
    ∀ token, totalOf token (inputAmounts (offerInputs offer)) =
      drawnOf customTokenType contract transcript token + totalOf token (outputAmounts change)
  covered : ∀ token, 0 ≤ ledgerBalance customTokenType contract transcript offer token
  exact : ∀ token, 0 < drawnOf customTokenType contract transcript token →
    ledgerBalance customTokenType contract transcript offer token = 0

variable {customTokenType contract} {view : SpentUtxoKey → Option (UtxoSpend K)}

theorem drawnOf_pos_iff (transcript : Option (Transcript K)) (token : K) :
    0 < drawnOf customTokenType contract transcript token ↔
      token ∈ (depositsOf customTokenType transcript contract).map Prod.fst := by
  constructor
  · intro h
    by_contra hnot
    have hzero : drawnOf customTokenType contract transcript token = 0 :=
      totalOf_of_not_mem fun a ha => hnot (List.mem_map.mpr ⟨(token, a), ha, rfl⟩)
    omega
  · intro h
    obtain ⟨⟨token', owed⟩, hmem, rfl⟩ := List.mem_map.mp h
    rw [drawnOf, totalOf_of_mem (depositsOf_keys_nodup _ _ _) hmem]
    exact ((mem_depositsOf _ _ _ _ _).mp hmem).2

theorem segmentBalanced_offer {transcript : Option (Transcript K)}
    (hfits : Fits customTokenType contract transcript) {drawn : List (PreparedUnshielded K)}
    (hdrawn : List.Forall₂ (Drawn view) (depositsOf customTokenType transcript contract) drawn) :
    SegmentBalanced customTokenType contract transcript (offer (payoutsOf transcript) drawn) := by
  have hbalance : ∀ token, ledgerBalance customTokenType contract transcript
      (offer (payoutsOf transcript) drawn) token =
        minted customTokenType contract transcript token + sent transcript token +
          drawnOf customTokenType contract transcript token - received transcript token -
          paid transcript token := by
    intro token
    have hinputs := total_drawn token hdrawn
    have houtputs : totalOf token (outputAmounts (payoutsOf transcript ++ changeOf drawn)) =
        paid transcript token + totalOf token (outputAmounts (changeOf drawn)) := by
      rw [outputAmounts, List.map_append, totalOf_append]
      rfl
    rw [ledgerBalance, offerInputs_offer, offerOutputs_offer, houtputs, hinputs, drawnOf]
    omega
  refine ⟨fun u hu => ?_, ⟨changeOf drawn, offerOutputs_offer _ _, fun token => ?_⟩,
    fun token => ?_, fun token hpos => ?_⟩
  · rw [offerInputs_offer] at hu
    exact (drawnOf_pos_iff transcript u.tokenType).mpr (mem_drawn hdrawn hu).1
  · rw [offerInputs_offer]
    exact total_drawn token hdrawn
  · have heq := drawnOf_eq customTokenType contract transcript hfits token
    rw [hbalance]
    omega
  · have heq := drawnOf_eq customTokenType contract transcript hfits token
    rw [hbalance]
    omega

end Balance

section Offers

variable {K I : Type} [LinearOrder K] [ToString K] {customTokenType : Bytes → Bytes → K}
  {contract : Bytes} {view : SpentUtxoKey → Option (UtxoSpend K)} {h : WalletBuilds.Helpers}
  {P : Payer K I} {reserved : ℕ → List SpentUtxoKey} {guaranteed fallible : Option (Transcript K)}

/-- A token that both segments owe is refused. -/
theorem unshieldedOffers_both {token : K}
    (hg : 0 < drawnOf customTokenType contract guaranteed token)
    (hf : 0 < drawnOf customTokenType contract fallible token) :
    ∃ message, unshieldedOffers h P reserved customTokenType contract guaranteed fallible =
      .error (.construction message) := by
  obtain ⟨⟨_, g⟩, hmemG, rfl⟩ := List.mem_map.mp ((drawnOf_pos_iff guaranteed token).mp hg)
  obtain ⟨⟨_, f⟩, hmemF, rfl⟩ := List.mem_map.mp ((drawnOf_pos_iff fallible _).mp hf)
  unfold unshieldedOffers
  cases hfind : (depositsOf customTokenType guaranteed contract).find? (fun d =>
      (depositsOf customTokenType fallible contract).any (fun o => decide (o.1 = d.1))) with
  | some d =>
    simp only [hfind]
    exact ⟨_, rfl⟩
  | none =>
    refine absurd (List.any_eq_true.mpr ⟨_, hmemF, ?_⟩) (List.find?_eq_none.mp hfind _ hmemG)
    simp

theorem unshieldedOffers_ok (hP : P.Lawful view)
    {go fo : Option (UnshieldedOfferInfo K)}
    (hoffers : unshieldedOffers h P reserved customTokenType contract guaranteed fallible =
      .ok (go, fo)) :
    (∀ token, ¬ (0 < drawnOf customTokenType contract guaranteed token ∧
      0 < drawnOf customTokenType contract fallible token)) ∧
    ∃ drawnG drawnF,
      List.Forall₂ (Drawn view) (depositsOf customTokenType guaranteed contract) drawnG ∧
      List.Forall₂ (Drawn view) (depositsOf customTokenType fallible contract) drawnF ∧
      go = offer (payoutsOf guaranteed) drawnG ∧ fo = offer (payoutsOf fallible) drawnF := by
  constructor
  · intro token ⟨hg, hf⟩
    obtain ⟨message, hrefused⟩ : ∃ message,
        unshieldedOffers h P reserved customTokenType contract guaranteed fallible =
          .error (.construction message) := unshieldedOffers_both hg hf
    rw [hrefused] at hoffers
    cases hoffers
  · unfold unshieldedOffers at hoffers
    cases hfind : (depositsOf customTokenType guaranteed contract).find? (fun d =>
        (depositsOf customTokenType fallible contract).any (fun o => decide (o.1 = d.1))) with
    | some d =>
      simp only [hfind] at hoffers
      cases hoffers
    | none =>
      simp only [hfind] at hoffers
      obtain ⟨drawn, hdrawn, hoffers⟩ := exists_of_bind hoffers
      have hall := drawEach_drawn hP (mapError_ok hdrawn)
      have htake := List.forall₂_take (depositsOf customTokenType guaranteed contract).length hall
      have hdrop := List.forall₂_drop (depositsOf customTokenType guaranteed contract).length hall
      rw [List.take_left] at htake
      rw [List.drop_left] at hdrop
      rw [List.splitAt_eq] at hoffers
      cases hoffers
      exact ⟨_, _, htake, hdrop, rfl, rfl⟩

/-- What a call draws of its caller's unshielded value balances each segment. -/
theorem unshielded_deposits_balance (h : WalletBuilds.Helpers) (hP : P.Lawful view)
    (reserved : ℕ → List SpentUtxoKey) (hg : Fits customTokenType contract guaranteed)
    (hf : Fits customTokenType contract fallible) :
    (∀ transcript ∈ [guaranteed, fallible], ∀ token,
      (drawnOf customTokenType contract transcript token : ℤ) =
        max 0 (received transcript token + paid transcript token - sent transcript token -
          minted customTokenType contract transcript token)) ∧
    ((∃ token, 0 < drawnOf customTokenType contract guaranteed token ∧
        0 < drawnOf customTokenType contract fallible token) →
      ∃ message, unshieldedOffers h P reserved customTokenType contract guaranteed fallible =
        .error (.construction message)) ∧
    ∀ go fo, unshieldedOffers h P reserved customTokenType contract guaranteed fallible =
        .ok (go, fo) →
      SegmentBalanced customTokenType contract guaranteed go ∧
      SegmentBalanced customTokenType contract fallible fo ∧
      ∀ u ∈ offerInputs go, ∀ v ∈ offerInputs fo, u.spentKey ≠ v.spentKey := by
  refine ⟨?_, fun ⟨token, htokenG, htokenF⟩ => unshieldedOffers_both htokenG htokenF,
    fun go fo hoffers => ?_⟩
  · intro transcript htranscript
    rcases List.mem_pair.mp htranscript with rfl | rfl
    · exact drawnOf_eq customTokenType contract _ hg
    · exact drawnOf_eq customTokenType contract _ hf
  · obtain ⟨hdistinct, drawnG, drawnF, hdrawnG, hdrawnF, rfl, rfl⟩ :=
      unshieldedOffers_ok hP hoffers
    refine ⟨segmentBalanced_offer hg hdrawnG, segmentBalanced_offer hf hdrawnF,
      fun u hu v hv hkey => ?_⟩
    rw [offerInputs_offer] at hu hv
    obtain ⟨htokenU, hviewU⟩ := mem_drawn hdrawnG hu
    obtain ⟨htokenV, hviewV⟩ := mem_drawn hdrawnF hv
    rw [hkey, hviewV] at hviewU
    obtain rfl := Option.some.inj hviewU
    exact hdistinct v.tokenType ⟨(drawnOf_pos_iff guaranteed _).mpr htokenU,
      (drawnOf_pos_iff fallible _).mpr htokenV⟩

end Offers

section Plain

/-- A wallet that puts all it has of a token toward a draw. -/
def plainUtxos : List (UtxoSpend ℕ) := [⟨10, [1], 5, [1], 0⟩, ⟨4, [1], 7, [2], 1⟩]

def plainPayer : Payer ℕ (UtxoSpend ℕ) where
  utxosToCoverValue amount token :=
    let own := plainUtxos.filter (fun u => decide (u.tokenType = token))
    let held := (own.map UtxoSpend.value).sum
    if amount ≤ held then .ok (own, held - amount)
    else .error (.insufficientUnshielded [] amount held)
  build := id
  userAddress := [1]

def plainView (key : SpentUtxoKey) : Option (UtxoSpend ℕ) :=
  plainUtxos.find? (fun u => decide (u.spentKey = key))

theorem plainPayer_lawful : plainPayer.Lawful plainView := by
  intro amount token selected change hcover
  unfold plainPayer at hcover
  simp only at hcover
  split at hcover
  · cases hcover
    refine ⟨fun u hu => ?_, ?_⟩
    · obtain ⟨hmem, htoken⟩ := List.mem_filter.mp hu
      refine ⟨of_decide_eq_true htoken, ?_⟩
      have hall : ∀ u ∈ plainUtxos, plainView u.spentKey = some u := by decide
      exact hall u hmem
    · have hid : ∀ us : List (UtxoSpend ℕ), us.map plainPayer.build = us := List.map_id
      rw [hid]
      omega
  · cases hcover

def plainHelpers : WalletBuilds.Helpers := ⟨⟨0, 0⟩, fun _ => .ok (), fun _ => "", fun _ => ""⟩

/-- Takes in three of token 5. -/
def plainGuaranteed : Transcript ℕ := ⟨⟨[], [(.unshielded 5, 3)], [], []⟩⟩

/-- Pays a user six of token 7 out of a mint of two. -/
def plainFallible : Transcript ℕ := ⟨⟨[((.unshielded 7, .user [9]), 6)], [], [], [([0], 2)]⟩⟩

theorem totalOf_le {K : Type} [LinearOrder K] (token : K) (amounts : List (K × ℕ)) :
    totalOf token amounts ≤ (amounts.map Prod.snd).sum :=
  List.Sublist.sum_le_sum (List.filter_sublist.map _) (fun _ _ => Nat.zero_le _)

theorem plain_fits {transcript : Transcript ℕ}
    (hneed : ((unshieldedOf transcript.effects.unshieldedInputs).map Prod.snd).sum +
      ((outputAmounts (payoutsOf (some transcript))).map Prod.snd).sum ≤ u128Max)
    (hheld : ((unshieldedOf transcript.effects.unshieldedOutputs).map Prod.snd).sum +
      (transcript.effects.unshieldedMints.map Prod.snd).sum ≤ u128Max) :
    Fits (fun _ _ => 7) [3] (some transcript) := by
  intro token
  have hreceived : received (some transcript) token ≤ _ := totalOf_le token _
  have hpaid : paid (some transcript) token ≤ _ := totalOf_le token _
  have hsent : sent (some transcript) token ≤ _ := totalOf_le token _
  have hminted : minted (fun _ _ => 7) [3] (some transcript) token ≤ _ := totalOf_le token _
  rw [List.map_map] at hminted
  exact ⟨by omega, le_trans (Nat.add_le_add hsent hminted) hheld⟩

theorem unshielded_deposits_two_segments :
    ∃ go fo, unshieldedOffers plainHelpers plainPayer (fun _ => []) (fun _ _ => 7) [3]
        (some plainGuaranteed) (some plainFallible) = .ok (go, fo) ∧
      SegmentBalanced (fun _ _ => 7) [3] (some plainGuaranteed) go ∧
      SegmentBalanced (fun _ _ => 7) [3] (some plainFallible) fo := by
  have h := unshielded_deposits_balance plainHelpers plainPayer_lawful (fun _ => [])
    (@plain_fits plainGuaranteed (by decide) (by decide))
    (@plain_fits plainFallible (by decide) (by decide))
  obtain ⟨hG, hF, -⟩ := h.2.2 _ _ rfl
  exact ⟨_, _, rfl, hG, hF⟩

end Plain

end MidnightRs.UnshieldedDeposits
