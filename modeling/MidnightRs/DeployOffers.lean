import MidnightRs.ShieldedCalls

/-!
The shielded offer of a deploy. The deploy spends the coins that the wallet reserved
for it, pays its outputs from them, and gives the wallet the rest as change; an offer
whose outputs pay more of a token than its coins hold is refused.
-/
namespace MidnightRs.ShieldedCalls

open Results SortedMaps SortedMap
open UnshieldedDeposits (u128Max totalOf)
open Submission (ContractError)

section Offers

variable {K : Type}

/-- A payment to the holder of a pair of shielded keys. -/
structure ShieldedPayment (K : Type) where
  recipient : Bytes × Bytes
  tokenType : K
  value : ℕ
deriving DecidableEq, Repr

def ShieldedPayment.amount (payment : ShieldedPayment K) : K × ℕ :=
  (payment.tokenType, payment.value)

def ShieldedPayment.output (payment : ShieldedPayment K) : OutputInfo K :=
  ⟨payment.recipient, payment.tokenType, payment.value⟩

/-- What is due of a token, to the wallet's own keys. -/
def changeOutput (keys : Bytes × Bytes) (due : K × ℕ) : OutputInfo K := ⟨keys, due.1, due.2⟩

theorem amount_output (outputs : List (ShieldedPayment K)) :
    (outputs.map ShieldedPayment.output).map OutputInfo.amount =
      outputs.map ShieldedPayment.amount := by
  rw [List.map_map]
  rfl

theorem amount_changeOutput (keys : Bytes × Bytes) (due : List (K × ℕ)) :
    (due.map (changeOutput keys)).map OutputInfo.amount = due := by
  rw [List.map_map]
  exact List.map_id _

variable [LinearOrder K]

/-- Refuses the first token, in their order, of which more is paid than held.
`bytes` is a token as the error names it. -/
def refuseShortfall (bytes : K → Bytes) (held paid : SortedMap K ℕ) : Except ContractError Unit :=
  match paid.entries.find? (fun e => decide ((held.get? e.1).getD 0 < e.2)) with
  | some (tokenType, paid) =>
    .error (.shieldedOfferShortfall (bytes tokenType) ((held.get? tokenType).getD 0) paid)
  | none => .ok ()

/-- The guaranteed offer of the deploy, from the coins that the wallet spent into it.
`change` is the wallet's own keys. -/
def payOffer (bytes : K → Bytes) (prepared : List (PreparedInput K))
    (outputs : List (ShieldedPayment K)) (change : Bytes × Bytes) :
    Except ContractError (OfferInfo K) := do
  let heldValue ← totalByKey (prepared.map PreparedInput.amount)
  let paidValue ← totalByKey (outputs.map ShieldedPayment.amount)
  refuseShortfall bytes heldValue paidValue
  let due := changeDue heldValue paidValue empty
  pure ⟨prepared, (outputs.map ShieldedPayment.output ++
    due.map (changeOutput change)).map OfferOutput.change, []⟩

/-- What the coins hold of a token. -/
def heldOf (prepared : List (PreparedInput K)) (token : K) : ℕ :=
  totalOf token (prepared.map PreparedInput.amount)

/-- What the outputs pay of a token. -/
def paidOf (outputs : List (ShieldedPayment K)) (token : K) : ℕ :=
  totalOf token (outputs.map ShieldedPayment.amount)

end Offers

section Totals

variable {K : Type} [LinearOrder K]

theorem addValue_ok {totals totals' : SortedMap K ℕ} {e : K × ℕ}
    (h : addValue totals e = .ok totals') :
    (totals.get? e.1).getD 0 + e.2 ≤ u128Max ∧
      totals' = totals.modify e.1 (fun _ => (totals.get? e.1).getD 0 + e.2) := by
  unfold addValue at h
  simp only at h
  split at h
  · rename_i hle
    exact ⟨hle, (Except.ok.inj h).symm⟩
  · cases h

theorem foldlM_addValue_le {values : List (K × ℕ)} {totals totals' : SortedMap K ℕ}
    (h : values.foldlM addValue totals = .ok totals')
    (hle : ∀ key, (totals.get? key).getD 0 ≤ u128Max) (key : K) :
    (totals'.get? key).getD 0 ≤ u128Max := by
  induction values generalizing totals with
  | nil =>
    cases h
    exact hle key
  | cons e values ih =>
    rw [List.foldlM_cons] at h
    obtain ⟨next, hnext, hrest⟩ := exists_of_bind h
    obtain ⟨htotal, rfl⟩ := addValue_ok hnext
    refine ih hrest fun key' => ?_
    rw [get?_modify]
    split
    · exact htotal
    · exact hle key'

theorem foldlM_addValue_error {values : List (K × ℕ)} {totals : SortedMap K ℕ} {e : ContractError}
    (h : values.foldlM addValue totals = .error e) :
    e = .construction "shielded values overflow a u128 total" ∧
      ∃ key, u128Max < (totals.get? key).getD 0 + totalOf key values := by
  induction values generalizing totals with
  | nil => cases h
  | cons value values ih =>
    rw [List.foldlM_cons] at h
    cases hnext : addValue totals value with
    | error e' =>
      rw [hnext] at h
      unfold addValue at hnext
      simp only at hnext
      split at hnext
      · cases hnext
      · rename_i hover
        cases hnext
        cases h
        refine ⟨rfl, value.1, ?_⟩
        obtain ⟨key, amount⟩ := value
        rw [totalOf, amountsOf_cons_self, List.sum_cons]
        omega
    | ok next =>
      rw [hnext] at h
      obtain ⟨he, key, hkey⟩ := ih h
      obtain ⟨-, rfl⟩ := addValue_ok hnext
      refine ⟨he, key, ?_⟩
      obtain ⟨key', amount⟩ := value
      rw [get?_modify] at hkey
      by_cases heq : key = key'
      · subst heq
        rw [if_pos rfl, Option.getD_some] at hkey
        rw [totalOf, amountsOf_cons_self, List.sum_cons]
        exact Nat.lt_of_lt_of_eq hkey (Nat.add_assoc _ _ _)
      · rw [if_neg heq] at hkey
        rw [totalOf, amountsOf_cons_ne (Ne.symm heq)]
        exact hkey

/-- Totals are refused exactly when one of them is no `u128`. -/
theorem totalByKey_ok {values : List (K × ℕ)} {totals : SortedMap K ℕ}
    (h : totalByKey values = .ok totals) (key : K) : totalOf key values ≤ u128Max := by
  have hle := foldlM_addValue_le h (fun key => Nat.zero_le _) key
  rwa [totalByKey_get h key] at hle

theorem totalByKey_error {values : List (K × ℕ)} {e : ContractError}
    (h : totalByKey values = .error e) :
    e = .construction "shielded values overflow a u128 total" ∧
      ∃ key, u128Max < totalOf key values := by
  obtain ⟨he, key, hkey⟩ := foldlM_addValue_error h
  exact ⟨he, key, Nat.lt_of_lt_of_eq hkey (Nat.zero_add _)⟩

end Totals

section Settling

variable {K : Type} [LinearOrder K]

/-- The offer spends the coins and pays each output, and the wallet gets back what is
left, one coin a token, so that nothing is left over. -/
structure OfferSettles (prepared : List (PreparedInput K)) (outputs : List (ShieldedPayment K))
    (change : Bytes × Bytes) (offer : OfferInfo K) : Prop where
  spends : offer.inputs = prepared
  pays : ∃ due : List (OutputInfo K),
    offer.outputs = (outputs.map ShieldedPayment.output ++ due).map OfferOutput.change ∧
      (∀ output ∈ due, output.destination = change) ∧
      ∀ token, amountsOf token (due.map OutputInfo.amount) =
        if paidOf outputs token < heldOf prepared token then
          [heldOf prepared token - paidOf outputs token]
        else []
  balanced : ∀ token, offer.delta token = 0

theorem refuseShortfall_ok {bytes : K → Bytes} {held paid : SortedMap K ℕ}
    (h : refuseShortfall bytes held paid = .ok ()) (token : K) :
    (paid.get? token).getD 0 ≤ (held.get? token).getD 0 := by
  unfold refuseShortfall at h
  split at h
  · cases h
  · rename_i hnone
    cases hget : paid.get? token with
    | none => exact Nat.zero_le _
    | some value =>
      have hnot := List.find?_eq_none.mp hnone (token, value) ((mem_entries_iff _ _ _).mpr hget)
      simpa using hnot

/-- A refusal names the first token that falls short. -/
theorem refuseShortfall_error {bytes : K → Bytes} {held paid : SortedMap K ℕ} {e : ContractError}
    (h : refuseShortfall bytes held paid = .error e) : ∃ token,
      e = .shieldedOfferShortfall (bytes token) ((held.get? token).getD 0)
        ((paid.get? token).getD 0) ∧
      (held.get? token).getD 0 < (paid.get? token).getD 0 ∧
      ∀ token' < token, (paid.get? token').getD 0 ≤ (held.get? token').getD 0 := by
  unfold refuseShortfall at h
  split at h
  · rename_i token value hfind
    cases h
    obtain ⟨hlt, before, after, hentries, hbefore⟩ := List.find?_eq_some_iff_append.mp hfind
    have hget : paid.get? token = some value := by
      rw [← mem_entries_iff, hentries]
      exact List.mem_append_right _ List.mem_cons_self
    refine ⟨token, by rw [hget, Option.getD_some], ?_, fun token' hless => ?_⟩
    · rw [hget, Option.getD_some]
      exact of_decide_eq_true hlt
    · cases hget' : paid.get? token' with
      | none => exact Nat.zero_le _
      | some value' =>
        have hmem := (mem_entries_iff paid token' value').mpr hget'
        rw [hentries] at hmem
        rcases List.mem_append.mp hmem with hmem | hmem
        · simpa using hbefore _ hmem
        · have hsorted := paid.sorted
          rw [hentries, List.map_append, List.map_cons] at hsorted
          have hafter := (List.pairwise_cons.mp (List.pairwise_append.mp hsorted).2.1).1
          rcases List.mem_cons.mp hmem with heq | hmem
          · exact absurd (congrArg Prod.fst heq) (ne_of_lt hless)
          · exact absurd hless (lt_asymm (hafter token' (List.mem_map_of_mem hmem)))
  · cases h

theorem totalOf_of_amountsOf {token : K} {amounts : List (K × ℕ)} {held paid : ℕ}
    (hle : paid ≤ held)
    (h : amountsOf token amounts = if paid < held then [held - paid] else []) :
    totalOf token amounts = held - paid := by
  rw [totalOf, h]
  split
  · exact List.sum_singleton
  · rw [List.sum_nil]
    omega

theorem offerSettles {prepared : List (PreparedInput K)} {outputs : List (ShieldedPayment K)}
    {change : Bytes × Bytes} {held paid : SortedMap K ℕ}
    (hheld : totalByKey (prepared.map PreparedInput.amount) = .ok held)
    (hpaid : totalByKey (outputs.map ShieldedPayment.amount) = .ok paid)
    (hle : ∀ token, paidOf outputs token ≤ heldOf prepared token) :
    OfferSettles prepared outputs change ⟨prepared, (outputs.map ShieldedPayment.output ++
      (changeDue held paid empty).map (changeOutput change)).map OfferOutput.change, []⟩ := by
  have hdue : ∀ token, amountsOf token (changeDue held paid empty) =
      if paidOf outputs token < heldOf prepared token then
        [heldOf prepared token - paidOf outputs token]
      else [] := by
    intro token
    rw [amountsOf_changeDue]
    simp only [totalByKey_get hheld token, totalByKey_get hpaid token]
    rfl
  refine ⟨rfl, ⟨_, rfl, ?_, fun token => ?_⟩, fun token => ?_⟩
  · intro output houtput
    obtain ⟨e, -, rfl⟩ := List.mem_map.mp houtput
    rfl
  · rw [amount_changeOutput]
    exact hdue token
  · have houtputs : totalOf token (((outputs.map ShieldedPayment.output ++
        (changeDue held paid empty).map (changeOutput change)).map OfferOutput.change).map
          OfferOutput.amount) = paidOf outputs token + (heldOf prepared token -
            paidOf outputs token) := by
      rw [List.map_map]
      show totalOf token (List.map OutputInfo.amount _) = _
      rw [List.map_append, amount_output, amount_changeOutput, UnshieldedDeposits.totalOf_append,
        totalOf_of_amountsOf (hle token) (hdue token)]
      rfl
    rw [delta_eq, houtputs]
    have htoken := hle token
    show (heldOf prepared token : ℤ) - _ = 0
    omega

/-- The offer of a deploy settles, or it is refused, and exactly one of three things
is so: all totals are `u128`s and no token falls short; the totals are `u128`s and the
refusal names the first token that falls short, with what its coins hold and its
outputs pay; or a total is no `u128`. -/
theorem deploy_offer_settles (bytes : K → Bytes) (prepared : List (PreparedInput K))
    (outputs : List (ShieldedPayment K)) (change : Bytes × Bytes) :
    (∃ offer, payOffer bytes prepared outputs change = .ok offer ∧
      OfferSettles prepared outputs change offer ∧
      ∀ token, paidOf outputs token ≤ heldOf prepared token ∧ heldOf prepared token ≤ u128Max) ∨
    (∃ token, payOffer bytes prepared outputs change = .error (.shieldedOfferShortfall
        (bytes token) (heldOf prepared token) (paidOf outputs token)) ∧
      heldOf prepared token < paidOf outputs token ∧
      (∀ token' < token, paidOf outputs token' ≤ heldOf prepared token') ∧
      ∀ token, heldOf prepared token ≤ u128Max ∧ paidOf outputs token ≤ u128Max) ∨
    (payOffer bytes prepared outputs change =
        .error (.construction "shielded values overflow a u128 total") ∧
      ∃ token, u128Max < heldOf prepared token ∨ u128Max < paidOf outputs token) := by
  unfold payOffer
  cases hheld : totalByKey (prepared.map PreparedInput.amount) with
  | error e =>
    obtain ⟨rfl, token, htoken⟩ := totalByKey_error hheld
    exact Or.inr (Or.inr ⟨rfl, token, Or.inl htoken⟩)
  | ok held =>
    cases hpaid : totalByKey (outputs.map ShieldedPayment.amount) with
    | error e =>
      obtain ⟨rfl, token, htoken⟩ := totalByKey_error hpaid
      exact Or.inr (Or.inr ⟨rfl, token, Or.inr htoken⟩)
    | ok paid =>
      have hheldOf : ∀ token, (held.get? token).getD 0 = heldOf prepared token :=
        totalByKey_get hheld
      have hpaidOf : ∀ token, (paid.get? token).getD 0 = paidOf outputs token :=
        totalByKey_get hpaid
      cases hrefuse : refuseShortfall bytes held paid with
      | error e =>
        obtain ⟨token, rfl, hshort, hfirst⟩ := refuseShortfall_error hrefuse
        simp only [hheldOf, hpaidOf] at hshort hfirst ⊢
        exact Or.inr (Or.inl ⟨token, by
          rw [← hheldOf token, ← hpaidOf token]
          show (refuseShortfall bytes held paid >>= _) = _
          rw [hrefuse]
          rfl, hshort, hfirst, fun token' =>
            ⟨totalByKey_ok hheld token', totalByKey_ok hpaid token'⟩⟩)
      | ok u =>
        have hle : ∀ token, paidOf outputs token ≤ heldOf prepared token := by
          intro token
          rw [← hheldOf, ← hpaidOf]
          exact refuseShortfall_ok hrefuse token
        refine Or.inl ⟨_, ?_, offerSettles hheld hpaid hle, fun token =>
          ⟨hle token, totalByKey_ok hheld token⟩⟩
        show (refuseShortfall bytes held paid >>= _) = _
        rw [hrefuse]
        rfl

/-- Coins of ten that pay four give six back. -/
example : payOffer (fun token : ℕ => [UInt8.ofNat token]) [⟨5, 7, [1]⟩, ⟨5, 3, [2]⟩]
    [⟨([8], [9]), 5, 4⟩] ([1], [2]) =
      .ok ⟨[⟨5, 7, [1]⟩, ⟨5, 3, [2]⟩],
        [.change ⟨([8], [9]), 5, 4⟩, .change ⟨([1], [2]), 5, 6⟩], []⟩ := by
  decide

end Settling

end MidnightRs.ShieldedCalls
