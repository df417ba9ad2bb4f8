import MidnightRs.MaintenanceBatches
import Mathlib.Data.Finset.Option

/-!
The committee that governs a contract. It is checked before it goes on chain, and
the signatures of an update are checked against it before the update is paid for.
Each signature stands at an index of its own, and the members have keys of their
own, so a quorum of signatures is a quorum of keys.
-/
namespace MidnightRs.Committees

open MaintenanceBatches Results Submission

section Model

variable {K S : Type}

/-- The position of a member in the committee, as a signature names it. -/
abbrev Index := Fin (2 ^ 32)

def setMaintenanceAuthority (state : ContractState K) (committee : List K) (threshold : ℕ) :
    ContractState K :=
  { state with maintenanceAuthority := ⟨committee.map .schnorr, threshold, 0⟩ }

variable (verify : K → Bytes → S → Bool)

/-- The pass over the signatures, with the indices seen so far. -/
def checkEach (data : Bytes) (committee : List K) :
    Finset Index → List (Index × S) → Except ContractError (Finset Index)
  | seen, [] => .ok seen
  | seen, (idx, sig) :: rest =>
    match committee[idx.val]? with
    | none => .error (.maintenance
        s!"signature index {idx} is outside the committee (size {committee.length})")
    | some vk =>
      if idx ∈ seen then
        .error (.maintenance s!"duplicate signature for committee index {idx}")
      else if verify vk data sig = false then
        .error (.maintenance s!"signature for committee index {idx} does not verify")
      else checkEach data committee (insert idx seen) rest

def validateSignatures (data : Bytes) (signatures : List (Index × S)) (committee : List K)
    (threshold : ℕ) : Except ContractError Unit :=
  match checkEach verify data committee ∅ signatures with
  | .error e => .error e
  | .ok seen =>
    -- The count is cut to 32 bits before it is compared.
    if seen.card % 2 ^ 32 < threshold then
      .error (.maintenance
        s!"not enough valid signatures: have {seen.card}, authority threshold is {threshold}")
    else .ok ()

/-- An update with the signatures collected for it, and the authority of its
preparation. -/
structure PreparedMaintenance (K S : Type) where
  update : MaintenanceUpdate K
  signatures : List (Index × S)
  committee : List K
  requiredThreshold : ℕ

def prepare [DecidableEq K] (G : Generation K) (S : Type) (view : ContractState K)
    (bytes address : Bytes) (specs : List (OpSpec K)) :
    Except ContractError (PreparedMaintenance K S) := do
  let (update, committee, threshold) ← prepareInner G view bytes address specs
  pure ⟨update, [], committee, threshold⟩

def PreparedMaintenance.addSignature (p : PreparedMaintenance K S) (committeeIndex : Index)
    (signature : S) : PreparedMaintenance K S :=
  { p with signatures := p.signatures ++ [(committeeIndex, signature)] }

/-- The bytes that the members sign are a function of the update, its counter
included. -/
def PreparedMaintenance.checkSignatures (dataToSign : MaintenanceUpdate K → Bytes)
    (p : PreparedMaintenance K S) : Except ContractError Unit :=
  validateSignatures verify (dataToSign p.update) p.signatures p.committee p.requiredThreshold

end Model

section Quorums

variable {K S : Type} {verify : K → Bytes → S → Bool} {data : Bytes} {committee : List K}
  {threshold counter : ℕ} {signatures : List (Index × S)}

/-- The signature verifies under the key of the committee at its index. -/
def VerifiesAt (verify : K → Bytes → S → Bool) (data : Bytes) (committee : List K)
    (s : Index × S) : Prop :=
  ∃ vk, committee[s.1.val]? = some vk ∧ verify vk data s.2 = true

/-- Enough signatures, each at an index of its own, and each of them good. -/
structure Quorate (verify : K → Bytes → S → Bool) (data : Bytes) (committee : List K)
    (threshold : ℕ) (signatures : List (Index × S)) : Prop where
  distinct : (signatures.map Prod.fst).Nodup
  verifies : ∀ s ∈ signatures, VerifiesAt verify data committee s
  enough : threshold ≤ signatures.length

theorem validateCommittee_ok_iff [DecidableEq K] : validateCommittee committee threshold = .ok () ↔
    committee ≠ [] ∧ 0 < threshold ∧ threshold ≤ committee.length ∧ committee.Nodup := by
  unfold validateCommittee
  by_cases hempty : committee = []
  · simp [hempty]
  by_cases hzero : threshold = 0
  · simp [hempty, hzero]
  by_cases hlarge : committee.length < threshold
  · have hnot : ¬ threshold ≤ committee.length := by omega
    simp [hempty, hzero, hlarge, hnot]
  have hpos : 0 < threshold := by omega
  have hle : threshold ≤ committee.length := by omega
  by_cases hnodup : committee.Nodup
  · simp [hempty, hzero, hlarge, hnodup, hpos, hle]
  · simp [hempty, hzero, hlarge, hnodup]

/-- The pass ends well exactly on good signatures at new indices. -/
theorem checkEach_ok_iff {seen seen' : Finset Index} :
    checkEach verify data committee seen signatures = .ok seen' ↔
      ((signatures.map Prod.fst).Nodup ∧ (∀ s ∈ signatures, s.1 ∉ seen) ∧
        ∀ s ∈ signatures, VerifiesAt verify data committee s) ∧
      seen' = seen ∪ (signatures.map Prod.fst).toFinset := by
  induction signatures generalizing seen with
  | nil => simp [checkEach, eq_comm]
  | cons s rest ih =>
    obtain ⟨idx, sig⟩ := s
    unfold checkEach
    cases hvk : committee[idx.val]? with
    | none => simp [VerifiesAt, hvk]
    | some vk =>
      by_cases hseen : idx ∈ seen
      · simp [hseen]
      by_cases hverify : verify vk data sig = true
      · have hnew : (∀ s ∈ rest, s.1 ∉ insert idx seen) ↔
            idx ∉ rest.map Prod.fst ∧ ∀ s ∈ rest, s.1 ∉ seen := by
          simp only [Finset.mem_insert, not_or, List.mem_map, not_exists, not_and]
          constructor
          · intro h
            exact ⟨fun s hs heq => (h s hs).1 heq, fun s hs => (h s hs).2⟩
          · rintro ⟨hne, hold⟩ s hs
            exact ⟨hne s hs, hold s hs⟩
        have hhead : VerifiesAt verify data committee (idx, sig) := ⟨vk, hvk, hverify⟩
        have hunion : insert idx seen ∪ (rest.map Prod.fst).toFinset =
            seen ∪ (((idx, sig) :: rest).map Prod.fst).toFinset := by
          rw [List.map_cons, List.toFinset_cons, Finset.insert_union, Finset.union_insert]
        simp only [if_neg hseen, hverify, Bool.true_eq_false, if_false]
        rw [ih, hnew, hunion]
        simp only [List.map_cons, List.nodup_cons, List.forall_mem_cons, hseen, not_false_eq_true,
          hhead, true_and]
        tauto
      · have hbad : ¬ VerifiesAt verify data committee (idx, sig) := by
          rintro ⟨vk', hvk', hgood⟩
          rw [hvk] at hvk'
          cases hvk'
          exact hverify hgood
        simp [hseen, hverify, hbad]

theorem validateSignatures_ok_iff :
    validateSignatures verify data signatures committee threshold = .ok () ↔
      (signatures.map Prod.fst).Nodup ∧ (∀ s ∈ signatures, VerifiesAt verify data committee s) ∧
        threshold ≤ signatures.length % 2 ^ 32 := by
  unfold validateSignatures
  cases hpass : checkEach verify data committee ∅ signatures with
  | error e =>
    refine ⟨fun h => (by cases h), ?_⟩
    rintro ⟨hdistinct, hverifies, -⟩
    have hnew : ∀ s ∈ signatures, s.1 ∉ (∅ : Finset Index) := by simp
    have hok := checkEach_ok_iff.mpr ⟨⟨hdistinct, hnew, hverifies⟩, rfl⟩
    rw [hpass] at hok
    cases hok
  | ok seen =>
    obtain ⟨⟨hdistinct, -, hverifies⟩, rfl⟩ := checkEach_ok_iff.mp hpass
    have hcard : (∅ ∪ (signatures.map Prod.fst).toFinset : Finset Index).card =
        signatures.length := by
      rw [Finset.empty_union, List.toFinset_card_of_nodup hdistinct, List.length_map]
    simp only [hcard]
    by_cases hshort : signatures.length % 2 ^ 32 < threshold
    · rw [if_pos hshort]
      refine ⟨fun h => (by cases h), ?_⟩
      rintro ⟨-, -, henough⟩
      omega
    · rw [if_neg hshort]
      exact ⟨fun _ => ⟨hdistinct, hverifies, by omega⟩, fun _ => rfl⟩

theorem Quorate.of_accepted
    (h : validateSignatures verify data signatures committee threshold = .ok ()) :
    Quorate verify data committee threshold signatures := by
  obtain ⟨hdistinct, hverifies, henough⟩ := validateSignatures_ok_iff.mp h
  exact ⟨hdistinct, hverifies, henough.trans (Nat.mod_le _ _)⟩

/-- Below a whole 2^32 signatures the count is not cut. -/
theorem Quorate.accepted (h : Quorate verify data committee threshold signatures)
    (hcount : signatures.length < 2 ^ 32) :
    validateSignatures verify data signatures committee threshold = .ok () := by
  refine validateSignatures_ok_iff.mpr ⟨h.distinct, h.verifies, ?_⟩
  rw [Nat.mod_eq_of_lt hcount]
  exact h.enough

/-- A quorum of signatures is one of keys: indices of their own name keys of their own. -/
theorem Quorate.signers [DecidableEq K] (h : Quorate verify data committee threshold signatures)
    (hcommittee : committee.Nodup) :
    ∃ signers : Finset K, threshold ≤ signers.card ∧
      ∀ vk ∈ signers, vk ∈ committee ∧ ∃ s ∈ signatures, verify vk data s.2 = true := by
  let indices : Finset Index := (signatures.map Prod.fst).toFinset
  have hmem : ∀ i ∈ indices, ∃ s ∈ signatures, s.1 = i := by
    intro i hi
    obtain ⟨s, hs, heq⟩ := List.mem_map.mp (List.mem_toFinset.mp hi)
    exact ⟨s, hs, heq⟩
  have hinj : Set.InjOn (fun i : Index => committee[i.val]?) indices := by
    intro i hi j hj heq
    obtain ⟨s, hs, rfl⟩ := hmem i hi
    obtain ⟨vk, hvk, -⟩ := h.verifies s hs
    have hlt := (List.getElem?_eq_some_iff.mp hvk).1
    exact Fin.ext ((List.getElem?_inj hlt hcommittee).mp heq)
  have hcard : threshold ≤ (indices.image (fun i : Index => committee[i.val]?)).card := by
    rw [Finset.card_image_of_injOn hinj, List.toFinset_card_of_nodup h.distinct, List.length_map]
    exact h.enough
  refine ⟨Finset.eraseNone (indices.image (fun i : Index => committee[i.val]?)), ?_, ?_⟩
  · have hnone : none ∉ indices.image (fun i : Index => committee[i.val]?) := by
      intro hin
      obtain ⟨i, hi, heq⟩ := Finset.mem_image.mp hin
      obtain ⟨s, hs, rfl⟩ := hmem i hi
      obtain ⟨vk, hvk, -⟩ := h.verifies s hs
      rw [hvk] at heq
      cases heq
    rw [← Finset.card_map Function.Embedding.some, Finset.map_some_eraseNone,
      Finset.erase_eq_of_notMem hnone]
    exact hcard
  · intro vk hin
    obtain ⟨i, hi, heq⟩ := Finset.mem_image.mp (Finset.mem_eraseNone.mp hin)
    obtain ⟨s, hs, rfl⟩ := hmem i hi
    obtain ⟨vk', hvk, hgood⟩ := h.verifies s hs
    have hsame : vk' = vk := Option.some.inj (hvk.symm.trans heq)
    rw [hsame] at hgood
    exact ⟨List.mem_of_getElem? heq, s, hs, hgood⟩

/-- Reordering the signatures changes nothing. -/
theorem accepted_perm {signatures' : List (Index × S)} (hperm : signatures'.Perm signatures) :
    validateSignatures verify data signatures' committee threshold = .ok () ↔
      validateSignatures verify data signatures committee threshold = .ok () := by
  rw [validateSignatures_ok_iff, validateSignatures_ok_iff, (hperm.map Prod.fst).nodup_iff,
    hperm.length_eq]
  simp only [hperm.mem_iff]

/-- Whether one of the collected signatures shows that the key signed the update. -/
def Signed (verify : K → Bytes → S → Bool) (dataToSign : MaintenanceUpdate K → Bytes)
    (p : PreparedMaintenance K S) (vk : K) : Prop :=
  ∃ s ∈ p.signatures, verify vk (dataToSign p.update) s.2 = true

theorem schnorrCommittee_map (committee : List K) :
    schnorrCommittee (committee.map .schnorr) = .ok committee := by
  induction committee with
  | nil => rfl
  | cons vk committee ih =>
    simp only [List.map_cons, schnorrCommittee, ih]
    rfl

/-- An update of a contract is prepared against the authority on chain. -/
theorem prepare_authority [DecidableEq K] {G : Generation K} {view : ContractState K}
    {bytes address : Bytes} {specs : List (OpSpec K)} {p : PreparedMaintenance K S}
    (hauthority : view.maintenanceAuthority = ⟨committee.map .schnorr, threshold, counter⟩)
    (h : prepare G S view bytes address specs = .ok p) :
    p.committee = committee ∧ p.requiredThreshold = threshold ∧ p.update.counter = counter := by
  obtain ⟨⟨update, keys, required⟩, hinner, hp⟩ := exists_of_bind h
  cases hp
  unfold prepareInner at hinner
  by_cases hspecs : specs = []
  · rw [if_pos hspecs] at hinner
    cases hinner
  rw [if_neg hspecs, hauthority] at hinner
  obtain ⟨keys', hkeys, hinner⟩ := exists_of_bind hinner
  rw [schnorrCommittee_map] at hkeys
  cases hkeys
  obtain ⟨_, -, hinner⟩ := exists_of_bind hinner
  obtain ⟨replaces, -, hinner⟩ := exists_of_bind hinner
  by_cases hmany : 1 < replaces
  · rw [if_pos hmany] at hinner
    cases hinner
  rw [if_neg hmany] at hinner
  obtain ⟨update', hupdate, hinner⟩ := exists_of_bind hinner
  cases hinner
  refine ⟨rfl, rfl, ?_⟩
  unfold prepareUpdate at hupdate
  obtain ⟨native, -, hupdate⟩ := exists_of_bind hupdate
  obtain ⟨singles, -, hupdate⟩ := exists_of_bind hupdate
  cases hupdate
  rfl

/-- A committee that a deploy accepted enforces its threshold, on every update of
the contract and whatever signatures are collected for it. -/
theorem threshold_enforced [DecidableEq K] (verify : K → Bytes → S → Bool)
    (dataToSign : MaintenanceUpdate K → Bytes) {committee : List K} {threshold : ℕ}
    (h : validateCommittee committee threshold = .ok ()) :
    0 < threshold ∧
    (∀ (G : Generation K) state bytes address specs (p : PreparedMaintenance K S),
      prepare G S (setMaintenanceAuthority state committee threshold) bytes address specs = .ok p →
        p.committee = committee ∧ p.requiredThreshold = threshold ∧ p.update.counter = 0) ∧
    ∀ p : PreparedMaintenance K S, p.committee = committee → p.requiredThreshold = threshold →
      (p.checkSignatures verify dataToSign = .ok () →
        Quorate verify (dataToSign p.update) committee threshold p.signatures) ∧
      (Quorate verify (dataToSign p.update) committee threshold p.signatures →
        p.signatures.length < 2 ^ 32 → p.checkSignatures verify dataToSign = .ok ()) ∧
      (p.checkSignatures verify dataToSign = .ok () → ∃ signers : Finset K,
        threshold ≤ signers.card ∧
          ∀ vk ∈ signers, vk ∈ committee ∧ Signed verify dataToSign p vk) ∧
      (∀ signatures, signatures.Perm p.signatures →
        ({ p with signatures }.checkSignatures verify dataToSign = .ok () ↔
          p.checkSignatures verify dataToSign = .ok ())) ∧
      ∀ s ∈ p.signatures, ∀ signature,
        (p.addSignature s.1 signature).checkSignatures verify dataToSign ≠ .ok () := by
  obtain ⟨-, hpos, -, hnodup⟩ := validateCommittee_ok_iff.mp h
  refine ⟨hpos, ?_, ?_⟩
  · intro G state bytes address specs p hprepared
    exact prepare_authority rfl hprepared
  · rintro p rfl rfl
    refine ⟨Quorate.of_accepted, Quorate.accepted, ?_, ?_, ?_⟩
    · intro haccepted
      exact (Quorate.of_accepted haccepted).signers hnodup
    · intro signatures hperm
      exact accepted_perm hperm
    · intro s hs signature haccepted
      have hdistinct := (Quorate.of_accepted haccepted).distinct
      simp only [PreparedMaintenance.addSignature, List.map_append, List.map_cons, List.map_nil]
        at hdistinct
      exact (List.nodup_append.mp hdistinct).2.2 s.1 (List.mem_map_of_mem hs) s.1
        List.mem_cons_self rfl

end Quorums

section Toy

/-- A signature is the key that made it. -/
def bySigner (vk : ℕ) (_ : Bytes) (signature : ℕ) : Bool := decide (vk = signature)

def toSign (update : MaintenanceUpdate ℕ) : Bytes := [UInt8.ofNat update.counter]

/-- The signatures name enough members, and each of them is good. -/
def NamesEnough (data : Bytes) (committee : List ℕ) (threshold : ℕ)
    (signatures : List (Index × ℕ)) : Prop :=
  (∃ indices : Finset Index, threshold ≤ indices.card ∧
    ∀ i ∈ indices, i.val < committee.length ∧ i ∈ signatures.map Prod.fst) ∧
  ∀ s ∈ signatures, VerifiesAt bySigner data committee s

/-- Two of two members signed, and one of the signatures is there twice. -/
theorem repeated_signature_refused :
    validateCommittee [10, 11] 2 = .ok () ∧
      NamesEnough [] [10, 11] 2 [(0, 10), (1, 11), (0, 10)] ∧
      validateSignatures bySigner [] [(0, 10), (1, 11), (0, 10)] [10, 11] 2 =
        .error (.maintenance "duplicate signature for committee index 0") := by
  refine ⟨rfl, ⟨⟨{0, 1}, by decide, ?_⟩, ?_⟩, rfl⟩
  · intro i hi
    rcases Finset.mem_insert.mp hi with rfl | hi
    · exact ⟨Nat.zero_lt_two, List.mem_cons_self⟩
    · rw [Finset.mem_singleton.mp hi]
      exact ⟨Nat.one_lt_two, List.mem_cons_of_mem _ List.mem_cons_self⟩
  · intro s hs
    simp only [List.mem_cons, List.not_mem_nil, or_false] at hs
    rcases hs with rfl | rfl | rfl
    · exact ⟨10, rfl, rfl⟩
    · exact ⟨11, rfl, rfl⟩
    · exact ⟨10, rfl, rfl⟩

def bothSigned : PreparedMaintenance ℕ ℕ := ⟨⟨[], [], 7⟩, [(1, 11), (0, 10)], [10, 11], 2⟩

theorem threshold_enforced_both :
    bothSigned.checkSignatures bySigner toSign = .ok () ∧
      ∃ signers : Finset ℕ, 2 ≤ signers.card ∧
        ∀ vk ∈ signers, vk ∈ [10, 11] ∧ Signed bySigner toSign bothSigned vk := by
  have hcommittee : validateCommittee [10, 11] 2 = .ok () := rfl
  have h := (threshold_enforced bySigner toSign hcommittee).2.2 bothSigned rfl rfl
  have haccepted : bothSigned.checkSignatures bySigner toSign = .ok () := by decide
  exact ⟨haccepted, h.2.2.1 haccepted⟩

end Toy

end MidnightRs.Committees
