import MidnightRs.Congruences

/-!
The outputs of an execution and the declared types. The prover reads the result of a
circuit and the answers of the witnesses at their declared types, where the
interpreter writes an answer without a type and leaves out a void result. A second
run, which writes both at their types, gives what the prover reads; the two agree on
every run whose answers and result look the same either way.
-/
namespace MidnightRs.Circuits

open MidnightRs.Compact Triples Pairs

section Untyped

variable (c : Codecs)

/-- The type writes the flat value as it is. -/
def takesFlat : Ty → AlignedValue → Bool
  | .boolean, av => decide (av = ofBool true ∨ av = ofBool false)
  | .unsigned maxval, av =>
    match av.value with
    | [a] => decide (av.alignment = [.atom (.bytes (asU32 (uintByteWidth maxval)))] ∧
        trim a = a ∧ a.length ≤ u128Bytes ∧ a.length ≤ asU32 (uintByteWidth maxval) ∧
        ofLeBytes a ≤ maxval)
    | _ => false
  | .field f, av =>
    match ForeignField.of f with
    | none => true
    | some foreign => decide ((c.field foreign).reencode av.value = some av.value ∧
        av.alignment = foreign.alignment)
  | .point .jubjub, _ => true
  | .point curve, av => decide ((c.point curve).reencode av.value = some av.value ∧
      av.alignment = curve.alignment)
  | .bytes length, av => decide (av.alignment = [.atom (.bytes (asU32 length))])
  | .aliasOf _ _ ty, av => takesFlat ty av
  | .adt _, _ => false
  | .typeVar _, _ => false
  | .unknown, _ => false
  | _, _ => true

mutual

/-- The value is written at the type as it is written without one: flat values that
the type writes as they are, booleans, integers of a bound of 8 bytes or, from
2^64 on, of 16, void at the empty tuple, and sequences of such values. -/
def untyped : Ty → Value → Bool
  | .boolean, .bool _ => true
  | .unsigned maxval, .integer n => decide (n ≤ maxval ∧ n < u128Bound ∧
      asU32 (uintByteWidth maxval) = if n < 2 ^ 64 then 8 else 16)
  | .tuple types, .void => types.isEmpty
  | .tuple types, .tuple vals => untypedEach types vals
  | .vector len ty, .tuple vals => decide (vals.length = len) && vals.all (fun v => untyped ty v)
  | .struct _ fields, .tuple vals => untypedFields fields vals
  | .aliasOf _ _ ty, v => untyped ty v
  | .contract _, .tuple [.alignedValue av] => takesFlat c (.bytes 32) av
  | ty, .alignedValue av => takesFlat c ty av
  | _, _ => false

def untypedEach : List Ty → List Value → Bool
  | [], [] => true
  | ty :: types, v :: vals => untyped ty v && untypedEach types vals
  | _, _ => false

def untypedFields : List (String × Ty) → List Value → Bool
  | [], [] => true
  | (_, ty) :: fields, v :: vals => untyped ty v && untypedFields fields vals
  | _, _ => false

end

theorem single_eq_iff {av : AlignedValue} {a : Atom} {alignment : AlignmentAtom} :
    av = .single a alignment ↔ av.value = [a] ∧ av.alignment = [.atom alignment] := by
  cases av
  simp [AlignedValue.single]

/-- A trimmed atom of at most 16 bytes spells its number. -/
theorem trim_ofLeBytes {a : Atom} (h : a.length ≤ u128Bytes) :
    trim (toLeBytes u128Bytes (ofLeBytes a)) = trim a := by
  have hlt : ofLeBytes a < 256 ^ u128Bytes :=
    Nat.lt_of_lt_of_le (ofLeBytes_lt a) (Nat.pow_le_pow_right (by decide) h)
  exact trim_eq_of_ofLeBytes_eq _ _ (ofLeBytes_toLeBytes u128Bytes _ hlt)

theorem encodeUnsigned_flat_self_iff (maxval : ℕ) (av : AlignedValue) :
    encodeUnsigned maxval (.alignedValue av) = .ok av ↔ takesFlat c (.unsigned maxval) av = true := by
  cases hvalue : av.value with
  | nil => simp [encodeUnsigned, takesFlat, valueToU128, alignedAtomToU128, hvalue]
  | cons a atoms =>
    by_cases hlen : a.length ≤ u128Bytes
    · have hnumber : valueToU128 (.alignedValue av) = some (ofLeBytes a) := by
        simp only [valueToU128, alignedAtomToU128, hvalue, hlen, if_true]
      have hbound : ofLeBytes a < u128Bound :=
        Nat.lt_of_lt_of_le (ofLeBytes_lt a) (Nat.pow_le_pow_right (by decide) hlen)
      have hrange : (∃ m, checkUintRange (ofLeBytes a) maxval = .ok m) ↔ ofLeBytes a ≤ maxval := by
        unfold checkUintRange
        dsimp only
        by_cases hmax : maxval < u128Bound
        · rw [if_pos hmax]
          split <;> simp <;> omega
        · rw [if_neg hmax, if_neg (by omega)]
          simp only [Except.ok.injEq, exists_eq', true_iff]
          omega
      have hencode : encodeUnsigned maxval (.alignedValue av) = .ok av ↔
          ofLeBytes a ≤ maxval ∧ (trim a).length ≤ asU32 (uintByteWidth maxval) ∧
          av = .single (trim a) (.bytes (asU32 (uintByteWidth maxval))) := by
        rw [← hrange]
        simp only [encodeUnsigned, hnumber, bytesAlignedValue, trim_ofLeBytes hlen]
        cases checkUintRange (ofLeBytes a) maxval with
        | error e => simp
        | ok m =>
          by_cases hfits : (trim a).length ≤ asU32 (uintByteWidth maxval)
          · simp [hfits, eq_comm]
          · simp [hfits]
      rw [hencode, single_eq_iff, hvalue]
      cases atoms with
      | nil =>
        simp only [takesFlat, hvalue, List.cons.injEq, and_true, decide_eq_true_eq]
        constructor
        · rintro ⟨hle, hfits, ha, halign⟩
          exact ⟨halign, ha.symm, hlen, ha ▸ hfits, hle⟩
        · rintro ⟨halign, ha, -, hfits, hle⟩
          exact ⟨hle, ha.symm ▸ hfits, ha.symm, halign⟩
      | cons b atoms => simp [takesFlat, hvalue]
    · have hnone : valueToU128 (.alignedValue av) = none := by
        simp only [valueToU128, alignedAtomToU128, hvalue, hlen, if_false]
      refine iff_of_false (by simp [encodeUnsigned, hnone]) ?_
      cases atoms with
      | nil => simp [takesFlat, hvalue, hlen]
      | cons b atoms => simp [takesFlat, hvalue]

theorem encodeBoolean_flat_self_iff (av : AlignedValue) :
    encodeBoolean (.alignedValue av) = .ok av ↔ takesFlat c .boolean av = true := by
  simp only [takesFlat, decide_eq_true_eq]
  constructor
  · intro h
    simp only [encodeBoolean] at h
    split at h
    · rename_i n _
      cases hn : decide (n ≠ 0) with
      | true => exact .inl ((Except.ok.inj h).symm.trans (congrArg ofBool hn))
      | false => exact .inr ((Except.ok.inj h).symm.trans (congrArg ofBool hn))
    · cases h
  · rintro (rfl | rfl)
    · exact encodeBoolean_ofBool true
    · exact encodeBoolean_ofBool false

theorem encodeAs_flat_self_iff {segments : List AlignmentSegment} (codec : Codec segments)
    (name : String) (av : AlignedValue) : encodeAs codec name (.alignedValue av) = .ok av ↔
      codec.reencode av.value = some av.value ∧ av.alignment = segments := by
  cases av with
  | mk value segments' =>
    simp only [encodeAs]
    cases codec.reencode value with
    | none => simp
    | some atoms => simp [eq_comm]

/-- A flat value is its own encoding exactly where the type takes it. -/
theorem encodeTyped_flat_self_iff (ty : Ty) (av : AlignedValue) :
    encodeTyped c (.alignedValue av) ty = .ok av ↔ takesFlat c ty av = true := by
  induction ty using Ty.induct with
  | scalar ty hty =>
    cases ty with
    | boolean => exact encodeBoolean_flat_self_iff c av
    | unsigned maxval => exact encodeUnsigned_flat_self_iff c maxval av
    | field f =>
      simp only [encodeTyped, encodeField, takesFlat]
      cases ForeignField.of f with
      | none => simp
      | some foreign =>
        simp only [decide_eq_true_eq]
        exact encodeAs_flat_self_iff _ _ av
    | point curve =>
      cases curve with
      | jubjub => simp [encodeTyped, encodeOpaque, takesFlat]
      | _ =>
        simp only [encodeTyped, takesFlat, decide_eq_true_eq]
        exact encodeAs_flat_self_iff _ _ av
    | bytes length =>
      cases av
      simp [encodeTyped, encodeBytes, takesFlat, eq_comm]
    | opaqueData name => simp [encodeTyped, encodeOpaque, takesFlat]
    | enum name variants => simp [encodeTyped, encodeEnum, takesFlat]
    | contract name => simp [encodeTyped, structParts, encodeParts, takesFlat]
    | adt name => simp [encodeTyped, takesFlat]
    | typeVar name => simp [encodeTyped, takesFlat]
    | unknown => simp [encodeTyped, takesFlat]
    | vector => exact hty.elim
    | tuple => exact hty.elim
    | struct => exact hty.elim
    | aliasOf => exact hty.elim
  | vector len ty ih => simp [encodeTyped, vectorParts, encodeParts, takesFlat]
  | tuple types ih => simp [encodeTyped, tupleParts, encodeParts, takesFlat]
  | struct name fields ih => simp [encodeTyped, structParts, encodeParts, takesFlat]
  | aliasOf nominal name ty ih =>
    simp only [encodeTyped, takesFlat]
    exact ih

/-- The untyped bytes of an integer fit the width that they are given. -/
theorem length_trim_fallback {n : ℕ} (hn : n < u128Bound) :
    (trim (toLeBytes u128Bytes n)).length ≤ if n < 2 ^ 64 then 8 else 16 := by
  by_cases hsmall : n < 2 ^ 64
  · rw [if_pos hsmall, trim_toLeBytes_eq u128Bytes 8 n hn hsmall]
    exact (length_trim_le _).trans_eq (length_toLeBytes 8 n)
  · rw [if_neg hsmall]
    exact (length_trim_le _).trans_eq (length_toLeBytes u128Bytes n)

/-- Within its bound, an integer is the number of its bytes at the type's width. -/
theorem encodeUnsigned_integer {maxval n : ℕ} (hle : n ≤ maxval) (hn : n < u128Bound) :
    encodeUnsigned maxval (.integer n) =
      bytesAlignedValue (toLeBytes u128Bytes n) (uintByteWidth maxval) := by
  have hmax : ¬ (if maxval < u128Bound then maxval else u128Bound - 1) < n := by
    split <;> omega
  simp only [encodeUnsigned, valueToU128, checkUintRange, hmax, if_false]

theorem integerFallback_typed_iff {maxval n : ℕ} (hle : n ≤ maxval) (hn : n < u128Bound) :
    encodeUnsigned maxval (.integer n) = .ok (integerFallbackAligned n) ↔
      asU32 (uintByteWidth maxval) = if n < 2 ^ 64 then 8 else 16 := by
  rw [encodeUnsigned_integer hle hn, bytesAlignedValue]
  constructor
  · intro h
    split at h
    · simpa [AlignedValue.single, integerFallbackAligned] using h
    · cases h
  · intro h
    rw [h, if_pos (length_trim_fallback hn)]
    rfl

theorem untyped_flat (ty : Ty) (av : AlignedValue) :
    untyped c ty (.alignedValue av) = takesFlat c ty av := by
  induction ty using Ty.induct with
  | scalar ty hty =>
    cases ty with
    | vector => exact hty.elim
    | tuple => exact hty.elim
    | struct => exact hty.elim
    | aliasOf => exact hty.elim
    | _ => rfl
  | vector len ty ih => rfl
  | tuple types ih => rfl
  | struct name fields ih => rfl
  | aliasOf nominal name ty ih =>
    simp only [untyped, takesFlat]
    exact ih

theorem untypedFields_eq (fields : List (String × Ty)) (vals : List Value) :
    untypedFields c fields vals = untypedEach c (fields.map Prod.snd) vals := by
  induction fields generalizing vals with
  | nil => cases vals <;> rfl
  | cons field fields ih =>
    cases vals with
    | nil => rfl
    | cons v vals => simp only [untypedFields, List.map_cons, untypedEach, ih]

theorem untypedEach_replicate (ty : Ty) (len : ℕ) (vals : List Value) :
    untypedEach c (List.replicate len ty) vals =
      (decide (vals.length = len) && vals.all (fun v => untyped c ty v)) := by
  induction vals generalizing len with
  | nil => cases len <;> simp [untypedEach, List.replicate_succ]
  | cons v vals ih =>
    cases len with
    | zero => simp [untypedEach]
    | succ len =>
      simp only [List.replicate_succ, untypedEach, ih, List.length_cons, List.all_cons,
        Nat.add_right_cancel_iff]
      rw [Bool.and_left_comm]

/-- The value is written at the type as it is without one. -/
def Alike (ty : Ty) (v : Value) : Prop :=
  ∃ av, tryToAlignedValue v = .ok av ∧ encodeTyped c v ty = .ok av

theorem alike_each (types : List Ty) (hall : ∀ ty ∈ types, ∀ v, untyped c ty v = true → Alike c ty v)
    (vals : List Value) (h : untypedEach c types vals = true) :
    vals.length = types.length ∧
      ∃ parts, tryToAlignedValues vals = .ok parts ∧ encodeTuple c vals types = .ok parts := by
  induction types generalizing vals with
  | nil =>
    cases vals with
    | nil => exact ⟨rfl, [], rfl, rfl⟩
    | cons v vals => cases h
  | cons ty types ih =>
    cases vals with
    | nil => cases h
    | cons v vals =>
      obtain ⟨hty, htypes⟩ := List.forall_mem_cons.mp hall
      obtain ⟨hv, hvals⟩ := Bool.and_eq_true_iff.mp h
      obtain ⟨av, huntyped, htyped⟩ := hty v hv
      obtain ⟨hlen, parts, hplain, hencoded⟩ := ih htypes vals hvals
      refine ⟨congrArg Nat.succ hlen, av :: parts, ?_, ?_⟩
      · simp only [tryToAlignedValues, huntyped, hplain, Except.bind, Except.map]
      · simp only [encodeTuple, htyped, hencoded, Except.map]

theorem alike_parts {ty : Ty} {types : List Ty} (hty : ty.components = some types)
    (hall : ∀ ty ∈ types, ∀ v, untyped c ty v = true → Alike c ty v) {vals : List Value}
    (hparts : vals.length = types.length → partsOf ty (.tuple vals) = .ok (.each vals))
    (h : untypedEach c types vals = true) : Alike c ty (.tuple vals) := by
  obtain ⟨hlen, parts, hplain, hencoded⟩ := alike_each c types hall vals h
  refine ⟨.concat parts, ?_, (encodeTyped_each c hty (hparts hlen) _).mpr ⟨parts, hencoded, rfl⟩⟩
  simp only [tryToAlignedValue, hplain, Except.map]

/-- A value that looks the same with and without its type. -/
theorem alike_of_untyped (ty : Ty) : ∀ v, untyped c ty v = true → Alike c ty v := by
  have hflat : ∀ {ty : Ty} {av : AlignedValue}, untyped c ty (.alignedValue av) = true →
      Alike c ty (.alignedValue av) := by
    intro ty av h
    rw [untyped_flat] at h
    exact ⟨av, rfl, (encodeTyped_flat_self_iff c ty av).mpr h⟩
  induction ty using Ty.induct with
  | scalar ty hty =>
    intro v h
    cases v with
    | alignedValue av => exact hflat h
    | bool b =>
      cases ty with
      | boolean => exact ⟨ofBool b, rfl, rfl⟩
      | _ => first | exact hty.elim | cases h
    | integer n =>
      cases ty with
      | unsigned maxval =>
        obtain ⟨hle, hn, hwidth⟩ := of_decide_eq_true h
        exact ⟨integerFallbackAligned n, rfl, (integerFallback_typed_iff hle hn).mpr hwidth⟩
      | _ => first | exact hty.elim | cases h
    | tuple vals =>
      cases ty with
      | contract name =>
        obtain ⟨av, rfl⟩ : ∃ av, vals = [.alignedValue av] := by
          unfold untyped at h
          split at h <;> simp_all
        have hbytes := (encodeTyped_flat_self_iff c (.bytes 32) av).mpr h
        refine ⟨.concat [av], rfl, ?_⟩
        simp only [encodeTyped] at hbytes
        simp only [encodeTyped, structParts, List.length_singleton, if_true, encodeParts,
          encodeVector, hbytes, Except.mapError, Except.map]
      | _ => first | exact hty.elim | cases h
    | struct fields => cases ty <;> first | exact hty.elim | cases h
    | void => cases ty <;> first | exact hty.elim | cases h
  | vector len ty ih =>
    intro v h
    cases v with
    | alignedValue av => exact hflat h
    | tuple vals =>
      have heach : untypedEach c (List.replicate len ty) vals = true := by
        rw [untypedEach_replicate]
        exact h
      refine alike_parts c rfl (fun ty' hty' => List.eq_of_mem_replicate hty' ▸ ih) (fun hlen => ?_)
        heach
      rw [List.length_replicate] at hlen
      simp only [partsOf, vectorParts, hlen, if_true]
    | _ => cases h
  | tuple types ih =>
    intro v h
    cases v with
    | alignedValue av => exact hflat h
    | void =>
      obtain rfl := List.isEmpty_iff.mp h
      exact ⟨.unit, rfl, rfl⟩
    | tuple vals =>
      refine alike_parts c rfl ih (fun hlen => ?_) h
      simp only [partsOf, tupleParts, hlen, if_true]
    | _ => cases h
  | struct name fields ih =>
    intro v h
    cases v with
    | alignedValue av => exact hflat h
    | tuple vals =>
      have heach : untypedEach c (fields.map Prod.snd) vals = true := by
        rw [← untypedFields_eq]
        exact h
      refine alike_parts c rfl (List.forall_mem_map.mpr ih) (fun hlen => ?_) heach
      rw [List.length_map] at hlen
      simp only [partsOf, structParts, hlen, if_true]
    | _ => cases h
  | aliasOf nominal name ty ih =>
    intro v h
    obtain ⟨av, hplain, htyped⟩ := ih v (by simpa only [untyped] using h)
    exact ⟨av, hplain, by simpa only [encodeTyped] using htyped⟩

/-- One flat value has no more atoms than another, and is the same under a condition. -/
structure Within (got want : AlignedValue) (same : Prop) : Prop where
  value : got.value.length ≤ want.value.length
  alignment : got.alignment.length ≤ want.alignment.length
  eq_iff : got = want ↔ same

theorem within_of_ne {got want : AlignedValue} {same : Prop}
    (hvalue : got.value.length ≤ want.value.length)
    (halignment : got.alignment.length ≤ want.alignment.length)
    (hne : got.alignment ≠ want.alignment) (hsame : ¬ same) : Within got want same :=
  ⟨hvalue, halignment, iff_of_false (fun h => hne (congrArg _ h)) hsame⟩

theorem Within.cons {got want : AlignedValue} {gots wants : List AlignedValue} {p q : Prop}
    (h : Within got want p) (hrest : Within (.concat gots) (.concat wants) q) :
    Within (.concat (got :: gots)) (.concat (want :: wants)) (p ∧ q) := by
  have hcons : ∀ (av : AlignedValue) (avs : List AlignedValue), AlignedValue.concat (av :: avs) =
      ⟨av.value ++ (AlignedValue.concat avs).value,
        av.alignment ++ (AlignedValue.concat avs).alignment⟩ := fun _ _ => rfl
  rw [hcons, hcons]
  refine ⟨?_, ?_, ?_⟩
  · simpa only [List.length_append] using Nat.add_le_add h.value hrest.value
  · simpa only [List.length_append] using Nat.add_le_add h.alignment hrest.alignment
  · rw [← h.eq_iff, ← hrest.eq_iff]
    constructor
    · intro heq
      obtain ⟨hvalue, halignment⟩ := AlignedValue.mk.inj heq
      -- Neither side can make up for atoms that the other one lacks.
      have hvalueLength := congrArg List.length hvalue
      have halignmentLength := congrArg List.length halignment
      simp only [List.length_append] at hvalueLength halignmentLength
      have hv := h.value
      have hv' := hrest.value
      have ha := h.alignment
      have ha' := hrest.alignment
      obtain ⟨hvalue, hvalues⟩ := List.append_inj hvalue (by omega)
      obtain ⟨halignment, halignments⟩ := List.append_inj halignment (by omega)
      exact ⟨by cases got; cases want; simp_all, by
        cases hgots : AlignedValue.concat gots
        cases hwants : AlignedValue.concat wants
        simp_all⟩
    · rintro ⟨rfl, heq⟩
      rw [heq]

/-- The encoding at a type, next to what the value gives without one. -/
def Contrasted (ty : Ty) (v : Value) : Prop :=
  ∃ want, encodeTyped c v ty = .ok want ∧
    ((∃ e, tryToAlignedValue v = .error e) ∧ untyped c ty v = false ∨
      ∃ got, tryToAlignedValue v = .ok got ∧ Within got want (untyped c ty v = true))

theorem contrasted_each (types : List Ty) (vals : List Value) (hlen : vals.length = types.length)
    (h : ∀ p ∈ types.zip vals, Contrasted c p.1 p.2) :
    ∃ wants, encodeTuple c vals types = .ok wants ∧
      ((∃ e, tryToAlignedValues vals = .error e) ∧ untypedEach c types vals = false ∨
        ∃ gots, tryToAlignedValues vals = .ok gots ∧
          Within (.concat gots) (.concat wants) (untypedEach c types vals = true)) := by
  induction types generalizing vals with
  | nil =>
    obtain rfl := List.length_eq_zero_iff.mp hlen
    exact ⟨[], rfl, .inr ⟨[], rfl, Nat.le_refl _, Nat.le_refl _, iff_of_true rfl rfl⟩⟩
  | cons ty types ih =>
    cases vals with
    | nil => cases hlen
    | cons v vals =>
      obtain ⟨want, hwant, hgot⟩ := h (ty, v) List.mem_cons_self
      obtain ⟨wants, hwants, hgots⟩ := ih vals (Nat.succ.inj hlen)
        (fun p hp => h p (List.mem_cons_of_mem _ hp))
      refine ⟨want :: wants, ?_, ?_⟩
      · simp only at hwant
        simp only [encodeTuple, hwant, hwants, Except.map]
      · simp only [tryToAlignedValues, untypedEach, Bool.and_eq_true, Bool.and_eq_false_iff]
        rcases hgot with ⟨⟨e, he⟩, hfalse⟩ | ⟨got, hgot, hwithin⟩
        · simp only at he
          exact .inl ⟨⟨e, by rw [he]; rfl⟩, .inl hfalse⟩
        · simp only at hgot
          rw [hgot]
          rcases hgots with ⟨⟨e, he⟩, hfalse⟩ | ⟨gots, hgots, hrest⟩
          · exact .inl ⟨⟨e, by rw [he]; rfl⟩, .inr hfalse⟩
          · exact .inr ⟨got :: gots, by rw [hgots]; rfl, hwithin.cons hrest⟩

theorem contrasted_parts {ty : Ty} {types : List Ty} (hty : ty.components = some types)
    {vals : List Value} (hlen : vals.length = types.length)
    (hparts : partsOf ty (.tuple vals) = .ok (.each vals))
    (huntyped : untyped c ty (.tuple vals) = untypedEach c types vals)
    (h : ∀ p ∈ types.zip vals, Contrasted c p.1 p.2) : Contrasted c ty (.tuple vals) := by
  obtain ⟨wants, hwants, hgots⟩ := contrasted_each c types vals hlen h
  refine ⟨.concat wants, (encodeTyped_each c hty hparts _).mpr ⟨wants, hwants, rfl⟩, ?_⟩
  rw [huntyped, tryToAlignedValue]
  rcases hgots with ⟨⟨e, he⟩, hfalse⟩ | ⟨gots, hgots, hwithin⟩
  · exact .inl ⟨⟨e, by rw [he]; rfl⟩, hfalse⟩
  · exact .inr ⟨.concat gots, by rw [hgots]; rfl, hwithin⟩

theorem untyped_contract (name : String) (v : Value) :
    untyped c (.contract name) v = untyped c .contractAddress v := by
  cases v with
  | tuple vals =>
    match vals with
    | [] => rfl
    | [w] => cases w <;> simp [untyped, untypedFields, Ty.contractAddress]
    | _ :: _ :: _ => simp [untyped, untypedFields, Ty.contractAddress]
  | _ => rfl

theorem contrasted_of_wellFormed {ty : Ty} {v : Value} (h : WellFormed c Holds ty v) :
    Contrasted c ty v := by
  have hnumber : ∀ {n : ℕ} {want : AlignedValue} {same : Prop}, want.value.length = 1 →
      want.alignment.length = 1 → want.alignment ≠ [.atom (.bytes 8)] →
      want.alignment ≠ [.atom (.bytes 16)] → ¬ same → Within (integerFallbackAligned n) want same := by
    intro n want same hvalue halignment h8 h16 hsame
    refine within_of_ne hvalue.ge halignment.ge (fun heq => ?_) hsame
    simp only [integerFallbackAligned, AlignedValue.single] at heq
    split at heq
    · exact h8 heq.symm
    · exact h16 heq.symm
  induction h with
  | flat ty av hflat =>
    have hencoded := encodeTyped_flat c ty av hflat
    refine ⟨av, hencoded, .inr ⟨av, rfl, Nat.le_refl _, Nat.le_refl _, iff_of_true rfl ?_⟩⟩
    rw [untyped_flat]
    exact (encodeTyped_flat_self_iff c ty av).mp hencoded
  | bool b =>
    exact ⟨ofBool b, rfl, .inr ⟨ofBool b, rfl, Nat.le_refl _, Nat.le_refl _, iff_of_true rfl rfl⟩⟩
  | boolInteger n hle =>
    exact ⟨_, rfl, .inr ⟨_, rfl, hnumber rfl rfl (by simp [ofBool, AlignedValue.single])
      (by simp [ofBool, AlignedValue.single]) (by simp [untyped])⟩⟩
  | integer maxval n hle hn hheld =>
    refine ⟨_, encodeUnsigned_eq maxval n _ rfl hle hheld,
      .inr ⟨_, rfl, Nat.le_refl _, Nat.le_refl _, ?_⟩⟩
    have hiff := integerFallback_typed_iff hle hn
    rw [encodeUnsigned_eq maxval n _ rfl hle hheld, Except.ok.injEq, eq_comm] at hiff
    simpa [untyped, hle, hn] using hiff
  | fieldInteger f hf n hn =>
    refine ⟨ofFr n, by simp [encodeTyped, encodeField, hf], .inr ⟨_, rfl, ?_⟩⟩
    exact hnumber rfl rfl (by simp [ofFr, AlignedValue.single])
      (by simp [ofFr, AlignedValue.single]) (by simp [untyped])
  | bytesVoid length =>
    refine ⟨_, bytesAlignedValue_nil length, .inr ⟨.unit, rfl, ?_⟩⟩
    exact within_of_ne (Nat.zero_le _) (Nat.zero_le _) (by simp [AlignedValue.unit,
      AlignedValue.single]) (by simp [untyped])
  | opaqueVoid name hpoint hscalar =>
    refine ⟨emptyOpaque, rfl, .inr ⟨.unit, rfl, ?_⟩⟩
    exact within_of_ne (Nat.zero_le _) (Nat.zero_le _) (by simp [AlignedValue.unit, emptyOpaque,
      AlignedValue.single]) (by simp [untyped])
  | enumInteger name variants n hlt hheld =>
    have hbyte : n < 256 := hheld
    refine ⟨ofU8 n, by simp [encodeTyped, encodeEnum, hbyte], .inr ⟨_, rfl, ?_⟩⟩
    exact hnumber rfl rfl (by simp [ofU8, AlignedValue.single])
      (by simp [ofU8, AlignedValue.single]) (by simp [untyped])
  | unit =>
    exact ⟨.unit, rfl, .inr ⟨.unit, rfl, Nat.le_refl _, Nat.le_refl _, iff_of_true rfl rfl⟩⟩
  | tuple types vals hlen _ ih =>
    refine contrasted_parts c rfl hlen ?_ (by simp only [untyped]) ih
    simp only [partsOf, tupleParts, hlen, if_true]
  | vector len ty vals hlen _ ih =>
    refine contrasted_parts c rfl (hlen.trans List.length_replicate.symm) ?_ ?_ (fun p hp => ?_)
    · simp only [partsOf, vectorParts, hlen, if_true]
    · rw [untypedEach_replicate, untyped]
    · obtain ⟨hty, hmem⟩ := mem_zip_replicate hp
      rw [hty]
      exact ih p.2 hmem
  | struct name fields supplied val hlen hnames hval each ih =>
    obtain ⟨want, hwant, -⟩ := encodeTyped_wellFormed c _ _
      (.struct name fields supplied val hlen hnames hval each)
    exact ⟨want, hwant, .inl ⟨⟨_, rfl⟩, by simp [untyped]⟩⟩
  | structTuple name fields vals hlen _ ih =>
    refine contrasted_parts c rfl (hlen.trans (List.length_map _).symm) ?_ ?_ ih
    · simp only [partsOf, structParts, hlen, if_true]
    · rw [← untypedFields_eq, untyped]
  | aliasOf nominal name ty v _ ih =>
    obtain ⟨want, hwant, hgot⟩ := ih
    refine ⟨want, by simpa only [encodeTyped] using hwant, ?_⟩
    simpa only [untyped] using hgot
  | contract name v _ ih =>
    obtain ⟨want, hwant, hgot⟩ := ih
    refine ⟨want, (encodeTyped_contract c v name).trans hwant, ?_⟩
    rw [untyped_contract]
    exact hgot

/-- A value that its type takes is written alike exactly if it is one of those. -/
theorem untyped_iff {ty : Ty} {v : Value} (h : WellFormed c Holds ty v) :
    (∀ av, tryToAlignedValue v = .ok av ↔ encodeTyped c v ty = .ok av) ↔ untyped c ty v = true := by
  constructor
  · intro halike
    obtain ⟨want, hwant, ⟨⟨e, he⟩, -⟩ | ⟨got, hgot, hwithin⟩⟩ := contrasted_of_wellFormed c h
    · rw [(halike want).mpr hwant] at he
      cases he
    · rw [(halike want).mpr hwant, Except.ok.injEq] at hgot
      exact hwithin.eq_iff.mp hgot.symm
  · intro huntyped av
    obtain ⟨av', hplain, htyped⟩ := alike_of_untyped c ty v huntyped
    rw [hplain, htyped]

end Untyped

section Outputs

variable (c : Codecs)

def isVoid : Value → Bool
  | .void => true
  | _ => false

/-- Unit and the empty aggregates. -/
def hasNoAtoms (ty : Ty) : Bool := decide (atomCountForType ty = some 0)

/-- The outputs that the interpreter binds. -/
def valueOutputs (v : Value) (ty : Ty) : Result (List AlignedValue) :=
  if isVoid v then .ok [] else (encodeTyped c v ty).map (fun av => [av])

/-- The outputs that the type asks for. -/
def typedOutputs (v : Value) (ty : Ty) : Result (List AlignedValue) :=
  if hasNoAtoms ty then .ok [] else (encodeTyped c v ty).map (fun av => [av])

theorem encoded_ne_nil (v : Value) (ty : Ty) :
    (encodeTyped c v ty).map (fun av => [av]) ≠ .ok [] := by
  cases encodeTyped c v ty <;> simp [Except.map]

/-- A result is bound as its type asks exactly if it is void where the type has no
atoms, and nowhere else. -/
theorem outputs_iff (v : Value) (ty : Ty) :
    (∀ outputs, valueOutputs c v ty = .ok outputs ↔ typedOutputs c v ty = .ok outputs) ↔
      isVoid v = hasNoAtoms ty := by
  unfold valueOutputs typedOutputs
  cases isVoid v with
  | true =>
    cases hasNoAtoms ty with
    | true => simp
    | false => exact iff_of_false (fun h => encoded_ne_nil c v ty ((h []).mp rfl)) (by simp)
  | false =>
    cases hasNoAtoms ty with
    | true => exact iff_of_false (fun h => encoded_ne_nil c v ty ((h []).mpr rfl)) (by simp)
    | false => simp

end Outputs

section Answers

variable (c : Codecs) {vm : Vm} (program : Program) (env : Env vm)

/-- The two natives that move coins have no answer to record. -/
def recordsAnswer (name : String) : Bool :=
  decide (name ≠ "createZswapOutput" ∧ name ≠ "createZswapInput")

def ownKey : Exec vm Value :=
  match env.coinPublicKey with
  | none => fail (.witness "ownPublicKey needs the coin public key of the caller")
  | some key => pure (.alignedValue (.single (trim key) (.bytes 32)))

def providerAnswer (name : String) (values : List Value) : Exec vm Value := do
  let ctx ← get
  let (answer, privateState) ← result
    ((env.callWitness ctx.privateState name values).mapError .ofProvider)
  modify (fun ctx => { ctx with privateState := privateState })
  match answer with
  | none => fail (.witness s!"no witness provider for: {name}")
  | some v => pure v

def witnessAnswer (name : String) (values : List Value) : Exec vm Value :=
  if name = "ownPublicKey" then ownKey env else providerAnswer env name values

/-- An entry of the private transcript for each answer. -/
def record (encode : Value → Result AlignedValue) (v : Value) : Exec vm Value := do
  let av ← result (encode v)
  modify (fun ctx => { ctx with
    privateTranscriptOutputs := ctx.privateTranscriptOutputs ++ [av] })
  pure v

theorem evalWitnessCall_eq (id : Ident) (values : List Value)
    (h : recordsAnswer (program.runtimeName id) = true) :
    evalWitnessCall program env id values =
      witnessAnswer env (program.runtimeName id) values >>= record tryToAlignedValue := by
  obtain ⟨houtput, hinput⟩ := of_decide_eq_true h
  unfold evalWitnessCall witnessAnswer
  dsimp only
  split
  · rename_i heq
    exact absurd heq houtput
  · rename_i heq
    exact absurd heq hinput
  · rename_i heq
    rw [if_pos heq]
    unfold ownKey
    cases env.coinPublicKey <;> rfl
  · rename_i hkey
    rw [if_neg hkey]
    unfold providerAnswer
    simp only [bind_assoc]
    refine congrArg _ (funext fun ctx => congrArg _ (funext fun answer => ?_))
    refine congrArg _ (funext fun _ => ?_)
    cases answer.1 <;> rfl

/-- The reference: each answer is recorded at the declared type of its witness. -/
def typedWitnessCall (id : Ident) (values : List Value) : Exec vm Value :=
  if recordsAnswer (program.runtimeName id) then
    match program.resultType id with
    | some ty => witnessAnswer env (program.runtimeName id) values >>=
        record (fun v => encodeTyped c v ty)
    | none => evalWitnessCall program env id values
  else evalWitnessCall program env id values

/-- The interpreter's own way, up to the first answer that looks different at the
declared type. -/
def heldWitnessCall (id : Ident) (values : List Value) : Exec vm Value :=
  if recordsAnswer (program.runtimeName id) then
    match program.resultType id with
    | some ty => witnessAnswer env (program.runtimeName id) values >>= (fun v =>
        if untyped c ty v then record tryToAlignedValue v else stop .outOfFuel)
    | none => evalWitnessCall program env id values
  else evalWitnessCall program env id values

theorem held_approximates (id : Ident) (values : List Value) :
    Approximates Halt.outOfFuel (heldWitnessCall c program env id values)
      (evalWitnessCall program env id values) := by
  unfold heldWitnessCall
  split
  · rename_i hrecords
    split
    · rw [evalWitnessCall_eq program env id values hrecords]
      refine approximates_congruence.seq (approximates_refl _) (fun v => ?_)
      split
      · exact approximates_refl _
      · exact fun _ => .inl rfl
    · exact approximates_refl _
  · exact approximates_refl _

theorem held_approximates_typed (id : Ident) (values : List Value) :
    Approximates Halt.outOfFuel (heldWitnessCall c program env id values)
      (typedWitnessCall c program env id values) := by
  unfold heldWitnessCall typedWitnessCall
  split
  · split
    · rename_i ty _
      refine approximates_congruence.seq (approximates_refl _) (fun v => ?_)
      split
      · rename_i huntyped
        obtain ⟨av, hplain, htyped⟩ := alike_of_untyped c ty v huntyped
        have hsame : (record tryToAlignedValue v : Exec vm Value) =
            record (fun v => encodeTyped c v ty) v := by
          unfold record
          dsimp only
          rw [hplain, htyped]
        rw [hsame]
        exact approximates_refl _
      · exact fun _ => .inl rfl
    · exact approximates_refl _
  · exact approximates_refl _

end Answers

section Executions

variable {c : Codecs} (crypto : Crypto c) {vm : Vm} (program : Program) (env : Env vm)

/-- A circuit's run with the witness answers and the outputs as given. -/
def runCircuitWith (answer : Ident → List Value → Exec vm Value)
    (outputs : Value → Ty → Exec vm (List AlignedValue)) (fuel : ℕ) (circuit : Circuit)
    (args : List (String × Value)) : Exec vm (Value × List AlignedValue) := do
  bindArguments args circuit.arguments
  checkTypeAtRun circuit.resultType
  let v ← evalExprWith crypto program env answer fuel circuit.body
  let out ← outputs v circuit.resultType
  pure (v, out)

def executeWith (answer : Ident → List Value → Exec vm Value)
    (outputs : Value → Ty → Exec vm (List AlignedValue)) (fuel : ℕ) (circuit : Circuit)
    (state : vm.State) (privateState : Bytes) (args : List (String × Value)) :
    Except Halt (ExecutionResult vm) :=
  match (runCircuitWith crypto program env answer outputs fuel circuit args).run
      (initialContext state privateState) with
  | .error halt => .error halt
  | .ok ((v, out), ctx) => .ok { context := ctx, result := v, communicationOutputs := out }

/-- The reference: answers and results at their declared types. -/
def typedExecute (fuel : ℕ) (circuit : Circuit) (state : vm.State) (privateState : Bytes)
    (args : List (String × Value)) : Except Halt (ExecutionResult vm) :=
  executeWith crypto program env (typedWitnessCall c program env)
    (fun v ty => result (typedOutputs c v ty)) fuel circuit state privateState args

/-- The execution, up to the first answer or a result that looks different at its
declared type. -/
def heldExecute (fuel : ℕ) (circuit : Circuit) (state : vm.State) (privateState : Bytes)
    (args : List (String × Value)) : Except Halt (ExecutionResult vm) :=
  executeWith crypto program env (heldWitnessCall c program env)
    (fun v ty => if isVoid v = hasNoAtoms ty then result (valueOutputs c v ty)
      else stop .outOfFuel) fuel circuit state privateState args

theorem executeWith_eq (fuel : ℕ) (circuit : Circuit) (state : vm.State) (privateState : Bytes)
    (args : List (String × Value)) :
    executeWith crypto program env (evalWitnessCall program env)
      (fun v ty => result (valueOutputs c v ty)) fuel circuit state privateState args =
        execute crypto program env fuel circuit state privateState args := by
  have hrun : runCircuitWith crypto program env (evalWitnessCall program env)
      (fun v ty => result (valueOutputs c v ty)) fuel circuit args =
        runCircuit crypto program env fuel circuit args := by
    unfold runCircuitWith runCircuit
    rw [evalExprWith_eq]
    refine congrArg _ (funext fun _ => congrArg _ (funext fun _ => congrArg _ (funext fun v => ?_)))
    cases v with
    | void => rfl
    | _ =>
      simp only [valueOutputs, isVoid]
      cases encodeTyped c _ circuit.resultType <;> rfl
  unfold executeWith execute
  cases hout : (runCircuit crypto program env fuel circuit args).run
      (initialContext state privateState) with
  | error halt => simp only [hrun, hout]
  | ok r => simp only [hrun, hout]

theorem executeWith_outcome {answer answer' : Ident → List Value → Exec vm Value}
    {outputs outputs' : Value → Ty → Exec vm (List AlignedValue)}
    (hanswer : ∀ id values, Approximates Halt.outOfFuel (answer id values) (answer' id values))
    (houtputs : ∀ v ty, Approximates Halt.outOfFuel (outputs v ty) (outputs' v ty)) {fuel : ℕ}
    {circuit : Circuit} {state : vm.State} {privateState : Bytes} {args : List (String × Value)}
    {outcome : Except Halt (ExecutionResult vm)}
    (h : executeWith crypto program env answer outputs fuel circuit state privateState args = outcome)
    (hends : outcome ≠ .error .outOfFuel) :
    executeWith crypto program env answer' outputs' fuel circuit state privateState args =
      outcome := by
  have happrox : Approximates Halt.outOfFuel
      (runCircuitWith crypto program env answer outputs fuel circuit args)
      (runCircuitWith crypto program env answer' outputs' fuel circuit args) := by
    refine approximates_congruence.seq (approximates_refl _) (fun _ => ?_)
    refine approximates_congruence.seq (approximates_refl _) (fun _ => ?_)
    refine approximates_congruence.seq
      (approximates_evalExprWith program env crypto hanswer fuel _) (fun v => ?_)
    exact approximates_congruence.seq (houtputs v _) (fun _ => approximates_refl _)
  unfold executeWith at h ⊢
  rcases happrox (initialContext state privateState) with hbottom | hsame
  · rw [hbottom] at h
    exact absurd h.symm hends
  · rw [hsame]
    exact h

/-- A run whose answers and result look the same either way ends as its reference
does. Answers and results that their types take look the same exactly under the two
conditions that such a run meets. -/
theorem transcripts_typed (fuel : ℕ) (circuit : Circuit) (state : vm.State) (privateState : Bytes)
    (args : List (String × Value)) :
    (heldExecute crypto program env fuel circuit state privateState args ≠ .error .outOfFuel →
      execute crypto program env fuel circuit state privateState args =
        typedExecute crypto program env fuel circuit state privateState args) ∧
    (∀ ty v, WellFormed c Holds ty v →
      ((∀ av, tryToAlignedValue v = .ok av ↔ encodeTyped c v ty = .ok av) ↔
        untyped c ty v = true)) ∧
    ∀ v ty, (∀ outputs, valueOutputs c v ty = .ok outputs ↔ typedOutputs c v ty = .ok outputs) ↔
      isVoid v = hasNoAtoms ty := by
  refine ⟨fun hends => ?_, fun ty v h => untyped_iff c h, fun v ty => outputs_iff c v ty⟩
  have houtputs : ∀ (outputs : Value → Ty → Result (List AlignedValue)),
      (∀ v ty, isVoid v = hasNoAtoms ty → valueOutputs c v ty = outputs v ty) →
      ∀ v ty, Approximates Halt.outOfFuel (if isVoid v = hasNoAtoms ty then
          result (valueOutputs c v ty) else stop .outOfFuel : Exec vm (List AlignedValue))
        (result (outputs v ty)) := by
    intro outputs hsame v ty
    split
    · rename_i h
      rw [hsame v ty h]
      exact approximates_refl _
    · exact fun _ => .inl rfl
  have hactual := executeWith_outcome crypto program env (held_approximates c program env)
    (houtputs (valueOutputs c) (fun _ _ _ => rfl)) rfl hends
  have htyped := executeWith_outcome crypto program env (held_approximates_typed c program env)
    (houtputs (typedOutputs c) (fun v ty h => by unfold valueOutputs typedOutputs; rw [h])) rfl hends
  rw [executeWith_eq] at hactual
  exact hactual.trans htyped.symm

end Executions

section Samples

/-- A provider that gives one answer. -/
def answering (v : Value) : Env plainVm :=
  { plainEnv with callWitness := fun privateState _ _ => .ok (some v, privateState) }

def counterProgram (ty : Ty) : Program :=
  { circuits := []
    witnesses := [{ name := "%private$counter.1", arguments := [], resultType := ty }]
    natives := [] }

/-- A circuit that returns the answer of its witness. -/
def counterCircuit (ty : Ty) : Circuit :=
  { booleanCircuit "%count.2" (.call "%private$counter.1" []) with resultType := ty }

/-- A counter of 64 bits is written in 8 bytes either way. -/
theorem transcripts_typed_counter :
    heldExecute plainCrypto (counterProgram (.unsigned (2 ^ 64 - 1))) (answering (.integer 5)) 3
        (counterCircuit (.unsigned (2 ^ 64 - 1))) () [] [] ≠ .error .outOfFuel ∧
      execute plainCrypto (counterProgram (.unsigned (2 ^ 64 - 1))) (answering (.integer 5)) 3
          (counterCircuit (.unsigned (2 ^ 64 - 1))) () [] [] =
        typedExecute plainCrypto (counterProgram (.unsigned (2 ^ 64 - 1))) (answering (.integer 5)) 3
          (counterCircuit (.unsigned (2 ^ 64 - 1))) () [] [] ∧
      untyped plainCodecs .boolean (.bool true) = true := by
  have hends : heldExecute plainCrypto (counterProgram (.unsigned (2 ^ 64 - 1)))
      (answering (.integer 5)) 3 (counterCircuit (.unsigned (2 ^ 64 - 1))) () [] [] ≠
        .error .outOfFuel := by
    intro h
    have hok : (heldExecute plainCrypto (counterProgram (.unsigned (2 ^ 64 - 1)))
        (answering (.integer 5)) 3 (counterCircuit (.unsigned (2 ^ 64 - 1))) () [] []).isOk = true :=
      by decide +kernel
    rw [h] at hok
    cases hok
  have hall := transcripts_typed plainCrypto (counterProgram (.unsigned (2 ^ 64 - 1)))
    (answering (.integer 5)) 3 (counterCircuit (.unsigned (2 ^ 64 - 1))) () [] []
  refine ⟨hends, hall.1 hends, (hall.2.1 .boolean (.bool true) (.bool true)).mp (fun av => Iff.rfl)⟩

/-- The private transcript of an execution that ends. -/
def privateTranscript {vm : Vm} (outcome : Except Halt (ExecutionResult vm)) :
    Option (List AlignedValue) :=
  outcome.toOption.map (fun r => r.context.privateTranscriptOutputs)

def communicationOutputs {vm : Vm} (outcome : Except Halt (ExecutionResult vm)) :
    Option (List AlignedValue) :=
  outcome.toOption.map ExecutionResult.communicationOutputs

def emptyMapCircuit : Circuit :=
  { booleanCircuit "%none.3" (.map 0 (.circuit [] .boolean (.quote (.bool true))) []) with
    resultType := .vector 0 .boolean }

/-- A number that a Field witness answers is written in 8 bytes, a struct is refused,
and an empty vector is bound as an output. -/
theorem transcripts_untyped :
    (privateTranscript (execute plainCrypto (counterProgram (.field .native))
        (answering (.integer 5)) 3 (counterCircuit (.field .native)) () [] []) =
      some [.single [5] (.bytes 8)] ∧
    privateTranscript (typedExecute plainCrypto (counterProgram (.field .native))
        (answering (.integer 5)) 3 (counterCircuit (.field .native)) () [] []) =
      some [.single [5] .field]) ∧
    (privateTranscript (execute plainCrypto (counterProgram (.struct "Pair" [("left", .boolean)]))
        (answering (.struct [("left", .bool true)])) 3
        (counterCircuit (.struct "Pair" [("left", .boolean)])) () [] []) = none ∧
    privateTranscript (typedExecute plainCrypto
        (counterProgram (.struct "Pair" [("left", .boolean)]))
        (answering (.struct [("left", .bool true)])) 3
        (counterCircuit (.struct "Pair" [("left", .boolean)])) () [] []) =
      some [.single [1] (.bytes 1)]) ∧
    communicationOutputs (execute plainCrypto (counterProgram .boolean) plainEnv 3 emptyMapCircuit
        () [] []) = some [.unit] ∧
    communicationOutputs (typedExecute plainCrypto (counterProgram .boolean) plainEnv 3
        emptyMapCircuit () [] []) = some [] := by
  refine ⟨⟨?_, ?_⟩, ⟨?_, ?_⟩, ?_, ?_⟩ <;> decide +kernel

end Samples

end MidnightRs.Circuits
