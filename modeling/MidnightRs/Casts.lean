import MidnightRs.Alignments

/-!
The default of a type and the cast between types. A cast to a number or an enum
computes one; every other cast leaves the value as it is, flat or not, and its
encoding at the target has the alignment that the value brings along.
-/
namespace MidnightRs.Compact

section Defaults

/-- What the curve crates give: the zero of each field, the identity of each
curve, and the elements that bytes spell, as encodings. -/
structure Elements (c : Codecs) where
  zero : ForeignField → List Atom
  reencode_zero : ∀ f, (c.field f).reencode (zero f) = some (zero f)
  identity : Curve → List Atom
  reencode_identity : ∀ curve, (c.point curve).reencode (identity curve) = some (identity curve)
  fromLeBytes : ForeignField → Bytes → List Atom
  reencode_fromLeBytes : ∀ f bytes,
    (c.field f).reencode (fromLeBytes f bytes) = some (fromLeBytes f bytes)
  frFromLeBytes : Bytes → Option Atom

def irLength (length : ℕ) : Except InterpreterError ℕ :=
  if length < usizeBound then .ok length else .error (.lengthTooLarge length)

variable {c : Codecs} (e : Elements c)

mutual

/-- The default of a type. A struct's is flat. -/
def defaultValue : Ty → Except InterpreterError Value
  | .boolean => .ok (.bool false)
  | .unsigned _ => .ok (.integer 0)
  | .enum _ _ => .ok (.integer 0)
  | .field f =>
    .ok (.alignedValue (match ForeignField.of f with
      | some foreign => ⟨e.zero foreign, foreign.alignment⟩
      | none => ofFr 0))
  | .bytes length =>
    (irLength length).bind (fun length => (bytesAlignedValue [] length).map .alignedValue)
  | .point curve => .ok (.alignedValue ⟨e.identity curve, curve.alignment⟩)
  | .opaqueData _ => .ok (.alignedValue emptyOpaque)
  | .struct name fields =>
    (defaultFields fields).bind (fun defaults =>
      (encodeTyped c (.tuple defaults) (.struct name fields)).map .alignedValue)
  | .tuple types =>
    if types.isEmpty then .ok .void else (defaultEach types).map .tuple
  | .vector len ty =>
    (irLength len).bind (fun len =>
      if len = 0 then .ok (.tuple [])
      else (defaultValue ty).map (fun v => .tuple (List.replicate len v)))
  | .aliasOf _ _ ty => defaultValue ty
  | .contract _ =>
    (bytesAlignedValue [] 32).bind (fun av =>
      (encodeTyped c (.tuple [.alignedValue av]) .contractAddress).map .alignedValue)
  | .adt name => .error (.noValue (.adt name))
  | .typeVar name => .error (.noValue (.typeVar name))
  | .unknown => .error (.noValue .unknown)

def defaultEach : List Ty → Except InterpreterError (List Value)
  | [] => .ok []
  | ty :: types =>
    (defaultValue ty).bind (fun v => (defaultEach types).map (v :: ·))

def defaultFields : List (String × Ty) → Except InterpreterError (List Value)
  | [] => .ok []
  | (_, ty) :: fields =>
    (defaultValue ty).bind (fun v => (defaultFields fields).map (v :: ·))

end

/-- A part of a type whose default has the alignment of its own. -/
def DefaultKept : Ty → Prop
  | .vector len _ => len < usizeBound
  | .opaqueData name => ¬ OfFields (.opaqueData name)
  | .adt _ => False
  | .typeVar _ => False
  | .unknown => False
  | ty => NarrowLength ty

/-- A type has a default, to be compared with its alignment, or one of its parts
has none. -/
def DefaultCompared (ty : Ty) : Prop :=
  (∃ v av, defaultValue e ty = .ok v ∧ encodeTyped c v ty = .ok av ∧
    Compared av.alignment (alignment ty) (Throughout DefaultKept ty)) ∨
  ((∃ error, defaultValue e ty = .error error) ∧ ¬ Throughout DefaultKept ty)

theorem bytesAlignedValue_nil (length : ℕ) :
    bytesAlignedValue [] length = .ok (.single [] (.bytes (asU32 length))) :=
  if_pos (Nat.zero_le _)

theorem default_scalar {ty : Ty} (hty : ty.Scalar) : DefaultCompared e ty := by
  have hcongr : ∀ {got want : List AlignmentSegment}, Compared got want (DefaultKept ty) →
      Compared got want (Throughout DefaultKept ty) :=
    fun h => h.congr (throughout_scalar DefaultKept hty).symm
  have hnone : ∀ {error : InterpreterError}, defaultValue e ty = .error error →
      ¬ DefaultKept ty → DefaultCompared e ty :=
    fun herror hkept => .inr ⟨⟨_, herror⟩, fun h => hkept ((throughout_scalar _ hty).mp h)⟩
  cases ty with
  | boolean => exact .inl ⟨_, _, rfl, rfl, hcongr (compared_refl _ trivial)⟩
  | unsigned maxval =>
    have henc : encodeTyped c (.integer 0) (.unsigned maxval) =
        .ok (.single (trim (toLeBytes (uintByteWidth maxval) 0))
          (.bytes (asU32 (uintByteWidth maxval)))) :=
      encodeUnsigned_eq maxval 0 _ rfl (Nat.zero_le _) ⟨by decide, Nat.zero_le _⟩
    exact .inl ⟨_, _, rfl, henc, hcongr (compared_bytes _)⟩
  | field f =>
    cases hf : ForeignField.of f with
    | some foreign =>
      refine .inl ⟨.alignedValue ⟨e.zero foreign, foreign.alignment⟩,
        ⟨e.zero foreign, foreign.alignment⟩, ?_, ?_, hcongr ?_⟩
      · simp only [defaultValue, hf]
      · simp only [encodeTyped, encodeField, hf, encodeAs, e.reencode_zero]
      · have halign : alignment (.field f) = foreign.alignment := by
          simp only [alignment, alignmentAt, fieldAlignment, hf]
        rw [halign]
        exact compared_refl _ trivial
    | none =>
      refine .inl ⟨.alignedValue (ofFr 0), ofFr 0, ?_, ?_, hcongr ?_⟩
      · simp only [defaultValue, hf]
      · simp only [encodeTyped, encodeField, hf]
      · have halign : alignment (.field f) = [.atom .field] := by
          simp only [alignment, alignmentAt, fieldAlignment, hf]
        rw [halign]
        exact compared_refl _ trivial
  | point curve =>
    refine .inl ⟨_, ⟨e.identity curve, curve.alignment⟩, rfl, ?_,
      hcongr (compared_refl _ trivial)⟩
    cases curve with
    | jubjub => rfl
    | secp256k1 => simp only [encodeTyped, encodeAs, e.reencode_identity]
    | secp256r1 => simp only [encodeTyped, encodeAs, e.reencode_identity]
    | curve25519 => simp only [encodeTyped, encodeAs, e.reencode_identity]
  | bytes length =>
    by_cases hlength : length < usizeBound
    · have hdefault : defaultValue e (.bytes length) =
          .ok (.alignedValue (.single [] (.bytes (asU32 length)))) := by
        simp only [defaultValue, irLength, hlength, if_true, Except.bind, bytesAlignedValue_nil,
          Except.map]
      exact .inl ⟨_, _, hdefault, rfl, hcongr (compared_bytes length)⟩
    · have hdefault : defaultValue e (.bytes length) = .error (.lengthTooLarge length) := by
        simp only [defaultValue, irLength, hlength, if_false, Except.bind]
      refine hnone hdefault (fun h => hlength ?_)
      exact Nat.lt_trans h (by decide)
  | opaqueData name => exact .inl ⟨_, _, rfl, rfl, hcongr (opaque_compared name)⟩
  | enum name variants => exact .inl ⟨_, _, rfl, rfl, hcongr (compared_refl _ trivial)⟩
  | contract name => exact .inl ⟨_, _, rfl, rfl, hcongr (compared_refl _ trivial)⟩
  | adt name => exact hnone rfl not_false
  | typeVar name => exact hnone rfl not_false
  | unknown => exact hnone rfl not_false
  | vector => exact hty.elim
  | tuple => exact hty.elim
  | struct => exact hty.elim
  | aliasOf => exact hty.elim

theorem defaultFields_eq (fields : List (String × Ty)) :
    defaultFields e fields = defaultEach e (fields.map Prod.snd) := by
  induction fields with
  | nil => rfl
  | cons field fields ih => simp only [defaultFields, ih, List.map_cons, defaultEach]

theorem defaultEach_replicate {ty : Ty} {v : Value} (h : defaultValue e ty = .ok v) (n : ℕ) :
    defaultEach e (List.replicate n ty) = .ok (List.replicate n v) := by
  induction n with
  | zero => rfl
  | succ n ih => simp only [List.replicate_succ, defaultEach, h, ih, Except.bind, Except.map]

/-- The defaults of types, one by one, or a part of one of them that has none. -/
theorem default_each (types : List Ty) (hall : ∀ ty ∈ types, DefaultCompared e ty) :
    (∃ vals parts, defaultEach e types = .ok vals ∧ vals.length = types.length ∧
      encodeTuple c vals types = .ok parts ∧
      Compared (AlignedValue.concat parts).alignment (alignmentAtEach id types)
        (ThroughoutEach DefaultKept types)) ∨
    ((∃ error, defaultEach e types = .error error) ∧ ¬ ThroughoutEach DefaultKept types) := by
  induction types with
  | nil => exact .inl ⟨[], [], rfl, rfl, rfl, compared_refl _ trivial⟩
  | cons ty types ih =>
    obtain ⟨hty, htypes⟩ := List.forall_mem_cons.mp hall
    rcases hty with ⟨v, av, hv, hav, hcompared⟩ | ⟨⟨error, herror⟩, hkept⟩
    · rcases ih htypes with ⟨vals, parts, hvals, hlen, henc, hrest⟩ | ⟨⟨error, herror⟩, hkept⟩
      · refine .inl ⟨v :: vals, av :: parts, ?_, ?_, ?_, hcompared.append hrest⟩
        · simp only [defaultEach, hv, hvals, Except.bind, Except.map]
        · simp only [List.length_cons, hlen]
        · simp only [encodeTuple, hav, henc, Except.map]
      · refine .inr ⟨⟨error, ?_⟩, fun h => hkept h.2⟩
        simp only [defaultEach, hv, herror, Except.bind, Except.map]
    · refine .inr ⟨⟨error, ?_⟩, fun h => hkept h.1⟩
      simp only [defaultEach, herror, Except.bind]

theorem default_compared (ty : Ty) : DefaultCompared e ty := by
  induction ty using Ty.induct with
  | scalar ty hty => exact default_scalar e hty
  | vector len ty ih =>
    by_cases hlen : len < usizeBound
    · by_cases hzero : len = 0
      · subst hzero
        exact .inl ⟨.tuple [], .unit, rfl, rfl, compared_refl _ ⟨hlen, .inl rfl⟩⟩
      · have hall := default_each e (List.replicate len ty)
          (fun ty' h => List.eq_of_mem_replicate h ▸ ih)
        rw [throughoutEach_replicate] at hall
        rcases ih with ⟨v, _, hv, _⟩ | ⟨⟨error, herror⟩, hkept⟩
        · rw [defaultEach_replicate e hv] at hall
          rcases hall with ⟨vals, parts, hvals, hvlen, henc, hcompared⟩ | ⟨⟨_, h⟩, _⟩
          · cases hvals
            have hparts : partsOf (.vector len ty) (.tuple (List.replicate len v)) =
                .ok (.each (List.replicate len v)) := by
              simp only [partsOf, vectorParts, List.length_replicate, if_true]
            refine .inl ⟨.tuple (List.replicate len v), .concat parts, ?_, ?_, ?_⟩
            · simp only [defaultValue, irLength, hlen, if_true, Except.bind, hzero, if_false, hv,
                Except.map]
            · exact (encodeTyped_each c rfl hparts _).mpr ⟨parts, henc, rfl⟩
            · rw [alignmentAtEach_replicate] at hcompared
              exact hcompared.congr ⟨fun h => ⟨hlen, h⟩, And.right⟩
          · cases h
        · refine .inr ⟨⟨error, ?_⟩, fun h => hkept (h.2.resolve_left hzero)⟩
          simp only [defaultValue, irLength, hlen, if_true, Except.bind, hzero, if_false, herror,
            Except.map]
    · refine .inr ⟨⟨.lengthTooLarge len, ?_⟩, fun h => hlen h.1⟩
      simp only [defaultValue, irLength, hlen, if_false, Except.bind]
  | tuple types ih =>
    by_cases hempty : types = []
    · subst hempty
      exact .inl ⟨.void, .unit, rfl, rfl, compared_refl _ trivial⟩
    · have hisEmpty : types.isEmpty = false := by simpa using hempty
      rcases default_each e types ih with ⟨vals, parts, hvals, hlen, henc, hcompared⟩ |
        ⟨⟨error, herror⟩, hkept⟩
      · have hparts : partsOf (.tuple types) (.tuple vals) = .ok (.each vals) := by
          simp only [partsOf, tupleParts, hlen, if_true]
        refine .inl ⟨.tuple vals, .concat parts, ?_, ?_, hcompared⟩
        · simp [defaultValue, hisEmpty, hvals, Except.map]
        · exact (encodeTyped_each c rfl hparts _).mpr ⟨parts, henc, rfl⟩
      · refine .inr ⟨⟨error, ?_⟩, hkept⟩
        simp [defaultValue, hisEmpty, herror, Except.map]
  | struct name fields ih =>
    have hall := default_each e (fields.map Prod.snd) (List.forall_mem_map.mpr ih)
    rw [← defaultFields_eq, ← throughoutFields_iff, ← alignmentAtFields_eq] at hall
    rcases hall with ⟨vals, parts, hvals, hlen, henc, hcompared⟩ | ⟨⟨error, herror⟩, hkept⟩
    · have hparts : partsOf (.struct name fields) (.tuple vals) = .ok (.each vals) := by
        rw [List.length_map] at hlen
        simp only [partsOf, structParts, hlen, if_true]
      have hencoded : encodeTyped c (.tuple vals) (.struct name fields) = .ok (.concat parts) :=
        (encodeTyped_each c rfl hparts _).mpr ⟨parts, henc, rfl⟩
      refine .inl ⟨.alignedValue (.concat parts), .concat parts, ?_, rfl, hcompared⟩
      simp only [defaultValue, hvals, Except.bind, hencoded, Except.map]
    · refine .inr ⟨⟨error, ?_⟩, hkept⟩
      simp only [defaultValue, herror, Except.bind]
  | aliasOf nominal name ty ih => exact ih

/-- The default of a type encodes with its alignment exactly when each part's
does. -/
theorem default_alignment_iff (ty : Ty) :
    (∃ v av, defaultValue e ty = .ok v ∧ encodeTyped c v ty = .ok av ∧
      av.alignment = alignment ty) ↔ Throughout DefaultKept ty := by
  rcases default_compared e ty with ⟨v, av, hv, hav, hcompared⟩ | ⟨⟨error, herror⟩, hkept⟩
  · constructor
    · rintro ⟨v', av', hv', hav', halign⟩
      rw [hv, Except.ok.injEq] at hv'
      subst hv'
      rw [hav, Except.ok.injEq] at hav'
      subst hav'
      exact hcompared.eq_iff.mp halign
    · intro h
      exact ⟨v, av, hv, hav, hcompared.eq_iff.mpr h⟩
  · refine iff_of_false ?_ hkept
    rintro ⟨v, av, hv, -, -⟩
    rw [herror] at hv
    cases hv

end Defaults

section Casts

/-- An integer without a type is written in 8 bytes, or in 16. -/
def integerFallbackAligned (n : ℕ) : AlignedValue :=
  .single (trim (toLeBytes u128Bytes n)) (.bytes (if n < 2 ^ 64 then 8 else 16))

mutual

/-- What a value flattens to without a type. -/
def tryToAlignedValue : Value → Except InterpreterError AlignedValue
  | .alignedValue av => .ok av
  | .integer n => .ok (integerFallbackAligned n)
  | .bool b => .ok (ofBool b)
  | .void => .ok .unit
  | .tuple elements => (tryToAlignedValues elements).map .concat
  | .struct _ => .error .structWithoutType

def tryToAlignedValues : List Value → Except InterpreterError (List AlignedValue)
  | [] => .ok []
  | v :: vs => (tryToAlignedValue v).bind (fun av => (tryToAlignedValues vs).map (av :: ·))

end

def numericValue (val : Value) : Except InterpreterError ℕ :=
  match val with
  | .integer n => .ok n
  | .bool b => .ok (if b then 1 else 0)
  | other =>
    (tryToAlignedValue other).bind (fun av =>
      match av.value with
      | [a] => .ok (ofLeBytes a)
      | _ => .error (.expectedNumber other))

def valueToByteString (val : Value) (length : ℕ) : Except InterpreterError Bytes :=
  match val with
  | .alignedValue ⟨[a], _⟩ =>
    if length < a.length then .error (.wideByteString a.length length) else .ok a
  | other => .error (.expectedBytes length other)

/-- The byte string with the zeros that the normal form drops. -/
def paddedBytes (val : Value) (length : ℕ) : Except InterpreterError Bytes :=
  (valueToByteString val length).map (fun bytes =>
    bytes ++ List.replicate (length - bytes.length) 0)

def uintValue (n : ℕ) : Except InterpreterError Value :=
  if n < u128Bound then .ok (.integer n) else .error (.uintAboveU128 n)

def uintTypeName (maxval : ℕ) : String := s!"Uint<0..{maxval + 1}>"

def castToUint (val : Value) (source : Ty) (maxval : ℕ) : Except InterpreterError Value :=
  match source.resolved with
  | .bytes length =>
    (irLength length).bind (fun length => (paddedBytes val length).bind (fun bytes =>
      if maxval < ofLeBytes bytes then
        let listed := ",".intercalate (bytes.map (fun b => toString b.toNat))
        .error (.assertionFailed (s!"range error: byte vector [{listed}] exceeds maximum value " ++
          s!"{maxval} of {uintTypeName maxval} type"))
      else uintValue (ofLeBytes bytes)))
  | .enum name _ =>
    (numericValue val).bind (fun n =>
      if maxval < n then
        .error (.assertionFailed (s!"cast from enum {name} to {uintTypeName maxval} failed: " ++
          s!"enum value {n} is greater than {maxval}"))
      else uintValue n)
  | _ =>
    (numericValue val).bind (fun n =>
      if maxval < n then
        .error (.assertionFailed ("cast from Field or Uint value to smaller Uint value failed: " ++
          s!"{n} is greater than {maxval}"))
      else uintValue n)

def castToEnum (val : Value) (name : String) (variants : List String) :
    Except InterpreterError Value :=
  (numericValue val).bind (fun n =>
    if variants.length - 1 < n then
      .error (.assertionFailed (s!"cast from Field or Uint value to enum {name} failed: " ++
        s!"{n} is greater than maximum enum value {variants.length - 1}"))
    else uintValue n)

variable {c : Codecs} (e : Elements c)

def castToField (val : Value) (source : Ty) : Except InterpreterError Value :=
  let bytes := match source.resolved with
    | .bytes length => (irLength length).bind (valueToByteString val)
    | _ => (numericValue val).map (fun n => toLeBytes (uintByteWidth n) n)
  bytes.bind (fun bytes =>
    match e.frFromLeBytes bytes with
    | some a => .ok (.alignedValue (.single a .field))
    | none => .error (.exceedsField bytes))

/-- A cast, by its target. -/
def evalCast (val : Value) (source target : Ty) : Except InterpreterError Value :=
  match target.resolved with
  | .field f =>
    match ForeignField.of f with
    | some foreign =>
      match source.resolved with
      | .bytes length =>
        (irLength length).bind (fun length => (valueToByteString val length).map (fun bytes =>
          .alignedValue ⟨e.fromLeBytes foreign bytes, foreign.alignment⟩))
      | _ => .error (.noCast source foreign.name)
    | none => castToField e val source
  | .unsigned maxval => castToUint val source maxval
  | .enum name variants => castToEnum val name variants
  | _ => .ok val

end Casts

section Fits

variable (c : Codecs)

/-- A value that encodes at a type with the alignment of the type. -/
def EncodesAligned (v : Value) (ty : Ty) : Prop :=
  ∃ av, encodeTyped c v ty = .ok av ∧ av.alignment = alignment ty

/-- A flat value with the alignment of the type. -/
def Brings (ty : Ty) (v : Value) : Prop :=
  ∃ av, v = .alignedValue av ∧ av.alignment = alignment ty

/-- A value that a type takes, a flat one by its alignment wherever the encoder
leaves it as it is. -/
def Fits : Ty → Value → Prop
  | .boolean, v => ∃ n, valueToU128 v = some n
  | .unsigned maxval, v =>
    uintByteWidth maxval < 2 ^ 32 ∧ ∃ n, valueToU128 v = some n ∧ n ≤ maxval ∧ n < u128Bound
  | .field f, v =>
    match ForeignField.of f with
    | some foreign => ∃ av, v = .alignedValue av ∧ ((c.field foreign).reencode av.value).isSome
    | none => (∃ n, v = .integer n) ∨ Brings (.field f) v
  | .point .jubjub, v => Brings (.point .jubjub) v
  | .point curve, v => ∃ av, v = .alignedValue av ∧ ((c.point curve).reencode av.value).isSome
  | .bytes length, v => length < 2 ^ 32 ∧ (v = .void ∨ ∃ av, v = .alignedValue av)
  | .opaqueData name, v =>
    v = .void ∧ ¬ OfFields (.opaqueData name) ∨ Brings (.opaqueData name) v
  | .enum name variants, v => (∃ n < 256, v = .integer n) ∨ Brings (.enum name variants) v
  | .contract name, v =>
    Brings (.contract name) v ∨
      ∃ w, partsOf .contractAddress v = .ok (.each [w]) ∧ (w = .void ∨ ∃ av, w = .alignedValue av)
  | .tuple types, v => types = [] ∧ v = .void ∨ Brings (.tuple types) v
  | ty, v => ty.components.isSome ∧ Brings ty v

theorem checkUintRange_ok {n maxval m : ℕ} (h : checkUintRange n maxval = .ok m) :
    n ≤ maxval ∧ n < u128Bound := by
  have hbound : 0 < u128Bound := by decide
  unfold checkUintRange at h
  by_cases hmax : maxval < u128Bound
  · simp only [hmax, if_true] at h
    split at h
    · cases h
    · omega
  · simp only [hmax, if_false] at h
    split at h
    · cases h
    · omega

theorem encodeUnsigned_number {v : Value} {maxval : ℕ} {av : AlignedValue}
    (h : encodeUnsigned maxval v = .ok av) :
    ∃ n, valueToU128 v = some n ∧ n ≤ maxval ∧ n < u128Bound := by
  unfold encodeUnsigned at h
  split at h
  · cases h
  · rename_i n hn
    split at h
    · cases h
    · rename_i m hm
      exact ⟨n, hn, checkUintRange_ok hm⟩

theorem encodesAligned_void_iff (name : String) :
    EncodesAligned c .void (.opaqueData name) ↔ ¬ OfFields (.opaqueData name) := by
  refine Iff.trans ⟨?_, fun h => ⟨emptyOpaque, rfl, h⟩⟩ (opaque_compared name).eq_iff
  rintro ⟨av, henc, halign⟩
  cases henc
  exact halign

/-- Where the encoder takes a flat value as it is, only its alignment matters. -/
theorem encodesAligned_flat_iff {ty : Ty} {av : AlignedValue}
    (h : encodeTyped c (.alignedValue av) ty = .ok av) :
    EncodesAligned c (.alignedValue av) ty ↔ Brings ty (.alignedValue av) := by
  constructor
  · rintro ⟨av', henc, halign⟩
    rw [h, Except.ok.injEq] at henc
    subst henc
    exact ⟨av, rfl, halign⟩
  · rintro ⟨av', heq, halign⟩
    cases heq
    exact ⟨av, h, halign⟩

theorem encodesAligned_as_iff {segments : List AlignmentSegment} (codec : Codec segments)
    (name : String) (v : Value) :
    (∃ av, encodeAs codec name v = .ok av ∧ av.alignment = segments) ↔
      ∃ av, v = .alignedValue av ∧ (codec.reencode av.value).isSome := by
  constructor
  · rintro ⟨av, henc, -⟩
    cases v with
    | alignedValue flat =>
      refine ⟨flat, rfl, ?_⟩
      simp only [encodeAs] at henc
      split at henc
      · rename_i atoms hatoms
        rw [hatoms]
        rfl
      · cases henc
    | _ => cases henc
  · rintro ⟨av, rfl, hsome⟩
    obtain ⟨atoms, hatoms⟩ := Option.isSome_iff_exists.mp hsome
    exact ⟨⟨atoms, segments⟩, by simp only [encodeAs, hatoms], rfl⟩

theorem contract_aligned_iff (name : String) (v : Value) :
    EncodesAligned c v (.contract name) ↔ Fits c (.contract name) v := by
  have hcontract : EncodesAligned c v (.contract name) ↔ EncodesAligned c v .contractAddress := by
    simp only [EncodesAligned, encodeTyped_contract]
    rfl
  rw [hcontract]
  constructor
  · rintro ⟨av, henc, halign⟩
    by_cases hparts : ∃ vals, partsOf .contractAddress v = .ok (.each vals)
    · obtain ⟨vals, hvals⟩ := hparts
      obtain ⟨parts, hparts, -⟩ := (encodeTyped_each c rfl hvals av).mp henc
      obtain ⟨w, rfl⟩ := List.length_eq_one_iff.mp (partsOf_length rfl hvals)
      refine .inr ⟨w, hvals, ?_⟩
      cases w with
      | void => exact .inl rfl
      | alignedValue av => exact .inr ⟨av, rfl⟩
      | _ => cases hparts
    · rcases encodeTyped_whole c rfl (fun vals hvals => hparts ⟨vals, hvals⟩) henc with
        rfl | ⟨_, h, _⟩
      · exact .inl ⟨av, rfl, halign⟩
      · cases h
  · rintro (⟨av, rfl, halign⟩ | ⟨w, hparts, hw⟩)
    · exact ⟨av, rfl, halign⟩
    · have hbytes : ∃ part, encodeTuple c [w] [.bytes 32] = .ok [part] ∧
          part.alignment = [.atom (.bytes 32)] := by
        rcases hw with rfl | ⟨av, rfl⟩
        · exact ⟨_, rfl, rfl⟩
        · exact ⟨_, rfl, rfl⟩
      obtain ⟨part, henc, halign⟩ := hbytes
      refine ⟨.concat [part], (encodeTyped_each c rfl hparts _).mpr ⟨[part], henc, rfl⟩, ?_⟩
      simp only [AlignedValue.concat, List.map_cons, List.map_nil, List.flatten_cons,
        List.flatten_nil, List.append_nil, halign]
      rfl

theorem not_encodesAligned {v : Value} {ty : Ty} {e : InterpreterError}
    (h : encodeTyped c v ty = .error e) : ¬ EncodesAligned c v ty := by
  rintro ⟨av, henc, -⟩
  rw [h] at henc
  cases henc

theorem not_brings {ty : Ty} {v : Value} (h : ∀ av, v ≠ .alignedValue av) : ¬ Brings ty v := by
  rintro ⟨av, hv, -⟩
  exact h av hv

/-- A scalar takes exactly the values that fit it. -/
theorem scalar_aligned_iff {ty : Ty} (hty : ty.Scalar) (v : Value) :
    EncodesAligned c v ty ↔ Fits c ty v := by
  cases ty with
  | boolean =>
    constructor
    · rintro ⟨av, henc, -⟩
      cases v with
      | bool b => exact ⟨_, rfl⟩
      | integer n => exact ⟨n, rfl⟩
      | alignedValue flat =>
        simp only [encodeTyped, encodeBoolean] at henc
        split at henc
        · rename_i n hn
          exact ⟨n, hn⟩
        · cases henc
      | _ => cases henc
    · rintro ⟨n, hn⟩
      cases v with
      | bool b => exact ⟨_, rfl, rfl⟩
      | integer m => exact ⟨_, rfl, rfl⟩
      | alignedValue flat =>
        refine ⟨ofBool (decide (n ≠ 0)), ?_, rfl⟩
        have hn : alignedAtomToU128 flat = some n := hn
        simp only [encodeTyped, encodeBoolean, hn]
      | _ => cases hn
  | unsigned maxval =>
    constructor
    · rintro ⟨av, henc, halign⟩
      have hwidth := (encodeUnsigned_alignment henc).symm.trans halign
      exact ⟨(compared_bytes (uintByteWidth maxval)).eq_iff.mp hwidth, encodeUnsigned_number henc⟩
    · rintro ⟨hwidth, n, hn, hle, hbound⟩
      have hheld := (holds_unsigned_iff maxval n hle hwidth).mpr hbound
      exact ⟨_, encodeUnsigned_eq maxval n v hn hle hheld,
        (compared_bytes (uintByteWidth maxval)).eq_iff.mpr hwidth⟩
  | field f =>
    cases hf : ForeignField.of f with
    | some foreign =>
      have halign : alignment (.field f) = foreign.alignment := by
        simp only [alignment, alignmentAt, fieldAlignment, hf]
      simp only [EncodesAligned, encodeTyped, encodeField, hf, halign, Fits]
      exact encodesAligned_as_iff (c.field foreign) foreign.name v
    | none =>
      have halign : alignment (.field f) = [.atom .field] := by
        simp only [alignment, alignmentAt, fieldAlignment, hf]
      simp only [EncodesAligned, encodeTyped, encodeField, hf, Fits, Brings]
      cases v with
      | integer n => exact iff_of_true ⟨_, rfl, halign.symm⟩ (.inl ⟨n, rfl⟩)
      | alignedValue av => simp
      | _ => simp
  | point curve =>
    cases curve with
    | jubjub =>
      cases v with
      | alignedValue av => exact encodesAligned_flat_iff c rfl
      | void =>
        refine iff_of_false ?_ (not_brings (fun av => Value.noConfusion))
        rintro ⟨av, henc, halign⟩
        cases henc
        cases halign
      | _ => exact iff_of_false (not_encodesAligned c rfl) (not_brings (fun av => Value.noConfusion))
    | secp256k1 => exact encodesAligned_as_iff (c.point .secp256k1) _ v
    | secp256r1 => exact encodesAligned_as_iff (c.point .secp256r1) _ v
    | curve25519 => exact encodesAligned_as_iff (c.point .curve25519) _ v
  | bytes length =>
    constructor
    · rintro ⟨av, henc, halign⟩
      have hwidth := (encodeBytes_alignment henc).symm.trans halign
      refine ⟨(compared_bytes length).eq_iff.mp hwidth, ?_⟩
      cases v with
      | void => exact .inl rfl
      | alignedValue flat => exact .inr ⟨flat, rfl⟩
      | _ => cases henc
    · rintro ⟨hlength, hv⟩
      have halign := (compared_bytes length).eq_iff.mpr hlength
      rcases hv with rfl | ⟨av, rfl⟩
      · exact ⟨_, bytesAlignedValue_nil length, halign⟩
      · exact ⟨_, rfl, halign⟩
  | opaqueData name =>
    cases v with
    | void =>
      rw [encodesAligned_void_iff]
      exact ⟨fun h => .inl ⟨rfl, h⟩,
        fun h => (h.resolve_right (not_brings (fun av => Value.noConfusion))).2⟩
    | alignedValue av =>
      exact (encodesAligned_flat_iff c rfl).trans
        ⟨.inr, fun h => h.resolve_left (fun h => by cases h.1)⟩
    | _ =>
      refine iff_of_false (not_encodesAligned c rfl) ?_
      rintro (⟨h, -⟩ | ⟨_, h, -⟩) <;> cases h
  | enum name variants =>
    cases v with
    | integer n =>
      by_cases hn : n < 256
      · refine iff_of_true ⟨ofU8 n, ?_, rfl⟩ (.inl ⟨n, hn, rfl⟩)
        simp only [encodeTyped, encodeEnum, hn, if_true]
      · refine iff_of_false ?_ ?_
        · rintro ⟨av, henc, -⟩
          simp only [encodeTyped, encodeEnum, hn, if_false] at henc
          cases henc
        · rintro (⟨m, hm, h⟩ | ⟨_, h, -⟩)
          · cases h
            exact hn hm
          · cases h
    | alignedValue av =>
      exact (encodesAligned_flat_iff c rfl).trans
        ⟨.inr, fun h => h.resolve_left (by rintro ⟨_, _, h⟩; cases h)⟩
    | _ =>
      refine iff_of_false (not_encodesAligned c rfl) ?_
      rintro (⟨_, _, h⟩ | ⟨_, h, -⟩) <;> cases h
  | contract name => exact contract_aligned_iff c name v
  | adt name => exact iff_of_false (not_encodesAligned c rfl) (fun h => by cases h.1)
  | typeVar name => exact iff_of_false (not_encodesAligned c rfl) (fun h => by cases h.1)
  | unknown => exact iff_of_false (not_encodesAligned c rfl) (fun h => by cases h.1)
  | vector => exact hty.elim
  | tuple => exact hty.elim
  | struct => exact hty.elim
  | aliasOf => exact hty.elim

/-- An aggregate that is not taken apart fits by the alignment it brings. -/
theorem whole_aligned_iff {ty : Ty} {types : List Ty} (hty : ty.components = some types) {v : Value}
    (hparts : ∀ vals, partsOf ty v ≠ .ok (.each vals)) :
    EncodesAligned c v ty ↔ Fits c ty v := by
  have hbrings : Brings ty v → EncodesAligned c v ty := by
    rintro ⟨av, rfl, halign⟩
    refine ⟨av, ?_, halign⟩
    cases ty with
    | tuple => rfl
    | vector => rfl
    | struct => rfl
    | _ => cases hty
  constructor
  · rintro ⟨av, henc, halign⟩
    rcases encodeTyped_whole c hty hparts henc with rfl | ⟨rfl, rfl, rfl⟩
    · cases ty with
      | tuple => exact .inr ⟨av, rfl, halign⟩
      | vector => exact ⟨rfl, av, rfl, halign⟩
      | struct => exact ⟨rfl, av, rfl, halign⟩
      | _ => cases hty
    · cases ty with
      | tuple => exact .inl ⟨Option.some.inj hty, rfl⟩
      | vector => cases henc
      | struct => cases henc
      | _ => cases hty
  · intro h
    cases ty with
    | tuple types' =>
      rcases h with ⟨rfl, rfl⟩ | h
      · exact ⟨.unit, rfl, rfl⟩
      · exact hbrings h
    | vector => exact hbrings h.2
    | struct => exact hbrings h.2
    | _ => cases hty

theorem each_aligned (types : List Ty)
    (hall : ∀ ty ∈ types, ∀ v, Leaves (Fits c) ty v → EncodesAligned c v ty) (vals : List Value)
    (hlen : vals.length = types.length) (h : LeavesEach (Fits c) types vals) :
    ∃ parts, encodeTuple c vals types = .ok parts ∧
      (AlignedValue.concat parts).alignment = alignmentAtEach id types := by
  induction types generalizing vals with
  | nil => exact ⟨[], rfl, rfl⟩
  | cons ty types ih =>
    obtain ⟨hty, htypes⟩ := List.forall_mem_cons.mp hall
    match vals, hlen, h with
    | v :: vals, hlen, h =>
      obtain ⟨av, hav, halign⟩ := hty v h.1
      obtain ⟨parts, hparts, hrest⟩ := ih htypes vals (Nat.succ.inj hlen) h.2
      refine ⟨av :: parts, ?_, ?_⟩
      · simp only [encodeTuple, hav, hparts, Except.map]
      · simp only [AlignedValue.concat] at hrest
        simp only [AlignedValue.concat, List.map_cons, List.flatten_cons, halign, hrest,
          alignmentAtEach]
        rfl

/-- A value whose parts fit encodes with the alignment of the type. -/
theorem aligned_of_leaves (ty : Ty) : ∀ v, Leaves (Fits c) ty v → EncodesAligned c v ty := by
  have haggregate : ∀ {ty : Ty} {types : List Ty}, ty.components = some types →
      (∀ ty ∈ types, ∀ v, Leaves (Fits c) ty v → EncodesAligned c v ty) →
      ∀ v, Leaves (Fits c) ty v → EncodesAligned c v ty := by
    intro ty types hty hall v h
    by_cases hparts : ∃ vals, partsOf ty v = .ok (.each vals)
    · obtain ⟨vals, hvals⟩ := hparts
      obtain ⟨parts, henc, halign⟩ := each_aligned c types hall vals (partsOf_length hty hvals)
        ((leaves_each _ hty hvals).mp h)
      refine ⟨.concat parts, (encodeTyped_each c hty hvals _).mpr ⟨parts, henc, rfl⟩, ?_⟩
      rw [halign, alignment, alignmentAt_components id hty]
    · have hwhole : ∀ vals, partsOf ty v ≠ .ok (.each vals) := fun vals h => hparts ⟨vals, h⟩
      exact (whole_aligned_iff c hty hwhole).mpr ((leaves_whole _ hty hwhole).mp h)
  induction ty using Ty.induct with
  | scalar ty hty =>
    intro v h
    exact (scalar_aligned_iff c hty v).mpr ((leaves_scalar _ hty v).mp h)
  | vector len ty ih => exact haggregate rfl (fun ty' h => List.eq_of_mem_replicate h ▸ ih)
  | tuple types ih => exact haggregate rfl ih
  | struct name fields ih => exact haggregate rfl (List.forall_mem_map.mpr ih)
  | aliasOf nominal name ty ih => exact ih

theorem flat_not_each {ty : Ty} (av : AlignedValue) (vals : List Value) :
    partsOf ty (.alignedValue av) ≠ .ok (.each vals) := by
  cases ty <;> exact fun h => by cases h

/-- For a flat value, fitting is exact. -/
theorem flat_aligned_iff (ty : Ty) (av : AlignedValue) :
    EncodesAligned c (.alignedValue av) ty ↔ Leaves (Fits c) ty (.alignedValue av) := by
  have haggregate : ∀ {ty : Ty} {types : List Ty}, ty.components = some types →
      (EncodesAligned c (.alignedValue av) ty ↔ Leaves (Fits c) ty (.alignedValue av)) :=
    fun hty => (whole_aligned_iff c hty (flat_not_each av)).trans
      (leaves_whole _ hty (flat_not_each av)).symm
  induction ty using Ty.induct with
  | scalar ty hty => exact (scalar_aligned_iff c hty _).trans (leaves_scalar _ hty _).symm
  | vector len ty ih => exact haggregate rfl
  | tuple types ih => exact haggregate rfl
  | struct name fields ih => exact haggregate rfl
  | aliasOf nominal name ty ih => exact ih

theorem encodesAligned_resolved (v : Value) (ty : Ty) :
    EncodesAligned c v ty.resolved ↔ EncodesAligned c v ty := by
  simp only [EncodesAligned, encodeTyped_resolved, alignment, alignmentAt_resolved]

end Fits

section Aligned

variable {c : Codecs} (e : Elements c)

/-- When a cast's result has the alignment of the target. A cast to a field
always has it, a cast to a number unless the wire narrows the width, a cast to
an enum up to index 255, and any other where the parts of the value fit. -/
def CastFits (c : Codecs) (target : Ty) (v : Value) : Prop :=
  match target.resolved with
  | .field _ => True
  | .unsigned maxval => uintByteWidth maxval < 2 ^ 32
  | .enum _ _ => ∀ n, numericValue v = .ok n → n < 256
  | ty => Leaves (Fits c) ty v

theorem bind_eq_ok {α β : Type} {x : Except InterpreterError α}
    {f : α → Except InterpreterError β} {b : β} (h : x.bind f = .ok b) :
    ∃ a, x = .ok a ∧ f a = .ok b := by
  cases x with
  | error error => cases h
  | ok a => exact ⟨a, rfl, h⟩

theorem uintValue_ok {n : ℕ} {w : Value} (h : uintValue n = .ok w) :
    w = .integer n ∧ n < u128Bound := by
  unfold uintValue at h
  split at h
  · rename_i hn
    cases h
    exact ⟨rfl, hn⟩
  · cases h

theorem castToUint_ok {v : Value} {source : Ty} {maxval : ℕ} {w : Value}
    (h : castToUint v source maxval = .ok w) :
    ∃ n, w = .integer n ∧ n ≤ maxval ∧ n < u128Bound := by
  have hchecked : ∀ {n : ℕ} {message : String},
      (if maxval < n then .error (.assertionFailed message) else uintValue n) =
        Except.ok w → ∃ n, w = .integer n ∧ n ≤ maxval ∧ n < u128Bound := by
    intro n message hn
    by_cases hlt : maxval < n
    · rw [if_pos hlt] at hn
      cases hn
    · rw [if_neg hlt] at hn
      obtain ⟨rfl, hbound⟩ := uintValue_ok hn
      exact ⟨n, rfl, by omega, hbound⟩
  unfold castToUint at h
  split at h
  · obtain ⟨_, -, h⟩ := bind_eq_ok h
    obtain ⟨_, -, h⟩ := bind_eq_ok h
    exact hchecked h
  · obtain ⟨_, -, h⟩ := bind_eq_ok h
    exact hchecked h
  · obtain ⟨_, -, h⟩ := bind_eq_ok h
    exact hchecked h

theorem castToEnum_ok {v : Value} {name : String} {variants : List String} {w : Value}
    (h : castToEnum v name variants = .ok w) :
    ∃ n, numericValue v = .ok n ∧ w = .integer n := by
  obtain ⟨n, hn, h⟩ := bind_eq_ok h
  by_cases hlt : variants.length - 1 < n
  · rw [if_pos hlt] at h
    cases h
  · rw [if_neg hlt] at h
    exact ⟨n, hn, (uintValue_ok h).1⟩

theorem castToField_ok {v : Value} {source : Ty} {w : Value} (h : castToField e v source = .ok w) :
    ∃ a, w = .alignedValue (.single a .field) := by
  obtain ⟨bytes, -, h⟩ := bind_eq_ok h
  split at h
  · rename_i a _
    exact ⟨a, (Except.ok.inj h).symm⟩
  · cases h

theorem integer_aligned_iff {maxval n : ℕ} (hle : n ≤ maxval) (hn : n < u128Bound) :
    EncodesAligned c (.integer n) (.unsigned maxval) ↔ uintByteWidth maxval < 2 ^ 32 :=
  (scalar_aligned_iff c (show (Ty.unsigned maxval).Scalar from trivial) _).trans
    ⟨And.left, fun h => ⟨h, n, rfl, hle, hn⟩⟩

theorem index_aligned_iff (name : String) (variants : List String) (n : ℕ) :
    EncodesAligned c (.integer n) (.enum name variants) ↔ n < 256 := by
  have hty : (Ty.enum name variants).Scalar := trivial
  refine (scalar_aligned_iff c hty _).trans ⟨?_, ?_⟩
  · rintro (⟨m, hm, h⟩ | ⟨_, h, -⟩)
    · cases h
      exact hm
    · cases h
  · exact fun h => .inl ⟨n, h, rfl⟩

theorem castField_aligned {f : FieldType} {source : Ty} {v w : Value}
    (h : evalCast e v source (.field f) = .ok w) : EncodesAligned c w (.field f) := by
  simp only [evalCast, Ty.resolved] at h
  have hty : (Ty.field f).Scalar := trivial
  refine (scalar_aligned_iff c hty _).mpr ?_
  cases hf : ForeignField.of f with
  | some foreign =>
    simp only [hf] at h
    split at h
    · obtain ⟨length, -, h⟩ := bind_eq_ok h
      cases hbytes : valueToByteString v length with
      | error error => simp [hbytes, Except.map] at h
      | ok bytes =>
        simp only [hbytes, Except.map, Except.ok.injEq] at h
        subst h
        simp only [Fits, hf]
        exact ⟨_, rfl, by rw [e.reencode_fromLeBytes]; rfl⟩
    · cases h
  | none =>
    simp only [hf] at h
    obtain ⟨a, rfl⟩ := castToField_ok e h
    simp only [Fits, hf]
    refine .inr ⟨_, rfl, ?_⟩
    simp only [AlignedValue.single, alignment, alignmentAt, fieldAlignment, hf]

theorem resolved_ne_alias (ty : Ty) (nominal : Bool) (name : String) (inner : Ty) :
    ty.resolved ≠ .aliasOf nominal name inner := by
  induction ty using Ty.resolved.induct with
  | case1 _ _ ty ih => exact ih
  | case2 ty h =>
    cases ty with
    | aliasOf nominal name ty => exact absurd rfl (h nominal name ty)
    | _ => exact fun h => by cases h

/-- A cast gives the alignment of its target when the value fits, and for a flat
value or a target without components only then. -/
theorem cast_aligned {source target : Ty} {v w : Value} (h : evalCast e v source target = .ok w) :
    (CastFits c target v → EncodesAligned c w target) ∧
      ((∃ av, v = .alignedValue av) ∨ target.resolved.Scalar →
        EncodesAligned c w target → CastFits c target v) := by
  have hsame : ∀ {ty : Ty},
      (Leaves (Fits c) ty v → EncodesAligned c v ty) ∧
        ((∃ av, v = .alignedValue av) ∨ ty.Scalar →
          EncodesAligned c v ty → Leaves (Fits c) ty v) := by
    intro ty
    refine ⟨aligned_of_leaves c ty v, fun hexact haligned => ?_⟩
    rcases hexact with ⟨av, rfl⟩ | hscalar
    · exact (flat_aligned_iff c ty av).mp haligned
    · exact (leaves_scalar _ hscalar v).mpr ((scalar_aligned_iff c hscalar v).mp haligned)
  rw [← encodesAligned_resolved]
  have hres := resolved_ne_alias target
  unfold evalCast at h
  unfold CastFits
  generalize target.resolved = ty at h hres ⊢
  cases ty with
  | field f =>
    have hcast : evalCast e v source (.field f) = .ok w := h
    have hfield := castField_aligned e hcast
    exact ⟨fun _ => hfield, fun _ _ => trivial⟩
  | unsigned maxval =>
    obtain ⟨n, rfl, hle, hn⟩ := castToUint_ok h
    have hiff := integer_aligned_iff (c := c) hle hn
    exact ⟨hiff.mpr, fun _ => hiff.mp⟩
  | enum name variants =>
    obtain ⟨n, hnumber, rfl⟩ := castToEnum_ok h
    have hiff := index_aligned_iff (c := c) name variants n
    refine ⟨fun h => hiff.mpr (h n hnumber), fun _ haligned m hm => ?_⟩
    rw [hnumber, Except.ok.injEq] at hm
    subst hm
    exact hiff.mp haligned
  | aliasOf nominal name ty => exact absurd rfl (hres nominal name ty)
  | boolean =>
    cases h
    exact hsame
  | point curve =>
    cases h
    exact hsame
  | bytes length =>
    cases h
    exact hsame
  | opaqueData name =>
    cases h
    exact hsame
  | vector len ty =>
    cases h
    exact hsame
  | tuple types =>
    cases h
    exact hsame
  | struct name fields =>
    cases h
    exact hsame
  | contract name =>
    cases h
    exact hsame
  | adt name =>
    cases h
    exact hsame
  | typeVar name =>
    cases h
    exact hsame
  | unknown =>
    cases h
    exact hsame

/-- A flat aggregate keeps the alignment of its source, so it fits where the two
types have one alignment. -/
theorem castFits_flat_iff {held : Ty → ℕ → Prop} {source target : Ty} {types : List Ty}
    {av : AlignedValue} (hflat : Flat c held source av)
    (htarget : target.resolved.components = some types) :
    CastFits c target (.alignedValue av) ↔ wireAlignment source = alignment target := by
  have hcast : CastFits c target (.alignedValue av) ↔
      EncodesAligned c (.alignedValue av) target.resolved := by
    rw [flat_aligned_iff]
    unfold CastFits
    cases hty : target.resolved with
    | tuple => exact Iff.rfl
    | vector => exact Iff.rfl
    | struct => exact Iff.rfl
    | _ => simp [hty, Ty.components] at htarget
  have henc : encodeTyped c (.alignedValue av) target.resolved = .ok av := by
    cases hty : target.resolved with
    | tuple => rfl
    | vector => rfl
    | struct => rfl
    | _ => simp [hty, Ty.components] at htarget
  have halign : alignment target.resolved = alignment target := alignmentAt_resolved id target
  rw [hcast, encodesAligned_flat_iff c henc, ← flat_alignment c held hflat, ← halign]
  constructor
  · rintro ⟨av', heq, h⟩
    cases heq
    exact h
  · exact fun h => ⟨av, rfl, h⟩

/-- Alignment is a function of the type: for the default of a type, for what the
encoder makes of a value, for a canonical flat value, and for what a cast makes
of a value, each as far as its condition goes. -/
theorem alignment_of_type (c : Codecs) (e : Elements c) :
    (∀ ty, (∃ v av, defaultValue e ty = .ok v ∧ encodeTyped c v ty = .ok av ∧
        av.alignment = alignment ty) ↔ Throughout DefaultKept ty) ∧
      (∀ ty v av, Leaves Carries ty v → encodeTyped c v ty = .ok av →
        (av.alignment = alignment ty ↔ Leaves KeepsAlignment ty v)) ∧
      (∀ ty av, Flat c (fun _ _ => True) ty av → av.alignment = alignment ty →
        (encodeTyped c (.alignedValue av) ty = .ok av ↔
          ∀ maxval, ty.resolved = .unsigned maxval → ∀ a ∈ av.value, a.length ≤ u128Bytes)) ∧
      (∀ source target v w, evalCast e v source target = .ok w →
        (CastFits c target v → EncodesAligned c w target) ∧
          ((∃ av, v = .alignedValue av) ∨ target.resolved.Scalar →
            EncodesAligned c w target → CastFits c target v)) ∧
      (∀ source target types av, Flat c (fun _ _ => True) source av →
        target.resolved.components = some types →
        (CastFits c target (.alignedValue av) ↔ wireAlignment source = alignment target)) :=
  ⟨default_alignment_iff e,
    fun ty v av hcarries henc => (encodeTyped_compared c ty v av hcarries henc).eq_iff,
    fun _ _ hflat halign => encodeTyped_flat_iff c hflat halign,
    fun _ _ _ _ hcast => cast_aligned e hcast,
    fun _ _ _ _ hflat htarget => castFits_flat_iff hflat htarget⟩

/-- Elements over the plain codecs. -/
def plainElements : Elements plainCodecs where
  zero f := List.replicate f.alignment.length []
  reencode_zero f := by simp [plainCodecs, plainCodec]
  identity curve := List.replicate curve.alignment.length []
  reencode_identity curve := by simp [plainCodecs, plainCodec]
  fromLeBytes f _ := List.replicate f.alignment.length []
  reencode_fromLeBytes f _ := by simp [plainCodecs, plainCodec]
  frFromLeBytes bytes := some (trim bytes)

/-- A structured pair of narrow numbers, cast to a wider one, and the default of
the wide type. -/
theorem alignment_of_type_pair :
    EncodesAligned plainCodecs (.tuple [.integer 7, .bool true]) (.tuple [.unsigned 65535, .boolean]) ∧
      ∃ v av, defaultValue plainElements (.tuple [.unsigned 65535, .boolean]) = .ok v ∧
        encodeTyped plainCodecs v (.tuple [.unsigned 65535, .boolean]) = .ok av ∧
        av.alignment = [.atom (.bytes 2), .atom (.bytes 1)] := by
  have hall := alignment_of_type plainCodecs plainElements
  constructor
  · refine (hall.2.2.2.1 (.tuple [.unsigned 255, .boolean]) _ _ _ rfl).1 ?_
    exact ⟨⟨by decide, 7, rfl, by decide, by decide⟩, ⟨1, rfl⟩, trivial⟩
  · exact (hall.1 (.tuple [.unsigned 65535, .boolean])).mpr
      ⟨(by decide : uintByteWidth 65535 < 2 ^ 32), trivial, trivial⟩

/-- A flat vector of bytes, cast to a vector of wider numbers, keeps its narrow
alignment, where the same vector in parts takes the wide one. -/
theorem flat_cast_keeps_width :
    Flat plainCodecs (fun _ _ => True) (.vector 1 (.unsigned 255)) ⟨[[7]], [.atom (.bytes 1)]⟩ ∧
      evalCast plainElements (.alignedValue ⟨[[7]], [.atom (.bytes 1)]⟩)
        (.vector 1 (.unsigned 255)) (.vector 1 (.unsigned 65535)) =
          .ok (.alignedValue ⟨[[7]], [.atom (.bytes 1)]⟩) ∧
      encodeTyped plainCodecs (.alignedValue ⟨[[7]], [.atom (.bytes 1)]⟩)
        (.vector 1 (.unsigned 65535)) = .ok ⟨[[7]], [.atom (.bytes 1)]⟩ ∧
      alignment (.vector 1 (.unsigned 65535)) = [.atom (.bytes 2)] ∧
      encodeTyped plainCodecs (.tuple [.integer 7]) (.vector 1 (.unsigned 65535)) =
        .ok ⟨[[7]], [.atom (.bytes 2)]⟩ := by
  refine ⟨?_, rfl, rfl, by decide, rfl⟩
  refine .vector 1 (.unsigned 255) [.single [7] (.bytes 1)] rfl ?_
  intro part hpart
  rw [List.mem_singleton] at hpart
  subst hpart
  exact .unsigned 255 7 (by decide) trivial

end Aligned

end MidnightRs.Compact
