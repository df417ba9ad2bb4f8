import MidnightRs.Interpreter

/-!
Which operations refuse a type. Only the check of a type, the default of a type and
the encoding at a type do, and none of them refuses a type whose parts all have
values; the other functions on values fail with other errors.
-/
namespace MidnightRs.Circuits

open MidnightRs.Compact

section Types

/-- A type that the loader and the run-time check let pass. -/
def Supported (ty : Ty) : Prop := unsupportedType ty = none

theorem supported_each {types : List Ty} :
    unsupportedEach types = none ↔ ∀ ty ∈ types, Supported ty := by
  induction types with
  | nil => simp [unsupportedEach]
  | cons ty types ih => simp [unsupportedEach, Supported, ih]

theorem supported_fields {fields : List (String × Ty)} :
    unsupportedFields fields = none ↔ ∀ field ∈ fields, Supported field.2 := by
  induction fields with
  | nil => simp [unsupportedFields]
  | cons field fields ih => simp [unsupportedFields, Supported, ih]

theorem anyUnknown_eq_false {types : List Ty} :
    anyUnknown types = false ↔ ∀ ty ∈ types, holdsUnknown ty = false := by
  induction types with
  | nil => simp [anyUnknown]
  | cons ty types ih => simp [anyUnknown, ih]

theorem fieldsUnknown_eq_false {fields : List (String × Ty)} :
    fieldsUnknown fields = false ↔ ∀ field ∈ fields, holdsUnknown field.2 = false := by
  induction fields with
  | nil => simp [fieldsUnknown]
  | cons field fields ih => simp [fieldsUnknown, ih]

theorem allExecutable_iff {types : List Ty} :
    AllExecutable types ↔ ∀ ty ∈ types, Executable ty := by
  induction types with
  | nil => simp [AllExecutable]
  | cons ty types ih => simp [AllExecutable, ih]

theorem fieldsExecutable_iff {fields : List (String × Ty)} :
    FieldsExecutable fields ↔ ∀ field ∈ fields, Executable field.2 := by
  induction fields with
  | nil => simp [FieldsExecutable]
  | cons field fields ih => simp [FieldsExecutable, ih]

/-- The checked types are those without a ledger type or a type variable. What the
check lets through and no value has is the unknown type. -/
theorem executable_iff (ty : Ty) : Executable ty ↔ Supported ty ∧ holdsUnknown ty = false := by
  induction ty using Ty.induct with
  | scalar ty hty =>
    cases ty with
    | vector => exact hty.elim
    | tuple => exact hty.elim
    | struct => exact hty.elim
    | aliasOf => exact hty.elim
    | _ => simp [Executable, Supported, unsupportedType, holdsUnknown]
  | vector len ty ih => exact ih
  | tuple types ih =>
    have hsupported : Supported (.tuple types) ↔ ∀ ty ∈ types, Supported ty := supported_each
    have hknown : holdsUnknown (.tuple types) = false ↔ ∀ ty ∈ types, holdsUnknown ty = false :=
      anyUnknown_eq_false
    rw [show Executable (.tuple types) ↔ AllExecutable types from Iff.rfl, allExecutable_iff,
      hsupported, hknown]
    exact ⟨fun h => ⟨fun ty hty => ((ih ty hty).mp (h ty hty)).1,
      fun ty hty => ((ih ty hty).mp (h ty hty)).2⟩,
      fun h ty hty => (ih ty hty).mpr ⟨h.1 ty hty, h.2 ty hty⟩⟩
  | struct name fields ih =>
    have hsupported : Supported (.struct name fields) ↔ ∀ field ∈ fields, Supported field.2 :=
      supported_fields
    have hknown : holdsUnknown (.struct name fields) = false ↔
        ∀ field ∈ fields, holdsUnknown field.2 = false := fieldsUnknown_eq_false
    rw [show Executable (.struct name fields) ↔ FieldsExecutable fields from Iff.rfl,
      fieldsExecutable_iff, hsupported, hknown]
    exact ⟨fun h => ⟨fun field hf => ((ih field hf).mp (h field hf)).1,
      fun field hf => ((ih field hf).mp (h field hf)).2⟩,
      fun h field hf => (ih field hf).mpr ⟨h.1 field hf, h.2 field hf⟩⟩
  | aliasOf nominal name ty ih => exact ih

theorem executable_resolved {ty : Ty} (h : Executable ty) : Executable ty.resolved := by
  induction ty using Ty.induct with
  | aliasOf nominal name ty ih => exact ih h
  | scalar ty hty =>
    cases ty with
    | aliasOf => exact hty.elim
    | _ => exact h
  | vector len ty ih => exact h
  | tuple types ih => exact h
  | struct name fields ih => exact h

end Types

section Plain

/-- The errors that refuse a type. A provider's error is its own. -/
def RefusesType : InterpreterError → Prop
  | .unsupportedType _ => True
  | .noValue _ => True
  | .notExecutable _ => True
  | .inField _ _ e => RefusesType e
  | _ => False

/-- An outcome that refuses no type. -/
def Plain {α : Type} (r : Result α) : Prop := ∀ e, r = .error e → ¬ RefusesType e

variable {α β : Type}

theorem plain_ok (a : α) : Plain (.ok a : Result α) := fun _ h => by cases h

theorem plain_error {e : InterpreterError} (h : ¬ RefusesType e) : Plain (.error e : Result α) := by
  intro e' h'
  cases h'
  exact h

theorem plain_bind {r : Result α} {f : α → Result β} (h : Plain r) (hf : ∀ a, Plain (f a)) :
    Plain (r >>= f) := by
  cases r with
  | error e => exact plain_error (h e rfl)
  | ok a => exact hf a

theorem plain_map {r : Result α} (h : Plain r) (f : α → β) : Plain (r.map f) := by
  cases r with
  | error e => exact plain_error (h e rfl)
  | ok a => exact plain_ok _

theorem plain_required (x : Option α) (what : String) : Plain (required x what) := by
  cases x with
  | none => exact plain_error not_false
  | some a => exact plain_ok a

theorem plain_ite {p : Prop} [Decidable p] {r r' : Result α} (h : Plain r) (h' : Plain r') :
    Plain (if p then r else r') := by
  by_cases hp : p
  · rw [if_pos hp]
    exact h
  · rw [if_neg hp]
    exact h'

end Plain

section Encodings

variable {c : Codecs}

theorem bytesAlignedValue_plain (bytes : Bytes) (length : ℕ) :
    Plain (bytesAlignedValue bytes length) :=
  plain_ite (plain_ok _) (plain_error not_false)

theorem encodeAs_plain {segments : List AlignmentSegment} (codec : Codec segments) (name : String)
    (v : Value) : Plain (encodeAs codec name v) := by
  cases v with
  | alignedValue av =>
    simp only [encodeAs]
    split
    · exact plain_ok _
    · exact plain_error not_false
  | _ => exact plain_error not_false

theorem checkUintRange_plain (n maxval : ℕ) : Plain (checkUintRange n maxval) :=
  plain_ite (plain_error not_false) (plain_ok _)

theorem encodeUnsigned_plain (maxval : ℕ) (v : Value) : Plain (encodeUnsigned maxval v) := by
  cases hv : valueToU128 v with
  | none =>
    simp only [encodeUnsigned, hv]
    exact plain_error not_false
  | some n =>
    have hrange := checkUintRange_plain n maxval
    cases hcheck : checkUintRange n maxval with
    | error e =>
      simp only [encodeUnsigned, hv, hcheck]
      exact plain_error (hrange e hcheck)
    | ok _ =>
      simp only [encodeUnsigned, hv, hcheck]
      exact bytesAlignedValue_plain _ _

theorem partsOf_plain {ty : Ty} {types : List Ty} (hty : ty.components = some types) (v : Value) :
    Plain (partsOf ty v) := by
  cases ty with
  | vector len ty =>
    cases v with
    | alignedValue av => exact plain_ok _
    | tuple elements => exact plain_ite (plain_ok _) (plain_error not_false)
    | _ => exact plain_error not_false
  | tuple types =>
    cases v with
    | alignedValue av => exact plain_ok _
    | void => exact plain_ite (plain_ok _) (plain_error not_false)
    | tuple elements => exact plain_ite (plain_ok _) (plain_error not_false)
    | _ => exact plain_error not_false
  | struct name fields =>
    have hsupplied : ∀ supplied (fields : List (String × Ty)),
        Plain (suppliedFields name supplied fields) := by
      intro supplied fields
      induction fields with
      | nil => exact plain_ok _
      | cons field fields ih =>
        unfold suppliedFields
        split
        · exact plain_error not_false
        · exact plain_map ih _
    cases v with
    | alignedValue av => exact plain_ok _
    | struct supplied => exact plain_ite (plain_map (hsupplied _ _) _) (plain_error not_false)
    | tuple elements => exact plain_ite (plain_ok _) (plain_error not_false)
    | _ => exact plain_error not_false
  | _ => cases hty

theorem encodeTuple_plain {types : List Ty} (h : ∀ ty ∈ types, ∀ v, Plain (encodeTyped c v ty)) :
    ∀ vals, Plain (encodeTuple c vals types) := by
  induction types with
  | nil => exact fun _ => plain_ok _
  | cons ty types ih =>
    obtain ⟨hty, htypes⟩ := List.forall_mem_cons.mp h
    intro vals
    cases vals with
    | nil => exact plain_ok _
    | cons v vals =>
      cases henc : encodeTyped c v ty with
      | error e =>
        simp only [encodeTuple, henc]
        exact plain_error (hty v e henc)
      | ok av =>
        simp only [encodeTuple, henc]
        exact plain_map (ih htypes vals) _

theorem encodeFields_plain {name : String} {fields : List (String × Ty)}
    (h : ∀ field ∈ fields, ∀ v, Plain (encodeTyped c v field.2)) :
    ∀ vals, Plain (encodeFields c name vals fields) := by
  induction fields with
  | nil => exact fun _ => plain_ok _
  | cons field fields ih =>
    obtain ⟨hty, htypes⟩ := List.forall_mem_cons.mp h
    intro vals
    cases vals with
    | nil => exact plain_ok _
    | cons v vals =>
      cases henc : encodeTyped c v field.2 with
      | error e =>
        simp only [encodeFields, henc]
        exact plain_error (hty v e henc)
      | ok av =>
        simp only [encodeFields, henc]
        exact plain_map (ih htypes vals) _

theorem encodeVector_plain {encode : Value → Result AlignedValue} (h : ∀ v, Plain (encode v)) :
    ∀ vals, Plain (encodeVector encode vals) := by
  intro vals
  induction vals with
  | nil => exact plain_ok _
  | cons v vals ih =>
    unfold encodeVector
    cases henc : encode v with
    | error e => exact plain_error (h v e henc)
    | ok av => exact plain_map ih _

theorem encodeParts_plain {encodeEach : List Value → Result (List AlignedValue)}
    {parts : Result Parts} (hparts : Plain parts) (h : ∀ vals, Plain (encodeEach vals)) :
    Plain (encodeParts encodeEach parts) := by
  cases parts with
  | error e => exact plain_error (hparts e rfl)
  | ok parts =>
    cases parts with
    | flat av => exact plain_ok _
    | each vals => exact plain_map (h vals) _

theorem encodeBytes_plain (length : ℕ) (v : Value) : Plain (encodeBytes length v) := by
  cases v with
  | alignedValue av => exact plain_ok _
  | void => exact bytesAlignedValue_plain _ _
  | _ => exact plain_error not_false

theorem encodeContract_plain (name : String) (v : Value) :
    Plain (encodeTyped c v (.contract name)) := by
  refine encodeParts_plain (partsOf_plain (show Ty.contractAddress.components = some _ from rfl) v)
    (encodeVector_plain (fun w => ?_))
  intro e he
  cases hbytes : encodeBytes 32 w with
  | ok av =>
    rw [hbytes] at he
    cases he
  | error e' =>
    rw [hbytes] at he
    cases he
    exact encodeBytes_plain 32 w e' hbytes

theorem encodeScalar_plain {ty : Ty} (hty : ty.Scalar) (h : Executable ty) (v : Value) :
    Plain (encodeTyped c v ty) := by
  cases ty with
  | boolean =>
    cases v with
    | alignedValue av =>
      simp only [encodeTyped, encodeBoolean]
      split
      · exact plain_ok _
      · exact plain_error not_false
    | bool b => exact plain_ok _
    | integer n => exact plain_ok _
    | _ => exact plain_error not_false
  | field f =>
    simp only [encodeTyped, encodeField]
    split
    · exact encodeAs_plain _ _ _
    · split
      · exact plain_ok _
      · exact plain_ok _
      · exact plain_error not_false
  | unsigned maxval => exact encodeUnsigned_plain _ _
  | point curve =>
    cases curve with
    | jubjub =>
      cases v with
      | alignedValue av => exact plain_ok _
      | void => exact plain_ok _
      | _ => exact plain_error not_false
    | _ => exact encodeAs_plain _ _ _
  | bytes length => exact encodeBytes_plain _ _
  | opaqueData name =>
    cases v with
    | alignedValue av => exact plain_ok _
    | void => exact plain_ok _
    | _ => exact plain_error not_false
  | enum name variants =>
    cases v with
    | integer n => exact plain_ite (plain_ok _) (plain_error not_false)
    | alignedValue av => exact plain_ok _
    | _ => exact plain_error not_false
  | contract name => exact encodeContract_plain _ _
  | adt => exact h.elim
  | typeVar => exact h.elim
  | unknown => exact h.elim
  | vector => exact hty.elim
  | tuple => exact hty.elim
  | struct => exact hty.elim
  | aliasOf => exact hty.elim

/-- The encoding at a type of values refuses values alone. -/
theorem encodeTyped_plain (ty : Ty) (h : Executable ty) : ∀ v, Plain (encodeTyped c v ty) := by
  induction ty using Ty.induct with
  | scalar ty hty => exact encodeScalar_plain hty h
  | vector len ty ih =>
    exact fun v => encodeParts_plain (partsOf_plain
      (show (Ty.vector len ty).components = some _ from rfl) v)
      (encodeVector_plain (ih h))
  | tuple types ih =>
    have hall := allExecutable_iff.mp h
    exact fun v => encodeParts_plain (partsOf_plain
      (show (Ty.tuple types).components = some _ from rfl) v)
      (encodeTuple_plain (fun ty hty => ih ty hty (hall ty hty)))
  | struct name fields ih =>
    have hall := fieldsExecutable_iff.mp h
    exact fun v => encodeParts_plain (partsOf_plain
      (show (Ty.struct name fields).components = some _ from rfl) v)
      (encodeFields_plain (fun field hf => ih field hf (hall field hf)))
  | aliasOf nominal name ty ih => exact ih h

mutual

theorem tryToAlignedValue_plain : ∀ v, Plain (tryToAlignedValue v)
  | .alignedValue _ => plain_ok _
  | .integer _ => plain_ok _
  | .bool _ => plain_ok _
  | .void => plain_ok _
  | .tuple elements => plain_map (tryToAlignedValues_plain elements) _
  | .struct _ => plain_error not_false

theorem tryToAlignedValues_plain : ∀ vs, Plain (tryToAlignedValues vs)
  | [] => plain_ok _
  | v :: vs =>
    plain_bind (tryToAlignedValue_plain v) (fun _ => plain_map (tryToAlignedValues_plain vs) _)

end

theorem irLength_plain (length : ℕ) : Plain (irLength length) :=
  plain_ite (plain_ok _) (plain_error not_false)

variable (elements : Elements c)

theorem defaultEach_plain {types : List Ty} (h : ∀ ty ∈ types, Plain (defaultValue elements ty)) :
    Plain (defaultEach elements types) := by
  induction types with
  | nil => exact plain_ok _
  | cons ty types ih =>
    obtain ⟨hty, htypes⟩ := List.forall_mem_cons.mp h
    exact plain_bind hty (fun v => plain_map (ih htypes) _)

/-- A type of values has a default, but for its lengths. -/
theorem defaultValue_plain (ty : Ty) (h : Executable ty) : Plain (defaultValue elements ty) := by
  induction ty using Ty.induct with
  | scalar ty hty =>
    cases ty with
    | bytes length =>
      exact plain_bind (irLength_plain length) (fun n => plain_map (bytesAlignedValue_plain _ _) _)
    | contract name =>
      exact plain_bind (bytesAlignedValue_plain _ _)
        (fun av => plain_map (encodeTyped_plain _ (by simp [Ty.contractAddress, Executable,
          FieldsExecutable]) _) _)
    | adt => exact h.elim
    | typeVar => exact h.elim
    | unknown => exact h.elim
    | vector => exact hty.elim
    | tuple => exact hty.elim
    | struct => exact hty.elim
    | aliasOf => exact hty.elim
    | _ => exact plain_ok _
  | vector len ty ih =>
    exact plain_bind (irLength_plain len) (fun n => plain_ite (plain_ok _) (plain_map (ih h) _))
  | tuple types ih =>
    have hall := allExecutable_iff.mp h
    have heach := defaultEach_plain elements (fun ty hty => ih ty hty (hall ty hty))
    unfold defaultValue
    split
    · exact plain_ok _
    · exact plain_map heach _
  | struct name fields ih =>
    have hall := fieldsExecutable_iff.mp h
    have heach : Plain (defaultEach elements (fields.map Prod.snd)) :=
      defaultEach_plain elements (List.forall_mem_map.mpr (fun f hf => ih f hf (hall f hf)))
    unfold defaultValue
    rw [defaultFields_eq]
    exact plain_bind heach (fun vals => plain_map (encodeTyped_plain _ h _) _)
  | aliasOf nominal name ty ih => exact ih h

end Encodings

section Casts

variable {c : Codecs} (elements : Elements c)

theorem numericValue_plain (v : Value) : Plain (numericValue v) := by
  unfold numericValue
  split
  · exact plain_ok _
  · exact plain_ok _
  · refine plain_bind (tryToAlignedValue_plain _) (fun av => ?_)
    split
    · exact plain_ok _
    · exact plain_error not_false

theorem valueToByteString_plain (v : Value) (length : ℕ) : Plain (valueToByteString v length) := by
  unfold valueToByteString
  split
  · exact plain_ite (plain_error not_false) (plain_ok _)
  · exact plain_error not_false

theorem paddedBytes_plain (v : Value) (length : ℕ) : Plain (paddedBytes v length) :=
  plain_map (valueToByteString_plain v length) _

theorem uintValue_plain (n : ℕ) : Plain (uintValue n) :=
  plain_ite (plain_ok _) (plain_error not_false)

theorem castToField_plain (v : Value) (source : Ty) : Plain (castToField elements v source) := by
  refine plain_bind ?_ (fun bytes => ?_)
  · split
    · exact plain_bind (irLength_plain _) (fun n => valueToByteString_plain v n)
    · exact plain_map (numericValue_plain v) _
  · split
    · exact plain_ok _
    · exact plain_error not_false

theorem castToUint_plain (v : Value) (source : Ty) (maxval : ℕ) :
    Plain (castToUint v source maxval) := by
  unfold castToUint
  split
  · exact plain_bind (irLength_plain _) (fun n => plain_bind (paddedBytes_plain v n)
      (fun bytes => plain_ite (plain_error not_false) (uintValue_plain _)))
  · exact plain_bind (numericValue_plain v)
      (fun n => plain_ite (plain_error not_false) (uintValue_plain _))
  · exact plain_bind (numericValue_plain v)
      (fun n => plain_ite (plain_error not_false) (uintValue_plain _))

/-- A cast refuses values, and pairs of types, but no type. -/
theorem evalCast_plain (v : Value) (source target : Ty) :
    Plain (evalCast elements v source target) := by
  unfold evalCast
  split
  · split
    · split
      · exact plain_bind (irLength_plain _) (fun n => plain_map (valueToByteString_plain v n) _)
      · exact plain_error not_false
    · exact castToField_plain elements v source
  · exact castToUint_plain v source _
  · exact plain_bind (numericValue_plain v)
      (fun n => plain_ite (plain_error not_false) (uintValue_plain _))
  · exact plain_ok _

end Casts

section Values

variable {c : Codecs} (crypto : Crypto c)

theorem evalLiteral_plain (literal : Literal) : Plain (evalLiteral crypto literal) := by
  cases literal with
  | bool b => exact plain_ok _
  | int n =>
    unfold evalLiteral
    refine plain_ite (plain_ok _) ?_
    dsimp only
    split
    · exact plain_ok _
    · exact plain_error not_false
  | bytes bytes => exact plain_map (bytesAlignedValue_plain _ _) _

theorem refuseForeignCast_plain (f : FieldType) : Plain (refuseForeignCast f) := by
  unfold refuseForeignCast
  split
  · exact plain_error not_false
  · exact plain_ok _

theorem foreignElement_plain (f : ForeignField) (v : Value) (what : String) :
    Plain (foreignElement (c := c) f v what) := by
  cases v with
  | alignedValue av =>
    simp only [foreignElement]
    split
    · exact plain_ok _
    · exact plain_error not_false
  | _ => exact plain_error not_false

theorem arithValues_plain (op : ArithOp) (ty : Ty) (lv rv : Value) :
    Plain (arithValues crypto op ty lv rv) := by
  unfold arithValues
  split
  · split
    · exact plain_bind (foreignElement_plain _ _ _) (fun l =>
        plain_bind (foreignElement_plain _ _ _) (fun r => plain_ok _))
    · exact plain_bind (plain_required _ _) (fun l =>
        plain_bind (plain_required _ _) (fun r => plain_ok _))
  · refine plain_bind (plain_required _ _) (fun l => plain_bind (plain_required _ _) (fun r => ?_))
    cases op with
    | add => exact uintValue_plain _
    | mul => exact uintValue_plain _
    | sub => exact plain_ite (plain_ok _) (plain_error not_false)
  · exact plain_error not_false

theorem fieldToBytes_plain (len : ℕ) (f : FieldType) (v : Value) :
    Plain (fieldToBytes crypto len f v) := by
  have hbytes : ∀ bytes len, Plain (fieldToBytes.toBytes bytes len) := by
    intro bytes len
    unfold fieldToBytes.toBytes
    split
    · exact plain_ok _
    · exact plain_error not_false
  refine plain_bind (irLength_plain len) (fun n => ?_)
  split
  · exact plain_bind (foreignElement_plain _ _ _) (fun element => hbytes _ _)
  · exact plain_bind (plain_required _ _) (fun fr => hbytes _ _)

theorem byteAt_plain (v : Value) (length i : ℕ) (what : String) : Plain (byteAt v length i what) :=
  plain_ite (plain_error not_false) (plain_map (paddedBytes_plain v length) _)

theorem indexedElement_plain (v : Value) (ty : Option Ty) (i : ℕ) (what : String) :
    Plain (indexedElement v ty i what) := by
  cases v with
  | tuple elements => exact plain_required _ _
  | alignedValue av =>
    refine plain_bind (plain_required _ _) (fun ty => ?_)
    split
    · exact plain_bind (irLength_plain _) (fun n => byteAt_plain _ _ _ _)
    · split
      · split
        · exact plain_error not_false
        · exact plain_ite (plain_error not_false) (plain_error not_false)
      · exact plain_map (plain_required _ _) _
  | _ => exact plain_error not_false

theorem elementsFrom_plain (v : Value) (ty : Option Ty) (what : String) (n : ℕ) :
    ∀ start, Plain (elementsFrom v ty what start n) := by
  induction n with
  | zero => exact fun _ => plain_ok _
  | succ n ih =>
    exact fun start => plain_bind (indexedElement_plain v ty start what)
      (fun x => plain_bind (ih (start + 1)) (fun xs => plain_ok _))

theorem sliceElements_plain (v : Value) (ty : Ty) (start len : ℕ) :
    Plain (sliceElements v ty start len) :=
  plain_map (elementsFrom_plain v _ _ len start) _

theorem spliceSpread_plain (inner : Value) (ty : Option Ty) (expected : ℕ) :
    Plain (spliceSpread inner ty expected) := by
  have hatoms : ∀ av n start, Plain (atomElements av start n) := by
    intro av n
    induction n with
    | zero => exact fun _ => plain_ok _
    | succ n ih =>
      exact fun start => plain_bind (plain_required _ _)
        (fun x => plain_bind (ih (start + 1)) (fun xs => plain_ok _))
  cases inner with
  | alignedValue av =>
    exact plain_ite (elementsFrom_plain _ _ _ _ _)
      (plain_ite (plain_error not_false) (hatoms _ _ _))
  | tuple elements => exact plain_ite (plain_error not_false) (plain_ok _)
  | _ => exact plain_error not_false

theorem vectorValueToBytes_plain (v : Value) (length : ℕ) :
    Plain (vectorValueToBytes v length) := by
  have helements : ∀ vs, Plain (bytesOfElements vs) := by
    intro vs
    induction vs with
    | nil => exact plain_ok _
    | cons v vs ih =>
      exact plain_bind (plain_bind (plain_required _ _)
        (fun n => plain_ite (plain_ok _) (plain_error not_false)))
        (fun b => plain_bind ih (fun bs => plain_ok _))
  have hatoms : ∀ atoms, Plain (bytesOfAtoms atoms) := by
    intro atoms
    induction atoms with
    | nil => exact plain_ok _
    | cons a atoms ih =>
      exact plain_ite (plain_error not_false) (plain_bind ih (fun bs => plain_ok _))
  cases v with
  | tuple elements => exact plain_ite (plain_error not_false) (helements _)
  | alignedValue av => exact plain_ite (hatoms _) (plain_error not_false)
  | _ => exact plain_error not_false

theorem fieldOf_plain (v : Value) (ty : Option Ty) (elt : String) : Plain (fieldOf v ty elt) := by
  cases v with
  | struct fields => exact plain_required _ _
  | alignedValue av =>
    simp only [fieldOf]
    split
    · refine plain_bind (plain_required _ _) (fun layout => plain_bind ?_
        (fun slice => plain_map (plain_required _ _) _))
      unfold fieldAtoms
      split
      · exact plain_ok _
      · exact plain_required _ _
    · exact plain_error not_false
  | _ => exact plain_error not_false

theorem byteRef_plain (v : Value) (ty : Ty) (i : ℕ) : Plain (byteRef v ty i) := by
  unfold byteRef
  split
  · exact plain_bind (irLength_plain _) (fun n => byteAt_plain _ _ _ _)
  · exact plain_error not_false

theorem bytesSlice_plain (v : Value) (ty : Ty) (start len : ℕ) :
    Plain (bytesSlice v ty start len) := by
  refine plain_bind (irLength_plain len) (fun n => ?_)
  split
  · exact plain_bind (irLength_plain _) (fun width => plain_ite (plain_error not_false)
      (plain_bind (paddedBytes_plain v width)
        (fun bytes => plain_map (bytesAlignedValue_plain _ _) _)))
  · exact plain_error not_false

theorem enumMember_plain (ty : Ty) (elt : String) : Plain (enumMember ty elt) := by
  unfold enumMember
  split
  · exact plain_ite (plain_ok _) (plain_error not_false)
  · exact plain_error not_false

end Values

section Typed

variable {c : Codecs} (crypto : Crypto c)

theorem valuesEqual_plain {ty : Ty} (h : Executable ty) (a b : Value) :
    Plain (valuesEqual (c := c) a b ty) :=
  plain_bind (encodeTyped_plain ty h a) (fun _ =>
    plain_bind (encodeTyped_plain ty h b) (fun _ => plain_ok _))

theorem maxSizeof_plain {ty : Ty} (h : Executable ty) : Plain (maxSizeof crypto ty) :=
  plain_bind (defaultValue_plain crypto.elements ty h) (fun v =>
    plain_bind (encodeTyped_plain ty h v) (fun _ =>
      plain_ite (plain_ok _) (plain_error not_false)))

theorem literalKey_plain (value bytes : ℕ) : Plain (literalKey (c := c) value bytes) :=
  plain_ite (encodeTyped_plain (.unsigned _) trivial _) (plain_error not_false)

theorem encodeInferred_plain (v : Value) {ty : Option Ty} (h : ∀ t, ty = some t → Executable t) :
    Plain (encodeInferred (c := c) v ty) := by
  unfold encodeInferred
  split
  · exact encodeTyped_plain _ (h _ rfl) _
  · exact encodeTyped_plain _ (h _ rfl) _
  · exact encodeTyped_plain _ (h _ rfl) _
  · exact plain_error not_false
  · exact tryToAlignedValue_plain v

variable {argTypes : List Ty} (h : ∀ ty ∈ argTypes, Executable ty)
include h

theorem encodeArgument_plain (i : ℕ) (v : Value) :
    Plain (encodeArgument (c := c) argTypes i v) := by
  unfold encodeArgument
  split
  · rename_i ty hty
    exact encodeTyped_plain ty (h ty (List.mem_of_getElem? hty)) v
  · exact tryToAlignedValue_plain v

theorem hashPreimage_plain (args : List Value) :
    ∀ i, Plain (hashPreimage crypto argTypes i args) := by
  induction args with
  | nil => exact fun _ => plain_ok _
  | cons v args ih =>
    refine fun i => plain_bind ?_ (fun av => plain_bind (ih (i + 1)) (fun rest => plain_ok _))
    unfold preimagePart
    split
    · exact encodeTyped_plain (.field .native) trivial _
    · exact encodeArgument_plain h i _

theorem fieldInputs_plain (args : List Value) :
    ∀ i, Plain (fieldInputs crypto argTypes i args) := by
  induction args with
  | nil => exact fun _ => plain_ok _
  | cons v args ih =>
    exact fun i => plain_bind (encodeArgument_plain h i v)
      (fun av => plain_bind (ih (i + 1)) (fun rest => plain_ok _))

/-- A native whose parameters have values refuses none of their types. -/
theorem builtin_plain (name : String) (args : List Value) {r : Result AlignedValue}
    (hr : builtin crypto name args argTypes = some r) : Plain r := by
  have harg : ∀ i, Plain (arg args i name) := fun i => plain_required _ _
  have harity : ∀ n, Plain (arity args n name) :=
    fun n => plain_ite (plain_ok _) (plain_error not_false)
  have hfield : ∀ i, Plain (fieldArg crypto args i name) :=
    fun i => plain_bind (harg i) (fun v => plain_required _ _)
  have hpoint : ∀ i, Plain (pointArg crypto args i name) :=
    fun i => plain_bind (harg i) (fun v => plain_required _ _)
  have hhash : ∀ i, Plain (hashArg crypto args i name) := by
    refine fun i => plain_bind (harg i) (fun v => ?_)
    split
    · exact plain_ok _
    · exact plain_error not_false
  have hencode : ∀ v, Plain (encodeArgument (c := c) argTypes 0 v) := encodeArgument_plain h 0
  unfold builtin at hr
  split at hr
  · cases hr
    exact plain_bind (harg 0) (fun v => plain_bind (hhash 1) (fun o =>
      plain_bind (hencode v) (fun av => plain_ok _)))
  · cases hr
    exact plain_bind (harg 0) (fun v => plain_bind (hfield 1) (fun o =>
      plain_bind (hencode v) (fun av => plain_ok _)))
  · cases hr
    exact plain_map (hashPreimage_plain crypto h args 0) _
  · cases hr
    exact plain_map (hashPreimage_plain crypto h args 0) _
  · cases hr
    exact plain_map (hashPreimage_plain crypto h args 0) _
  · cases hr
    exact plain_map (hfield 0) _
  · cases hr
    exact plain_bind (harity 2) (fun _ => plain_bind (hpoint 0) (fun p =>
      plain_bind (hfield 1) (fun s => plain_ok _)))
  · cases hr
    exact plain_bind (harity 2) (fun _ => plain_bind (hpoint 0) (fun p =>
      plain_bind (hpoint 1) (fun q => plain_ok _)))
  · cases hr
    exact plain_map (hpoint 0) _
  · cases hr
    exact plain_bind (harg 0) (fun v => plain_bind (hencode v) (fun av => plain_ok _))
  · cases hr
    exact plain_map (hpoint 0) _
  · cases hr
    exact plain_map (hpoint 0) _
  · cases hr
    exact plain_bind (harity 2) (fun _ => plain_bind (hfield 0) (fun x =>
      plain_bind (hfield 1) (fun y => plain_required _ _)))
  · cases hr
    exact plain_map (fieldInputs_plain crypto h args 0) _
  · cases hr
    exact plain_map (hhash 0) _
  · cases hr
    exact plain_map (hfield 0) _
  · obtain ⟨answer, -, rfl⟩ := Option.map_eq_some_iff.mp hr
    cases answer with
    | error e => exact plain_error not_false
    | ok av => exact plain_ok _

end Typed

end MidnightRs.Circuits
