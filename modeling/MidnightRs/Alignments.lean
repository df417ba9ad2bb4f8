import MidnightRs.CompactLayout

/-!
The alignment of a type. It is a function of the type alone, but the wire narrows
a length to 32 bits, and void stands for one opaque atom wherever it is taken.
Each encoding is compared with the alignment of its type, part by part.
-/
namespace MidnightRs.Compact

section Types

mutual

/-- A type whose parts all have values. -/
def Executable : Ty → Prop
  | .vector _ ty => Executable ty
  | .tuple types => AllExecutable types
  | .struct _ fields => FieldsExecutable fields
  | .aliasOf _ _ ty => Executable ty
  | .boolean => True
  | .field _ => True
  | .unsigned _ => True
  | .point _ => True
  | .bytes _ => True
  | .opaqueData _ => True
  | .enum _ _ => True
  | .contract _ => True
  | .adt _ => False
  | .typeVar _ => False
  | .unknown => False

def AllExecutable : List Ty → Prop
  | [] => True
  | ty :: types => Executable ty ∧ AllExecutable types

def FieldsExecutable : List (String × Ty) → Prop
  | [] => True
  | (_, ty) :: fields => Executable ty ∧ FieldsExecutable fields

end

/-- The types without components. -/
def Ty.Scalar : Ty → Prop
  | .vector _ _ => False
  | .tuple _ => False
  | .struct _ _ => False
  | .aliasOf _ _ _ => False
  | _ => True

section Induction

variable (P : Ty → Prop) (scalar : ∀ ty, ty.Scalar → P ty)
  (vector : ∀ len ty, P ty → P (.vector len ty))
  (tuple : ∀ types, (∀ ty ∈ types, P ty) → P (.tuple types))
  (struct : ∀ name fields, (∀ field ∈ fields, P field.2) → P (.struct name fields))
  (aliasOf : ∀ nominal name ty, P ty → P (.aliasOf nominal name ty))
include scalar vector tuple struct aliasOf

mutual

theorem Ty.induct : ∀ ty, P ty
  | .vector len ty => vector len ty (Ty.induct ty)
  | .tuple types => tuple types (inductEach types)
  | .struct name fields => struct name fields (inductFields fields)
  | .aliasOf nominal name ty => aliasOf nominal name ty (Ty.induct ty)
  | .boolean => scalar _ trivial
  | .field _ => scalar _ trivial
  | .unsigned _ => scalar _ trivial
  | .point _ => scalar _ trivial
  | .bytes _ => scalar _ trivial
  | .opaqueData _ => scalar _ trivial
  | .enum _ _ => scalar _ trivial
  | .contract _ => scalar _ trivial
  | .adt _ => scalar _ trivial
  | .typeVar _ => scalar _ trivial
  | .unknown => scalar _ trivial

theorem inductEach : ∀ types : List Ty, ∀ ty ∈ types, P ty
  | [] => List.forall_mem_nil P
  | ty :: types => List.forall_mem_cons.mpr ⟨Ty.induct ty, inductEach types⟩

theorem inductFields : ∀ fields : List (String × Ty), ∀ field ∈ fields, P field.2
  | [] => List.forall_mem_nil _
  | (_, ty) :: fields => List.forall_mem_cons.mpr ⟨Ty.induct ty, inductFields fields⟩

end

end Induction

end Types

section Alignment

def fieldAlignment (f : FieldType) : List AlignmentSegment :=
  match ForeignField.of f with
  | some foreign => foreign.alignment
  | none => [.atom .field]

def opaqueAlignment (name : String) : List AlignmentSegment :=
  if name = "JubjubPoint" then Curve.alignment .jubjub
  else if name = "Scalar<BLS12-381>" then [.atom .field]
  else [.atom .compress]

variable (width : ℕ → ℕ)

mutual

/-- The alignment of a type, with its lengths as `width` records them. -/
def alignmentAt : Ty → List AlignmentSegment
  | .boolean => [.atom (.bytes 1)]
  | .field f => fieldAlignment f
  | .unsigned maxval => [.atom (.bytes (width (uintByteWidth maxval)))]
  | .point curve => curve.alignment
  | .bytes length => [.atom (.bytes (width length))]
  | .opaqueData name => opaqueAlignment name
  | .vector len ty => (List.replicate len (alignmentAt ty)).flatten
  | .tuple types => alignmentAtEach types
  | .struct _ fields => alignmentAtFields fields
  | .enum _ _ => [.atom (.bytes 1)]
  | .aliasOf _ _ ty => alignmentAt ty
  | .contract _ => [.atom (.bytes 32)]
  | .adt _ => []
  | .typeVar _ => []
  | .unknown => []

def alignmentAtEach : List Ty → List AlignmentSegment
  | [] => []
  | ty :: types => alignmentAt ty ++ alignmentAtEach types

def alignmentAtFields : List (String × Ty) → List AlignmentSegment
  | [] => []
  | (_, ty) :: fields => alignmentAt ty ++ alignmentAtFields fields

end

/-- The alignment that a type declares. -/
def alignment (ty : Ty) : List AlignmentSegment := alignmentAt id ty

/-- The alignment that the encoder writes for a type. -/
def wireAlignment (ty : Ty) : List AlignmentSegment := alignmentAt asU32 ty

theorem alignmentAtFields_eq (fields : List (String × Ty)) :
    alignmentAtFields width fields = alignmentAtEach width (fields.map Prod.snd) := by
  induction fields with
  | nil => rfl
  | cons field fields ih => simp only [alignmentAtFields, ih, List.map_cons, alignmentAtEach]

theorem alignmentAtEach_replicate (n : ℕ) (ty : Ty) :
    alignmentAtEach width (List.replicate n ty) =
      (List.replicate n (alignmentAt width ty)).flatten := by
  induction n with
  | zero => rfl
  | succ n ih => simp only [List.replicate_succ, alignmentAtEach, ih, List.flatten_cons]

theorem alignmentAt_components {ty : Ty} {types : List Ty} (h : ty.components = some types) :
    alignmentAt width ty = alignmentAtEach width types := by
  cases ty with
  | tuple types' =>
    obtain rfl := Option.some.inj h
    rfl
  | vector len ty =>
    obtain rfl := Option.some.inj h
    exact (alignmentAtEach_replicate width len ty).symm
  | struct name fields =>
    obtain rfl := Option.some.inj h
    exact alignmentAtFields_eq width fields
  | _ => cases h

theorem alignmentAt_resolved (ty : Ty) : alignmentAt width ty.resolved = alignmentAt width ty := by
  induction ty using Ty.resolved.induct with
  | case1 nominal name ty ih => exact ih
  | case2 ty h =>
    cases ty with
    | aliasOf nominal name ty => exact absurd rfl (h nominal name ty)
    | _ => rfl

/-- Parts that each have an alignment together have the alignment of the types. -/
theorem concat_alignmentAt {types : List Ty} {parts : List AlignedValue}
    (hlen : parts.length = types.length)
    (h : ∀ p ∈ types.zip parts, p.2.alignment = alignmentAt width p.1) :
    (AlignedValue.concat parts).alignment = alignmentAtEach width types := by
  induction types generalizing parts with
  | nil =>
    obtain rfl := List.length_eq_zero_iff.mp hlen
    rfl
  | cons ty types ih =>
    cases parts with
    | nil => cases hlen
    | cons part parts =>
      have hpart : part.alignment = alignmentAt width ty := h (ty, part) List.mem_cons_self
      have hrest := ih (Nat.succ.inj hlen) (fun p hp => h p (List.mem_cons_of_mem _ hp))
      simp only [AlignedValue.concat, List.map_cons, List.flatten_cons] at hrest ⊢
      rw [hpart, hrest, alignmentAtEach]

/-- A canonical flat value carries what the encoder writes for its type. -/
theorem flat_alignment (c : Codecs) (held : Ty → ℕ → Prop) {ty : Ty} {av : AlignedValue}
    (h : Flat c held ty av) : av.alignment = wireAlignment ty := by
  unfold wireAlignment
  induction h with
  | boolean b => rfl
  | unsigned maxval n hle hheld => rfl
  | native f hf a => simp only [AlignedValue.single, alignmentAt, fieldAlignment, hf]
  | foreign f foreign hf atoms ha => simp only [alignmentAt, fieldAlignment, hf]
  | bytes length a ha => rfl
  | enum name variants n hn hbyte => rfl
  | jubjub x y => rfl
  | point curve hcurve atoms ha => rfl
  | opaquePoint x y => rfl
  | opaqueScalar a => rfl
  | opaqueData name hpoint hscalar a =>
    simp only [AlignedValue.single, alignmentAt, opaqueAlignment, hpoint, hscalar, if_false]
  | tuple types parts hlen each ih => exact concat_alignmentAt asU32 hlen ih
  | vector len ty parts hlen each ih =>
    have hty : (Ty.vector len ty).components = some (List.replicate len ty) := rfl
    rw [alignmentAt_components asU32 hty]
    refine concat_alignmentAt asU32 (hlen.trans List.length_replicate.symm) ?_
    exact mem_parts_of_zip (P := fun ty part => part.alignment = alignmentAt asU32 ty) ih
  | struct name fields parts hlen each ih =>
    have hty : (Ty.struct name fields).components = some (fields.map Prod.snd) := rfl
    rw [alignmentAt_components asU32 hty]
    exact concat_alignmentAt asU32 (by simpa using hlen) ih
  | aliasOf nominal name ty av hflat ih => exact ih
  | contract name av hflat ih => exact ih

end Alignment

section Compared

/-- An encoding beside an alignment. It has no fewer opaque atoms, as many atoms
where the opaque ones are equal in number, and agrees exactly on a condition. -/
structure Compared (got want : List AlignmentSegment) (agree : Prop) : Prop where
  count_le : want.count (.atom .compress) ≤ got.count (.atom .compress)
  length_eq : want.count (.atom .compress) = got.count (.atom .compress) →
    got.length = want.length
  eq_iff : got = want ↔ agree

theorem compared_refl (a : List AlignmentSegment) {agree : Prop} (h : agree) :
    Compared a a agree :=
  ⟨Nat.le_refl _, fun _ => rfl, iff_of_true rfl h⟩

theorem Compared.congr {got want : List AlignmentSegment} {p q : Prop} (h : Compared got want p)
    (hpq : p ↔ q) : Compared got want q :=
  ⟨h.count_le, h.length_eq, h.eq_iff.trans hpq⟩

/-- More opaque atoms in one part are not made up for in another. -/
theorem Compared.append {got₁ want₁ got₂ want₂ : List AlignmentSegment} {p q : Prop}
    (h₁ : Compared got₁ want₁ p) (h₂ : Compared got₂ want₂ q) :
    Compared (got₁ ++ got₂) (want₁ ++ want₂) (p ∧ q) := by
  have hle₁ := h₁.count_le
  have hle₂ := h₂.count_le
  refine ⟨?_, ?_, ?_⟩
  · simp only [List.count_append]
    omega
  · intro hcount
    simp only [List.count_append] at hcount
    have hlen₁ := h₁.length_eq (by omega)
    have hlen₂ := h₂.length_eq (by omega)
    simp only [List.length_append, hlen₁, hlen₂]
  · constructor
    · intro heq
      have hcount := congrArg (List.count (AlignmentSegment.atom .compress)) heq
      simp only [List.count_append] at hcount
      obtain ⟨hfirst, hsecond⟩ := List.append_inj heq (h₁.length_eq (by omega))
      exact ⟨h₁.eq_iff.mp hfirst, h₂.eq_iff.mp hsecond⟩
    · rintro ⟨hp, hq⟩
      rw [h₁.eq_iff.mpr hp, h₂.eq_iff.mpr hq]

theorem compared_bytes (n : ℕ) :
    Compared [.atom (.bytes (asU32 n))] [.atom (.bytes n)] (n < 2 ^ 32) := by
  refine ⟨by simp, fun _ => rfl, ?_⟩
  simp only [List.cons.injEq, AlignmentSegment.atom.injEq, AlignmentAtom.bytes.injEq, and_true]
  unfold asU32
  omega

/-- One opaque atom is no layout with fields in it. -/
theorem compared_compress {want : List AlignmentSegment}
    (h : want.count (.atom .compress) = 0) : Compared [.atom .compress] want False := by
  refine ⟨h ▸ Nat.zero_le _, fun hcount => ?_, ?_⟩
  · rw [h] at hcount
    cases hcount
  · refine iff_of_false (fun heq => ?_) not_false
    subst want
    cases h

end Compared

section Throughout

variable (P : Ty → Prop)

mutual

/-- Whether the scalars and the vectors in a type are of a kind. The element of
an empty vector is not in it. -/
def Throughout : Ty → Prop
  | .vector len ty => P (.vector len ty) ∧ (len = 0 ∨ Throughout ty)
  | .tuple types => ThroughoutEach types
  | .struct _ fields => ThroughoutFields fields
  | .aliasOf _ _ ty => Throughout ty
  | .boolean => P .boolean
  | .field f => P (.field f)
  | .unsigned maxval => P (.unsigned maxval)
  | .point curve => P (.point curve)
  | .bytes length => P (.bytes length)
  | .opaqueData name => P (.opaqueData name)
  | .enum name variants => P (.enum name variants)
  | .contract name => P (.contract name)
  | .adt name => P (.adt name)
  | .typeVar name => P (.typeVar name)
  | .unknown => P .unknown

def ThroughoutEach : List Ty → Prop
  | [] => True
  | ty :: types => Throughout ty ∧ ThroughoutEach types

def ThroughoutFields : List (String × Ty) → Prop
  | [] => True
  | (_, ty) :: fields => Throughout ty ∧ ThroughoutFields fields

end

theorem throughout_scalar {ty : Ty} (h : ty.Scalar) : Throughout P ty ↔ P ty := by
  cases ty <;> first | exact Iff.rfl | exact h.elim

theorem throughoutFields_iff (fields : List (String × Ty)) :
    ThroughoutFields P fields ↔ ThroughoutEach P (fields.map Prod.snd) := by
  induction fields with
  | nil => exact Iff.rfl
  | cons field fields ih => simp only [ThroughoutFields, ih, List.map_cons, ThroughoutEach]

theorem throughoutEach_replicate (n : ℕ) (ty : Ty) :
    ThroughoutEach P (List.replicate n ty) ↔ n = 0 ∨ Throughout P ty := by
  induction n with
  | zero => simp [ThroughoutEach]
  | succ n ih =>
    simp only [List.replicate_succ, ThroughoutEach, ih]
    constructor
    · exact fun h => .inr h.1
    · intro h
      rcases h with h | h
      · omega
      · exact ⟨h, .inr h⟩

end Throughout

section Narrow

/-- A length that the wire records as it is. -/
def NarrowLength : Ty → Prop
  | .unsigned maxval => uintByteWidth maxval < 2 ^ 32
  | .bytes length => length < 2 ^ 32
  | _ => True

def Narrow (ty : Ty) : Prop := Throughout NarrowLength ty

/-- The encoder writes the declared alignment of narrow types, and of no others. -/
theorem wire_compared (ty : Ty) : Compared (wireAlignment ty) (alignment ty) (Narrow ty) := by
  unfold wireAlignment alignment Narrow
  have heach : ∀ types : List Ty, (∀ ty ∈ types, Compared (alignmentAt asU32 ty)
      (alignmentAt id ty) (Throughout NarrowLength ty)) →
      Compared (alignmentAtEach asU32 types) (alignmentAtEach id types)
        (ThroughoutEach NarrowLength types) := by
    intro types
    induction types with
    | nil => exact fun _ => compared_refl _ trivial
    | cons ty types ih =>
      intro h
      obtain ⟨hty, htypes⟩ := List.forall_mem_cons.mp h
      exact hty.append (ih htypes)
  induction ty using Ty.induct with
  | scalar ty hty =>
    refine Compared.congr ?_ (throughout_scalar NarrowLength hty).symm
    cases ty with
    | unsigned maxval => exact compared_bytes _
    | bytes length => exact compared_bytes length
    | vector => exact hty.elim
    | tuple => exact hty.elim
    | struct => exact hty.elim
    | aliasOf => exact hty.elim
    | _ => exact compared_refl _ trivial
  | vector len ty ih =>
    have hall := heach (List.replicate len ty) (fun ty' h => List.eq_of_mem_replicate h ▸ ih)
    rw [alignmentAtEach_replicate, alignmentAtEach_replicate] at hall
    refine hall.congr ?_
    rw [throughoutEach_replicate]
    exact ⟨fun h => ⟨trivial, h⟩, And.right⟩
  | tuple types ih => exact heach types ih
  | struct name fields ih =>
    have hall := heach (fields.map Prod.snd) (List.forall_mem_map.mpr ih)
    rw [← alignmentAtFields_eq, ← alignmentAtFields_eq] at hall
    exact hall.congr (throughoutFields_iff NarrowLength fields).symm
  | aliasOf nominal name ty ih => exact ih

end Narrow

section Leaves

variable (P : Ty → Value → Prop)

mutual

/-- Whether each part of a value is of a kind at its type. A value that is flat,
or is not taken apart, is one part. -/
def Leaves : Ty → Value → Prop
  | .vector len ty, v =>
    match vectorParts len ty v with
    | .ok (.each vals) => ∀ w ∈ vals, Leaves ty w
    | _ => P (.vector len ty) v
  | .tuple types, v =>
    match tupleParts types v with
    | .ok (.each vals) => LeavesEach types vals
    | _ => P (.tuple types) v
  | .struct name fields, v =>
    match structParts name fields v with
    | .ok (.each vals) => LeavesFields fields vals
    | _ => P (.struct name fields) v
  | .aliasOf _ _ ty, v => Leaves ty v
  | .boolean, v => P .boolean v
  | .field f, v => P (.field f) v
  | .unsigned maxval, v => P (.unsigned maxval) v
  | .point curve, v => P (.point curve) v
  | .bytes length, v => P (.bytes length) v
  | .opaqueData name, v => P (.opaqueData name) v
  | .enum name variants, v => P (.enum name variants) v
  | .contract name, v => P (.contract name) v
  | .adt name, v => P (.adt name) v
  | .typeVar name, v => P (.typeVar name) v
  | .unknown, v => P .unknown v

def LeavesEach : List Ty → List Value → Prop
  | ty :: types, v :: vals => Leaves ty v ∧ LeavesEach types vals
  | _, _ => True

def LeavesFields : List (String × Ty) → List Value → Prop
  | (_, ty) :: fields, v :: vals => Leaves ty v ∧ LeavesFields fields vals
  | _, _ => True

end

theorem leaves_scalar {ty : Ty} (h : ty.Scalar) (v : Value) : Leaves P ty v ↔ P ty v := by
  cases ty <;> first | exact Iff.rfl | exact h.elim

theorem leavesFields_iff (fields : List (String × Ty)) (vals : List Value) :
    LeavesFields P fields vals ↔ LeavesEach P (fields.map Prod.snd) vals := by
  induction fields generalizing vals with
  | nil => cases vals <;> exact Iff.rfl
  | cons field fields ih =>
    cases vals with
    | nil => exact Iff.rfl
    | cons v vals => simp only [LeavesFields, ih, List.map_cons, LeavesEach]

theorem leavesEach_replicate (ty : Ty) (vals : List Value) :
    LeavesEach P (List.replicate vals.length ty) vals ↔ ∀ w ∈ vals, Leaves P ty w := by
  induction vals with
  | nil => simp [LeavesEach]
  | cons v vals ih =>
    simp only [List.length_cons, List.replicate_succ, LeavesEach, ih, List.forall_mem_cons]

/-- How an aggregate takes a value apart. -/
def partsOf : Ty → Value → Except InterpreterError Parts
  | .vector len ty, v => vectorParts len ty v
  | .tuple types, v => tupleParts types v
  | .struct name fields, v => structParts name fields v
  | ty, v => .error (.cannotEncode v ty)

theorem tupleParts_length {types : List Ty} {v : Value} {vals : List Value}
    (h : tupleParts types v = .ok (.each vals)) : vals.length = types.length := by
  unfold tupleParts at h
  split at h
  · cases h
  · split at h <;> cases h
  · split at h
    · rename_i hlen
      cases h
      exact hlen
    · cases h
  · cases h

theorem vectorParts_length {len : ℕ} {ty : Ty} {v : Value} {vals : List Value}
    (h : vectorParts len ty v = .ok (.each vals)) : vals.length = len := by
  unfold vectorParts at h
  split at h
  · cases h
  · split at h
    · rename_i hlen
      cases h
      exact hlen
    · cases h
  · cases h

section Components

variable {ty : Ty} {types : List Ty} (hty : ty.components = some types) {v : Value}
include hty

theorem partsOf_length {vals : List Value} (h : partsOf ty v = .ok (.each vals)) :
    vals.length = types.length := by
  cases ty with
  | tuple types' =>
    obtain rfl := Option.some.inj hty
    exact tupleParts_length h
  | vector len ty =>
    obtain rfl := Option.some.inj hty
    rw [List.length_replicate]
    exact vectorParts_length h
  | struct name fields =>
    obtain rfl := Option.some.inj hty
    rw [List.length_map]
    exact structParts_length name fields v vals h
  | _ => cases hty

/-- A value that is taken apart has the leaves of its parts. -/
theorem leaves_each {vals : List Value} (h : partsOf ty v = .ok (.each vals)) :
    Leaves P ty v ↔ LeavesEach P types vals := by
  have hlen := partsOf_length hty h
  cases ty with
  | tuple types' =>
    obtain rfl := Option.some.inj hty
    simp only [partsOf] at h
    simp only [Leaves, h]
  | vector len ty =>
    obtain rfl := Option.some.inj hty
    simp only [partsOf] at h
    rw [List.length_replicate] at hlen
    subst hlen
    simp only [Leaves, h, leavesEach_replicate]
  | struct name fields =>
    obtain rfl := Option.some.inj hty
    simp only [partsOf] at h
    simp only [Leaves, h, leavesFields_iff]
  | _ => cases hty

/-- A value that is not taken apart is a leaf of its own. -/
theorem leaves_whole (h : ∀ vals, partsOf ty v ≠ .ok (.each vals)) :
    Leaves P ty v ↔ P ty v := by
  cases ty with
  | tuple types' =>
    simp only [Leaves]
    split
    · rename_i vals hvals
      exact absurd hvals (h vals)
    · exact Iff.rfl
  | vector len ty =>
    simp only [Leaves]
    split
    · rename_i vals hvals
      exact absurd hvals (h vals)
    · exact Iff.rfl
  | struct name fields =>
    simp only [Leaves]
    split
    · rename_i vals hvals
      exact absurd hvals (h vals)
    · exact Iff.rfl
  | _ => cases hty

end Components

end Leaves

section Encodings

variable (c : Codecs)

section Components

variable {ty : Ty} {types : List Ty} (hty : ty.components = some types) {v : Value}
include hty

theorem encodeTyped_each {vals : List Value} (h : partsOf ty v = .ok (.each vals))
    (av : AlignedValue) :
    encodeTyped c v ty = .ok av ↔
      ∃ parts, encodeTuple c vals types = .ok parts ∧ .concat parts = av := by
  have hlen := partsOf_length hty h
  have hmap : ∀ x : Except InterpreterError (List AlignedValue),
      x.map AlignedValue.concat = .ok av ↔ ∃ parts, x = .ok parts ∧ .concat parts = av := by
    intro x
    cases x <;> simp [Except.map]
  cases ty with
  | tuple types' =>
    obtain rfl := Option.some.inj hty
    simp only [partsOf] at h
    simp only [encodeTyped, h, encodeParts, hmap]
  | vector len ty =>
    obtain rfl := Option.some.inj hty
    simp only [partsOf] at h
    rw [List.length_replicate] at hlen
    subst hlen
    simp only [encodeTyped, h, encodeParts, hmap, encodeVector_eq]
  | struct name fields =>
    obtain rfl := Option.some.inj hty
    simp only [partsOf] at h
    simp only [encodeTyped, h, encodeParts, hmap, encodeFields_ok_iff]
  | _ => cases hty

/-- An aggregate is taken whole when it is flat, or void for the empty tuple. -/
theorem encodeTyped_whole (h : ∀ vals, partsOf ty v ≠ .ok (.each vals)) {av : AlignedValue}
    (henc : encodeTyped c v ty = .ok av) :
    v = .alignedValue av ∨ v = .void ∧ types = [] ∧ av = .unit := by
  have hparts : partsOf ty v = .ok (.flat av) := by
    have hencoded : ∀ (f : List Value → Except InterpreterError (List AlignedValue))
        (x : Except InterpreterError Parts), (∀ vals, x ≠ .ok (.each vals)) →
        encodeParts f x = .ok av → x = .ok (.flat av) := by
      intro f x hx hav
      match x, hx, hav with
      | .ok (.flat av), _, hav => exact congrArg _ (congrArg _ (Except.ok.inj hav))
      | .ok (.each vals), hx, _ => exact absurd rfl (hx vals)
      | .error e, _, hav => cases hav
    cases ty with
    | tuple types' => exact hencoded _ _ h henc
    | vector len ty => exact hencoded _ _ h henc
    | struct name fields => exact hencoded _ _ h henc
    | _ => cases hty
  clear henc h
  cases ty with
  | tuple types' =>
    obtain rfl := Option.some.inj hty
    simp only [partsOf, tupleParts] at hparts
    split at hparts
    · cases hparts
      exact .inl rfl
    · split at hparts
      · rename_i hempty
        cases hparts
        exact .inr ⟨rfl, List.isEmpty_iff.mp hempty, rfl⟩
      · cases hparts
    · split at hparts <;> cases hparts
    · cases hparts
  | vector len ty =>
    simp only [partsOf, vectorParts] at hparts
    split at hparts
    · cases hparts
      exact .inl rfl
    · split at hparts <;> cases hparts
    · cases hparts
  | struct name fields =>
    have hmap : ∀ x : Except InterpreterError (List Value), x.map Parts.each ≠ .ok (.flat av) := by
      intro x
      cases x <;> simp [Except.map]
    simp only [partsOf, structParts] at hparts
    split at hparts
    · cases hparts
      exact .inl rfl
    · split at hparts
      · exact absurd hparts (hmap _)
      · cases hparts
    · split at hparts <;> cases hparts
    · cases hparts
  | _ => cases hty

end Components

/-- The types that take a flat value as it is. -/
def PassesThrough : Ty → Prop
  | .boolean => False
  | .unsigned _ => False
  | .bytes _ => False
  | .field f => ForeignField.of f = none
  | .point curve => curve = .jubjub
  | _ => True

/-- A flat value at such a type carries what the encoder writes for it. -/
def Carries (ty : Ty) (v : Value) : Prop :=
  PassesThrough ty → ∀ av, v = .alignedValue av → av.alignment = wireAlignment ty

/-- The types whose values are field atoms, which void does not give. -/
def OfFields : Ty → Prop
  | .point curve => curve = .jubjub
  | .opaqueData name => name = "JubjubPoint" ∨ name = "Scalar<BLS12-381>"
  | _ => False

/-- A narrow type, and no void where the type has fields. -/
def KeepsAlignment (ty : Ty) (v : Value) : Prop := Narrow ty ∧ (v = .void → ¬ OfFields ty)

theorem opaque_compared (name : String) :
    Compared [.atom .compress] (opaqueAlignment name) (¬ OfFields (.opaqueData name)) := by
  unfold opaqueAlignment OfFields
  by_cases hpoint : name = "JubjubPoint"
  · rw [if_pos hpoint]
    exact (compared_compress (by decide)).congr (by simp [hpoint])
  · by_cases hscalar : name = "Scalar<BLS12-381>"
    · rw [if_neg hpoint, if_pos hscalar]
      exact (compared_compress (by decide)).congr (by simp [hscalar])
    · rw [if_neg hpoint, if_neg hscalar]
      exact compared_refl _ (by simp [hpoint, hscalar])

theorem bytesAlignedValue_alignment {bytes : Bytes} {length : ℕ} {av : AlignedValue}
    (h : bytesAlignedValue bytes length = .ok av) :
    av.alignment = [.atom (.bytes (asU32 length))] := by
  unfold bytesAlignedValue at h
  split at h
  · cases h
    rfl
  · cases h

theorem encodeBoolean_alignment {v : Value} {av : AlignedValue} (h : encodeBoolean v = .ok av) :
    av.alignment = [.atom (.bytes 1)] := by
  unfold encodeBoolean at h
  split at h
  · cases h
    rfl
  · cases h
    rfl
  · split at h <;> cases h
    rfl
  · cases h

theorem encodeUnsigned_alignment {maxval : ℕ} {v : Value} {av : AlignedValue}
    (h : encodeUnsigned maxval v = .ok av) :
    av.alignment = [.atom (.bytes (asU32 (uintByteWidth maxval)))] := by
  unfold encodeUnsigned at h
  split at h
  · cases h
  · split at h
    · cases h
    · exact bytesAlignedValue_alignment h

theorem encodeAs_alignment {segments : List AlignmentSegment} {codec : Codec segments}
    {name : String} {v : Value} {av : AlignedValue} (h : encodeAs codec name v = .ok av) :
    av.alignment = segments := by
  unfold encodeAs at h
  split at h
  · split at h <;> cases h
    rfl
  · cases h

theorem encodeBytes_alignment {length : ℕ} {v : Value} {av : AlignedValue}
    (h : encodeBytes length v = .ok av) : av.alignment = [.atom (.bytes (asU32 length))] := by
  unfold encodeBytes at h
  split at h
  · cases h
    rfl
  · exact bytesAlignedValue_alignment h
  · cases h

theorem encodeContract_alignment {name : String} {v : Value} {av : AlignedValue}
    (h : encodeTyped c v (.contract name) = .ok av) :
    v = .alignedValue av ∨ av.alignment = [.atom (.bytes 32)] := by
  rw [encodeTyped_contract] at h
  by_cases hparts : ∃ vals, partsOf .contractAddress v = .ok (.each vals)
  · obtain ⟨vals, hvals⟩ := hparts
    obtain ⟨parts, henc, rfl⟩ := (encodeTyped_each c rfl hvals av).mp h
    obtain ⟨w, rfl⟩ := List.length_eq_one_iff.mp (partsOf_length rfl hvals)
    have henc : encodeTuple c [w] [.bytes 32] = .ok parts := henc
    simp only [encodeTuple, encodeTyped, Except.map] at henc
    split at henc
    · cases henc
    · rename_i part hpart
      cases henc
      simp only [AlignedValue.concat, List.map_cons, List.map_nil, List.flatten_cons,
        List.flatten_nil, List.append_nil, encodeBytes_alignment hpart]
      exact .inr rfl
  · rcases encodeTyped_whole c rfl (fun vals hvals => hparts ⟨vals, hvals⟩) h with h | ⟨_, h, _⟩
    · exact .inl h
    · cases h

/-- A scalar encodes with the alignment of its type when the type is narrow and
void does not stand for fields. -/
theorem scalar_compared {ty : Ty} (hty : ty.Scalar) {v : Value} {av : AlignedValue}
    (hcarries : Carries ty v) (h : encodeTyped c v ty = .ok av) :
    Compared av.alignment (alignment ty) (KeepsAlignment ty v) := by
  have hkeeps : ¬ OfFields ty → (KeepsAlignment ty v ↔ NarrowLength ty) := by
    intro hfields
    exact ⟨fun h => (throughout_scalar _ hty).mp h.1,
      fun h => ⟨(throughout_scalar _ hty).mpr h, fun _ => hfields⟩⟩
  cases ty with
  | boolean =>
    rw [encodeBoolean_alignment h]
    exact compared_refl _ ((hkeeps not_false).mpr trivial)
  | field f =>
    have hcond := (hkeeps not_false).mpr trivial
    simp only [encodeTyped, encodeField] at h
    cases hf : ForeignField.of f with
    | some foreign =>
      simp only [hf] at h
      rw [encodeAs_alignment h]
      have halign : alignment (.field f) = foreign.alignment := by
        simp only [alignment, alignmentAt, fieldAlignment, hf]
      rw [halign]
      exact compared_refl _ hcond
    | none =>
      have halign : av.alignment = alignment (.field f) := by
        simp only [hf] at h
        split at h
        · cases h
          exact hcarries hf _ rfl
        · cases h
          simp only [ofFr, AlignedValue.single, alignment, alignmentAt, fieldAlignment, hf]
        · cases h
      rw [halign]
      exact compared_refl _ hcond
  | unsigned maxval =>
    rw [encodeUnsigned_alignment h]
    exact (compared_bytes _).congr (hkeeps not_false).symm
  | point curve =>
    cases curve with
    | jubjub =>
      simp only [encodeTyped, encodeOpaque] at h
      split at h
      · cases h
        rw [hcarries rfl _ rfl]
        exact compared_refl _ ⟨trivial, fun h => by cases h⟩
      · cases h
        exact (compared_compress (by decide)).congr (iff_of_false not_false fun h => h.2 rfl rfl)
      · cases h
    | secp256k1 =>
      rw [encodeAs_alignment h]
      exact compared_refl _ ⟨trivial, fun _ h => by cases h⟩
    | secp256r1 =>
      rw [encodeAs_alignment h]
      exact compared_refl _ ⟨trivial, fun _ h => by cases h⟩
    | curve25519 =>
      rw [encodeAs_alignment h]
      exact compared_refl _ ⟨trivial, fun _ h => by cases h⟩
  | bytes length =>
    rw [encodeBytes_alignment h]
    exact (compared_bytes length).congr (hkeeps not_false).symm
  | opaqueData name =>
    simp only [encodeTyped, encodeOpaque] at h
    split at h
    · cases h
      rw [hcarries trivial _ rfl]
      exact compared_refl _ ⟨trivial, fun h => by cases h⟩
    · cases h
      refine (opaque_compared name).congr ⟨fun h => ⟨trivial, fun _ => h⟩, fun h => h.2 rfl⟩
    · cases h
  | enum name variants =>
    have hcond := (hkeeps not_false).mpr trivial
    simp only [encodeTyped, encodeEnum] at h
    split at h
    · split at h <;> cases h
      exact compared_refl _ hcond
    · cases h
      rw [hcarries trivial _ rfl]
      exact compared_refl _ hcond
    · cases h
  | contract name =>
    have halign : av.alignment = alignment (.contract name) := by
      rcases encodeContract_alignment c h with rfl | h
      · exact hcarries trivial _ rfl
      · exact h
    rw [halign]
    exact compared_refl _ ((hkeeps not_false).mpr trivial)
  | adt name => cases h
  | typeVar name => cases h
  | unknown => cases h
  | vector => exact hty.elim
  | tuple => exact hty.elim
  | struct => exact hty.elim
  | aliasOf => exact hty.elim

/-- An aggregate taken whole has the alignment that it carries. -/
theorem whole_compared {ty : Ty} {types : List Ty} (hty : ty.components = some types) {v : Value}
    {av : AlignedValue} (hparts : ∀ vals, partsOf ty v ≠ .ok (.each vals))
    (hcarries : Carries ty v) (h : encodeTyped c v ty = .ok av) :
    Compared av.alignment (alignment ty) (KeepsAlignment ty v) := by
  have hpass : PassesThrough ty ∧ ¬ OfFields ty := by
    cases ty with
    | tuple => exact ⟨trivial, not_false⟩
    | vector => exact ⟨trivial, not_false⟩
    | struct => exact ⟨trivial, not_false⟩
    | _ => cases hty
  rcases encodeTyped_whole c hty hparts h with rfl | ⟨rfl, rfl, rfl⟩
  · rw [hcarries hpass.1 _ rfl]
    exact (wire_compared ty).congr ⟨fun h => ⟨h, fun _ => hpass.2⟩, And.left⟩
  · have halign : alignment ty = [] := alignmentAt_components id hty
    have hwire : wireAlignment ty = [] := alignmentAt_components asU32 hty
    have hnarrow := (wire_compared ty).eq_iff.mp (hwire.trans halign.symm)
    rw [halign]
    exact compared_refl [] ⟨hnarrow, fun _ => hpass.2⟩

/-- The encoding of a value whose flat parts carry their types' alignments has
the alignment of its type exactly when each of its parts keeps it. -/
theorem encodeTyped_compared (ty : Ty) : ∀ (v : Value) (av : AlignedValue),
    Leaves Carries ty v → encodeTyped c v ty = .ok av →
      Compared av.alignment (alignment ty) (Leaves KeepsAlignment ty v) := by
  have heach : ∀ types : List Ty, (∀ ty ∈ types, ∀ (v : Value) (av : AlignedValue),
      Leaves Carries ty v → encodeTyped c v ty = .ok av →
        Compared av.alignment (alignment ty) (Leaves KeepsAlignment ty v)) →
      ∀ (vals : List Value) (parts : List AlignedValue), vals.length = types.length →
        LeavesEach Carries types vals → encodeTuple c vals types = .ok parts →
        Compared (AlignedValue.concat parts).alignment (alignmentAtEach id types)
          (LeavesEach KeepsAlignment types vals) := by
    intro types
    induction types with
    | nil =>
      intro _ vals parts hlen _ h
      obtain rfl := List.length_eq_zero_iff.mp hlen
      cases h
      exact compared_refl _ trivial
    | cons ty types ih =>
      intro hall vals parts hlen hcarries h
      obtain ⟨hty, htypes⟩ := List.forall_mem_cons.mp hall
      match vals, hlen, hcarries, h with
      | v :: vals, hlen, hcarries, h =>
        simp only [encodeTuple] at h
        cases hav : encodeTyped c v ty with
        | error e =>
          rw [hav] at h
          cases h
        | ok av =>
          cases hrest : encodeTuple c vals types with
          | error e => simp [hav, hrest, Except.map] at h
          | ok rest =>
            simp only [hav, hrest, Except.map, Except.ok.injEq] at h
            subst h
            exact (hty v av hcarries.1 hav).append
              (ih htypes vals rest (Nat.succ.inj hlen) hcarries.2 hrest)
  have haggregate : ∀ {ty : Ty} {types : List Ty}, ty.components = some types →
      (∀ ty ∈ types, ∀ (v : Value) (av : AlignedValue), Leaves Carries ty v →
        encodeTyped c v ty = .ok av →
          Compared av.alignment (alignment ty) (Leaves KeepsAlignment ty v)) →
      ∀ (v : Value) (av : AlignedValue), Leaves Carries ty v → encodeTyped c v ty = .ok av →
        Compared av.alignment (alignment ty) (Leaves KeepsAlignment ty v) := by
    intro ty types hty hall v av hcarries h
    by_cases hparts : ∃ vals, partsOf ty v = .ok (.each vals)
    · obtain ⟨vals, hvals⟩ := hparts
      obtain ⟨parts, henc, rfl⟩ := (encodeTyped_each c hty hvals av).mp h
      have hcompared := heach types hall vals parts (partsOf_length hty hvals)
        ((leaves_each _ hty hvals).mp hcarries) henc
      rw [alignment, alignmentAt_components id hty]
      exact hcompared.congr (leaves_each _ hty hvals).symm
    · have hwhole : ∀ vals, partsOf ty v ≠ .ok (.each vals) := fun vals h => hparts ⟨vals, h⟩
      exact (whole_compared c hty hwhole ((leaves_whole _ hty hwhole).mp hcarries) h).congr
        (leaves_whole _ hty hwhole).symm
  induction ty using Ty.induct with
  | scalar ty hty =>
    intro v av hcarries h
    exact (scalar_compared c hty ((leaves_scalar _ hty v).mp hcarries) h).congr
      (leaves_scalar _ hty v).symm
  | vector len ty ih => exact haggregate rfl (fun ty' h => List.eq_of_mem_replicate h ▸ ih)
  | tuple types ih => exact haggregate rfl ih
  | struct name fields ih => exact haggregate rfl (List.forall_mem_map.mpr ih)
  | aliasOf nominal name ty ih => exact ih

theorem ofLeBytes_lt (bs : Bytes) : ofLeBytes bs < 256 ^ bs.length := by
  induction bs with
  | nil => exact Nat.one_pos
  | cons b bs ih =>
    have hb := b.toNat_lt
    rw [ofLeBytes, List.length_cons, Nat.pow_succ]
    omega

/-- An integer whose atom has at most 16 bytes has at most 128 bits. -/
theorem lt_u128Bound_of_atom {width n : ℕ} (hn : n < 256 ^ width)
    (h : (trim (toLeBytes width n)).length ≤ u128Bytes) : n < u128Bound := by
  have hlt := ofLeBytes_lt (trim (toLeBytes width n))
  rw [ofLeBytes_trim, ofLeBytes_toLeBytes width n hn] at hlt
  exact Nat.lt_of_lt_of_le hlt (Nat.pow_le_pow_right (by omega) h)

theorem encodeUnsigned_flat_iff {maxval n : ℕ} (h : n ≤ maxval)
    (hwidth : uintByteWidth maxval < 2 ^ 32) (av : AlignedValue)
    (hav : av = .single (trim (toLeBytes (uintByteWidth maxval) n))
      (.bytes (asU32 (uintByteWidth maxval)))) :
    encodeUnsigned maxval (.alignedValue av) = .ok av ↔ ∀ a ∈ av.value, a.length ≤ u128Bytes := by
  subst hav
  have hlt := lt_pow_uintByteWidth n maxval h
  constructor
  · intro henc a ha
    obtain rfl := List.mem_singleton.mp ha
    by_contra hlen
    simp [encodeUnsigned, valueToU128, alignedAtomToU128, AlignedValue.single, hlen] at henc
  · intro hatoms
    have hn := lt_u128Bound_of_atom hlt (hatoms _ List.mem_cons_self)
    have hatom := alignedAtomToU128_single _ n (.bytes (asU32 (uintByteWidth maxval))) hn hlt
    exact encodeUnsigned_eq maxval n _ hatom h
      ((holds_unsigned_iff maxval n h hwidth).mpr hn)

/-- A flat `Uint` in an atom of more than 16 bytes is the only canonical value of
its alignment that the encoder does not take as it is. -/
theorem encodeTyped_flat_iff {ty : Ty} {av : AlignedValue} (h : Flat c (fun _ _ => True) ty av)
    (halign : av.alignment = alignment ty) :
    encodeTyped c (.alignedValue av) ty = .ok av ↔
      ∀ maxval, ty.resolved = .unsigned maxval → ∀ a ∈ av.value, a.length ≤ u128Bytes := by
  have hother : ∀ {ty : Ty}, (∀ maxval, ty.resolved ≠ .unsigned maxval) →
      encodeTyped c (.alignedValue av) ty = .ok av →
      (encodeTyped c (.alignedValue av) ty = .ok av ↔
        ∀ maxval, ty.resolved = .unsigned maxval → ∀ a ∈ av.value, a.length ≤ u128Bytes) :=
    fun hne henc => iff_of_true henc (fun maxval heq => absurd heq (hne maxval))
  induction h with
  | boolean b => exact hother (fun _ h => by cases h) (encodeBoolean_ofBool b)
  | unsigned maxval n hle hheld =>
    have hwidth : uintByteWidth maxval < 2 ^ 32 :=
      (compared_bytes (uintByteWidth maxval)).eq_iff.mp halign
    refine (encodeUnsigned_flat_iff hle hwidth _ rfl).trans ⟨fun h _ _ => h, fun h => h maxval rfl⟩
  | native f hf a =>
    exact hother (fun _ h => by cases h) (encodeTyped_flat c _ _ (.native f hf a))
  | foreign f foreign hf atoms ha =>
    exact hother (fun _ h => by cases h) (encodeTyped_flat c _ _ (.foreign f foreign hf atoms ha))
  | bytes length a ha => exact hother (fun _ h => by cases h) rfl
  | enum name variants n hn hbyte => exact hother (fun _ h => by cases h) rfl
  | jubjub x y => exact hother (fun _ h => by cases h) rfl
  | point curve hcurve atoms ha =>
    exact hother (fun _ h => by cases h) (encodeTyped_flat c _ _ (.point curve hcurve atoms ha))
  | opaquePoint x y => exact hother (fun _ h => by cases h) rfl
  | opaqueScalar a => exact hother (fun _ h => by cases h) rfl
  | opaqueData name hpoint hscalar a => exact hother (fun _ h => by cases h) rfl
  | tuple types parts hlen each => exact hother (fun _ h => by cases h) rfl
  | vector len ty parts hlen each => exact hother (fun _ h => by cases h) rfl
  | struct name fields parts hlen each => exact hother (fun _ h => by cases h) rfl
  | aliasOf nominal name ty av hflat ih => exact ih halign hother
  | contract name av hflat ih =>
    refine hother (fun _ h => by cases h) ?_
    rw [encodeTyped_contract]
    exact (ih halign hother).mpr (fun _ h => by cases h)

end Encodings

end MidnightRs.Compact
