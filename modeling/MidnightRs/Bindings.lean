import MidnightRs.Alignments

/-!
The encoders that the code generator writes. A Compact type has a Rust type, and
its values convert part by part into an aligned value; the interpreter encodes
the same values from the type itself. Both give the same atoms.
-/
namespace MidnightRs.Compact

section Tokens

/-- The Rust type of a `Uint`: a primitive of so many bytes, or `Uint<BITS>`. A
bound of more than 128 bits is a compile error. -/
inductive UintTokens where
  | primitive (bytes : ℕ)
  | uint (bits : ℕ)
  | compileError
deriving DecidableEq, Repr

def bitLength (n : ℕ) : ℕ := if n = 0 then 0 else Nat.log2 n + 1

def uintTokens (maxval : ℕ) : UintTokens :=
  if u128Bound ≤ maxval then .compileError
  else if uintByteWidth maxval ∈ [1, 2, 4, 8, 16] then .primitive (uintByteWidth maxval)
  else .uint (bitLength maxval)

namespace UintTokens

/-- The integers that the Rust type holds. -/
def Holds : UintTokens → ℕ → Prop
  | primitive bytes, n => n < 256 ^ bytes
  | uint bits, n => n < 2 ^ bits ∧ n < u128Bound
  | compileError, _ => False

def alignment : UintTokens → AlignmentAtom
  | primitive bytes => .bytes bytes
  | uint bits => .bytes (max ((bits + 7) / 8) 1)
  | compileError => .bytes 0

def toAligned (tokens : UintTokens) (n : ℕ) : AlignedValue :=
  .single (trim (toLeBytes u128Bytes n)) tokens.alignment

end UintTokens

inductive OpaqueTokens where
  | embeddedGroupAffine
  | transientFr
  | vecU8
deriving DecidableEq, Repr

def opaqueTokens (name : String) : OpaqueTokens :=
  if name = "JubjubPoint" then .embeddedGroupAffine
  else if name = "Scalar<BLS12-381>" then .transientFr
  else .vecU8

namespace OpaqueTokens

/-- A point is the atoms of its coordinates, a scalar its atom. -/
def Val : OpaqueTokens → Type
  | embeddedGroupAffine => Atom × Atom
  | transientFr => Atom
  | vecU8 => Bytes

def alignment : OpaqueTokens → List AlignmentSegment
  | embeddedGroupAffine => Curve.alignment .jubjub
  | transientFr => [.atom .field]
  | vecU8 => [.atom .compress]

def toAligned : (tokens : OpaqueTokens) → tokens.Val → AlignedValue
  | embeddedGroupAffine, (x, y) => ⟨[x, y], Curve.alignment .jubjub⟩
  | transientFr, a => .single a .field
  | vecU8, bytes => .single (trim bytes) .compress

end OpaqueTokens

variable (c : Codecs)

/-- The atoms of a field element: one for the native field, and what the curve
crates write for a foreign one. -/
def FieldAtoms (f : FieldType) (atoms : List Atom) : Prop :=
  match ForeignField.of f with
  | some foreign => (c.field foreign).reencode atoms = some atoms
  | none => atoms.length = 1

def PointAtoms (curve : Curve) (atoms : List Atom) : Prop :=
  match curve with
  | .jubjub => atoms.length = 2
  | curve => (c.point curve).reencode atoms = some atoms

end Tokens

section Values

variable (c : Codecs)

mutual

/-- The values of the Rust type of a Compact type. A field element and a point
are given by their atoms. An enum of more than 256 variants does not compile. -/
def RustVal : Ty → Type
  | .boolean => Bool
  | .field f => { atoms : List Atom // FieldAtoms c f atoms }
  | .unsigned maxval => { n : ℕ // (uintTokens maxval).Holds n }
  | .point curve => { atoms : List Atom // PointAtoms c curve atoms }
  | .bytes length => { bytes : Bytes // bytes.length = length }
  | .opaqueData name => (opaqueTokens name).Val
  | .vector len ty => { elements : List (RustVal ty) // elements.length = len }
  | .tuple types => RustTuple types
  | .struct _ fields => RustFields fields
  | .enum _ variants => { i : ℕ // i < variants.length ∧ variants.length ≤ 256 }
  | .aliasOf _ _ ty => RustVal ty
  | .contract _ => { bytes : Bytes // bytes.length = 32 } × Unit
  | .adt _ => Bytes
  | .typeVar _ => Bytes
  | .unknown => Bytes

def RustTuple : List Ty → Type
  | [] => Unit
  | ty :: types => RustVal ty × RustTuple types

def RustFields : List (String × Ty) → Type
  | [] => Unit
  | (_, ty) :: fields => RustVal ty × RustFields fields

end

variable {c}

def bytesToAligned (length : ℕ) (bytes : Bytes) : AlignedValue :=
  .single (trim bytes) (.bytes (asU32 length))

mutual

/-- The generated conversion of a value. A vector, a tuple and a struct convert
their parts in order; a struct's is written once for its Rust type. -/
def encodeToAlignedValue : (ty : Ty) → RustVal c ty → AlignedValue
  | .boolean, b => ofBool b
  | .field f, x => ⟨x.val, fieldAlignment f⟩
  | .unsigned maxval, n => (uintTokens maxval).toAligned n.val
  | .point curve, x => ⟨x.val, curve.alignment⟩
  | .bytes length, x => bytesToAligned length x.val
  | .opaqueData name, x => (opaqueTokens name).toAligned x
  | .vector _ ty, xs => .concat (xs.val.map (encodeToAlignedValue ty))
  | .tuple types, xs => .concat (encodeElements types xs)
  | .struct _ fields, xs => .concat (encodeFieldValues fields xs)
  | .enum _ _, i => ofU8 i.val
  | .aliasOf _ _ ty, x => encodeToAlignedValue ty x
  | .contract _, x => .concat [bytesToAligned 32 x.1.val]
  | .adt _, _ => .unit
  | .typeVar _, _ => .unit
  | .unknown, _ => .unit

def encodeElements : (types : List Ty) → RustTuple c types → List AlignedValue
  | [], _ => []
  | ty :: types, (x, xs) => encodeToAlignedValue ty x :: encodeElements types xs

def encodeFieldValues : (fields : List (String × Ty)) → RustFields c fields → List AlignedValue
  | [], _ => []
  | (_, ty) :: fields, (x, xs) => encodeToAlignedValue ty x :: encodeFieldValues fields xs

end

mutual

/-- The generated alignment of a type. -/
def alignmentExpr : Ty → List AlignmentSegment
  | .boolean => [.atom (.bytes 1)]
  | .field f => fieldAlignment f
  | .unsigned maxval => [.atom (uintTokens maxval).alignment]
  | .point curve => curve.alignment
  | .bytes length => [.atom (.bytes (asU32 length))]
  | .opaqueData name => (opaqueTokens name).alignment
  | .vector len ty => (List.replicate len (alignmentExpr ty)).flatten
  | .tuple types => alignmentOfEach types
  | .struct _ fields => alignmentOfFields fields
  | .enum _ _ => [.atom (.bytes 1)]
  | .aliasOf _ _ ty => alignmentExpr ty
  | .contract _ => [.atom (.bytes (asU32 32))]
  | .adt _ => [.atom .compress]
  | .typeVar _ => [.atom .compress]
  | .unknown => [.atom .compress]

def alignmentOfEach : List Ty → List AlignmentSegment
  | [] => []
  | ty :: types => alignmentExpr ty ++ alignmentOfEach types

def alignmentOfFields : List (String × Ty) → List AlignmentSegment
  | [] => []
  | (_, ty) :: fields => alignmentExpr ty ++ alignmentOfFields fields

end

end Values

section Same

variable {c : Codecs}

mutual

/-- Whether every `Uint` in a value is within the bound that its type declares. -/
def InBounds : (ty : Ty) → RustVal c ty → Prop
  | .unsigned maxval, n => n.val ≤ maxval
  | .vector _ ty, xs => ∀ x ∈ xs.val, InBounds ty x
  | .tuple types, xs => ElementsInBounds types xs
  | .struct _ fields, xs => FieldsInBounds fields xs
  | .aliasOf _ _ ty, x => InBounds ty x
  | .boolean, _ => True
  | .field _, _ => True
  | .point _, _ => True
  | .bytes _, _ => True
  | .opaqueData _, _ => True
  | .enum _ _, _ => True
  | .contract _, _ => True
  | .adt _, _ => True
  | .typeVar _, _ => True
  | .unknown, _ => True

def ElementsInBounds : (types : List Ty) → RustTuple c types → Prop
  | [], _ => True
  | ty :: types, (x, xs) => InBounds ty x ∧ ElementsInBounds types xs

def FieldsInBounds : (fields : List (String × Ty)) → RustFields c fields → Prop
  | [], _ => True
  | (_, ty) :: fields, (x, xs) => InBounds ty x ∧ FieldsInBounds fields xs

end

/-- How the interpreter spells a byte string. -/
def SpelledBytes (length : ℕ) (bytes : Bytes) (v : Value) : Prop :=
  v = .alignedValue (bytesToAligned length bytes) ∨ v = .void ∧ trim bytes = []

mutual

/-- The interpreter's spellings of a Rust value: flat, or from its parts. A type
that is not executable has none. -/
def Spelled : (ty : Ty) → RustVal c ty → Value → Prop
  | .boolean, b, v =>
    v = .alignedValue (ofBool b) ∨ v = .bool b ∨ v = .integer (cond b 1 0)
  | .field f, x, v =>
    v = .alignedValue ⟨x.val, fieldAlignment f⟩ ∨
      ForeignField.of f = none ∧ ∃ n, v = .integer n ∧ x.val = [trim (toLeBytes u128Bytes n)]
  | .unsigned maxval, n, v =>
    v = .alignedValue ((uintTokens maxval).toAligned n.val) ∨ v = .integer n.val
  | .point curve, x, v => v = .alignedValue ⟨x.val, curve.alignment⟩
  | .bytes length, x, v => SpelledBytes length x.val v
  | .opaqueData name, x, v =>
    v = .alignedValue ((opaqueTokens name).toAligned x) ∨
      v = .void ∧ (opaqueTokens name).toAligned x = emptyOpaque
  | .vector _ ty, xs, v =>
    v = .alignedValue (.concat (xs.val.map (encodeToAlignedValue ty))) ∨
      ∃ vs, v = .tuple vs ∧ List.Forall₂ (Spelled ty) xs.val vs
  | .tuple types, xs, v =>
    v = .alignedValue (.concat (encodeElements types xs)) ∨ types = [] ∧ v = .void ∨
      ∃ vs, v = .tuple vs ∧ SpelledElements types xs vs
  | .struct _ fields, xs, v =>
    v = .alignedValue (.concat (encodeFieldValues fields xs)) ∨
      ∃ vs, SpelledFields fields xs vs ∧ (v = .tuple vs ∨
        ∃ supplied, v = .struct supplied ∧ supplied.length = fields.length ∧
          List.Forall₂ (fun field w => supplied.lookup field.1 = some w) fields vs)
  | .enum _ _, i, v => v = .alignedValue (ofU8 i.val) ∨ v = .integer i.val
  | .aliasOf _ _ ty, x, v => Spelled ty x v
  | .contract _, x, v =>
    v = .alignedValue (.concat [bytesToAligned 32 x.1.val]) ∨
      ∃ w, SpelledBytes 32 x.1.val w ∧ (v = .tuple [w] ∨ v = .struct [("bytes", w)])
  | .adt _, _, _ => False
  | .typeVar _, _, _ => False
  | .unknown, _, _ => False

def SpelledElements : (types : List Ty) → RustTuple c types → List Value → Prop
  | [], _, vs => vs = []
  | ty :: types, (x, xs), vs => ∃ w ws, vs = w :: ws ∧ Spelled ty x w ∧ SpelledElements types xs ws

def SpelledFields : (fields : List (String × Ty)) → RustFields c fields → List Value → Prop
  | [], _, vs => vs = []
  | (_, ty) :: fields, (x, xs), vs =>
    ∃ w ws, vs = w :: ws ∧ Spelled ty x w ∧ SpelledFields fields xs ws

end

end Same

section Agreement

variable (c : Codecs)

theorem uintByteWidth_le (maxval : ℕ) (h : maxval < u128Bound) : uintByteWidth maxval ≤ 16 := by
  unfold uintByteWidth
  split
  · omega
  · rename_i hne
    have hlog : Nat.log2 maxval < 128 := (Nat.log2_lt hne).mpr h
    omega

/-- The Rust type has the width that the compiler gives the bound. -/
theorem uintTokens_alignment (maxval : ℕ) (h : maxval < u128Bound) :
    (uintTokens maxval).alignment = .bytes (asU32 (uintByteWidth maxval)) := by
  have hwidth := uintByteWidth_le maxval h
  have hasU32 : asU32 (uintByteWidth maxval) = uintByteWidth maxval :=
    Nat.mod_eq_of_lt (by omega)
  rw [hasU32]
  unfold uintTokens
  rw [if_neg (by omega)]
  split
  · rfl
  · simp only [UintTokens.alignment, bitLength, uintByteWidth]
    split
    · rfl
    · rw [Nat.max_eq_left (by omega)]

/-- A `Uint` that the Rust type holds has a bound of at most 128 bits. -/
theorem maxval_lt_of_holds {maxval n : ℕ} (h : (uintTokens maxval).Holds n) :
    maxval < u128Bound := by
  unfold uintTokens at h
  split at h
  · exact h.elim
  · omega

theorem uintTokens_toAligned {maxval n : ℕ} (h : (uintTokens maxval).Holds n) (hn : n ≤ maxval) :
    (uintTokens maxval).toAligned n = .single (trim (toLeBytes (uintByteWidth maxval) n))
      (.bytes (asU32 (uintByteWidth maxval))) := by
  have hmax := maxval_lt_of_holds h
  have hatom := trim_toLeBytes_eq u128Bytes (uintByteWidth maxval) n
    (Nat.lt_of_le_of_lt hn hmax) (lt_pow_uintByteWidth n maxval hn)
  rw [UintTokens.toAligned, uintTokens_alignment maxval hmax, hatom]

theorem holds_of_inBounds {maxval n : ℕ} (h : (uintTokens maxval).Holds n) (hn : n ≤ maxval) :
    Holds (.unsigned maxval) n := by
  have hmax := maxval_lt_of_holds h
  have hwidth := uintByteWidth_le maxval hmax
  exact (holds_unsigned_iff maxval n hn (by omega)).mpr (Nat.lt_of_le_of_lt hn hmax)

theorem encodeTyped_fieldAtoms (f : FieldType) (atoms : List Atom) (h : FieldAtoms c f atoms) :
    encodeTyped c (.alignedValue ⟨atoms, fieldAlignment f⟩) (.field f) =
      .ok ⟨atoms, fieldAlignment f⟩ := by
  unfold FieldAtoms at h
  unfold fieldAlignment
  cases hf : ForeignField.of f with
  | some foreign =>
    rw [hf] at h
    simp only [encodeTyped, encodeField, hf, encodeAs, h]
  | none => simp only [encodeTyped, encodeField, hf]

theorem encodeTyped_pointAtoms (curve : Curve) (atoms : List Atom) (h : PointAtoms c curve atoms) :
    encodeTyped c (.alignedValue ⟨atoms, curve.alignment⟩) (.point curve) =
      .ok ⟨atoms, curve.alignment⟩ := by
  cases curve with
  | jubjub => rfl
  | secp256k1 =>
    have h : (c.point .secp256k1).reencode atoms = some atoms := h
    simp only [encodeTyped, encodeAs, h]
  | secp256r1 =>
    have h : (c.point .secp256r1).reencode atoms = some atoms := h
    simp only [encodeTyped, encodeAs, h]
  | curve25519 =>
    have h : (c.point .curve25519).reencode atoms = some atoms := h
    simp only [encodeTyped, encodeAs, h]

theorem encodeBytes_spelled {length : ℕ} {bytes : Bytes} {v : Value}
    (h : SpelledBytes length bytes v) :
    encodeBytes length v = .ok (bytesToAligned length bytes) := by
  rcases h with rfl | ⟨rfl, htrim⟩
  · rfl
  · unfold bytesToAligned
    rw [htrim]
    rfl

theorem structParts_supplied {name : String} {fields : List (String × Ty)}
    {supplied : List (String × Value)} {vs : List Value} (hlen : supplied.length = fields.length)
    (h : List.Forall₂ (fun field w => supplied.lookup field.1 = some w) fields vs) :
    structParts name fields (.struct supplied) = .ok (.each vs) := by
  have hfields : suppliedFields name supplied fields = .ok vs := by
    clear hlen
    induction h with
    | nil => rfl
    | @cons field w fields vs hw _ ih =>
      obtain ⟨fieldName, ty⟩ := field
      simp only at hw
      simp only [suppliedFields, hw, ih, Except.map]
  simp only [structParts, hlen, if_true, hfields, Except.map]

theorem encodeVector_spelled {ty : Ty} {xs : List (RustVal c ty)} {vs : List Value}
    (h : List.Forall₂ (fun x v => encodeTyped c v ty = .ok (encodeToAlignedValue ty x)) xs vs) :
    encodeVector (fun v => encodeTyped c v ty) vs = .ok (xs.map (encodeToAlignedValue ty)) := by
  induction h with
  | nil => rfl
  | cons hx _ ih => simp only [encodeVector, hx, ih, Except.map, List.map_cons]

theorem spelled_length {fields : List (String × Ty)} {xs : RustFields c fields} {vs : List Value}
    (h : SpelledFields fields xs vs) : vs.length = fields.length := by
  induction fields generalizing vs with
  | nil =>
    cases h
    rfl
  | cons field fields ih =>
    obtain ⟨w, ws, rfl, -, hws⟩ := h
    rw [List.length_cons, ih hws, List.length_cons]

theorem spelledElements_length {types : List Ty} {xs : RustTuple c types} {vs : List Value}
    (h : SpelledElements types xs vs) : vs.length = types.length := by
  induction types generalizing vs with
  | nil =>
    cases h
    rfl
  | cons ty types ih =>
    obtain ⟨w, ws, rfl, -, hws⟩ := h
    rw [List.length_cons, ih hws, List.length_cons]

mutual

/-- The interpreter encodes each spelling of a value as the bindings do. -/
theorem encodeTyped_spelled : (ty : Ty) → (x : RustVal c ty) → InBounds ty x → (v : Value) →
    Spelled ty x v → encodeTyped c v ty = .ok (encodeToAlignedValue ty x)
  | .boolean, b, _, v, hv => by
    rcases hv with rfl | rfl | rfl
    · exact encodeBoolean_ofBool b
    · rfl
    · cases b <;> rfl
  | .field f, x, _, v, hv => by
    rcases hv with rfl | ⟨hnative, n, rfl, hatoms⟩
    · exact encodeTyped_fieldAtoms c f x.val x.property
    · simp only [encodeTyped, encodeField, hnative, encodeToAlignedValue, fieldAlignment, hatoms,
        ofFr, AlignedValue.single]
  | .unsigned maxval, n, hn, v, hv => by
    have hheld := holds_of_inBounds n.property hn
    have heq := uintTokens_toAligned n.property hn
    have hval : valueToU128 v = some n.val := by
      rcases hv with rfl | rfl
      · rw [heq]
        exact alignedAtomToU128_single _ n.val (.bytes (asU32 (uintByteWidth maxval))) hheld.1
          (lt_pow_uintByteWidth n.val maxval hn)
      · rfl
    exact (encodeUnsigned_eq maxval n.val v hval hn hheld).trans (congrArg Except.ok heq.symm)
  | .point curve, x, _, v, hv => by
    cases hv
    exact encodeTyped_pointAtoms c curve x.val x.property
  | .bytes length, x, _, v, hv => encodeBytes_spelled hv
  | .opaqueData name, x, _, v, hv => by
    rcases hv with rfl | ⟨rfl, hempty⟩
    · rfl
    · exact (congrArg Except.ok hempty).symm
  | .vector len ty, xs, hxs, v, hv => by
    rcases hv with rfl | ⟨vs, rfl, hvs⟩
    · rfl
    · have hlen : vs.length = len := hvs.length_eq.symm.trans xs.property
      have heach : List.Forall₂
          (fun x v => encodeTyped c v ty = .ok (encodeToAlignedValue ty x)) xs.val vs := by
        refine List.forall₂_iff_get.mpr ⟨hvs.length_eq, fun i hi hi' => ?_⟩
        exact encodeTyped_spelled ty _ (hxs _ (List.get_mem _ _)) _ (hvs.get hi hi')
      simp only [encodeTyped, vectorParts, hlen, if_true, encodeParts, encodeVector_spelled c heach,
        Except.map, encodeToAlignedValue]
  | .tuple types, xs, hxs, v, hv => by
    rcases hv with rfl | ⟨rfl, rfl⟩ | ⟨vs, rfl, hvs⟩
    · rfl
    · rfl
    · simp only [encodeTyped, tupleParts, spelledElements_length c hvs, if_true, encodeParts,
        encodeTuple_spelled types xs hxs vs hvs, Except.map, encodeToAlignedValue]
  | .struct name fields, xs, hxs, v, hv => by
    rcases hv with rfl | ⟨vs, hvs, hspelled⟩
    · rfl
    · have hparts : structParts name fields v = .ok (.each vs) := by
        rcases hspelled with rfl | ⟨supplied, rfl, hlen, hlookup⟩
        · simp only [structParts, spelled_length c hvs, if_true]
        · exact structParts_supplied hlen hlookup
      simp only [encodeTyped, hparts, encodeParts, encodeFields_spelled name fields xs hxs vs hvs,
        Except.map, encodeToAlignedValue]
  | .enum name variants, i, _, v, hv => by
    have hbyte : i.val < 256 := Nat.lt_of_lt_of_le i.property.1 i.property.2
    rcases hv with rfl | rfl
    · rfl
    · simp only [encodeTyped, encodeEnum, hbyte, if_true, encodeToAlignedValue]
  | .aliasOf _ _ ty, x, hx, v, hv => encodeTyped_spelled ty x hx v hv
  | .contract name, x, _, v, hv => by
    rcases hv with rfl | ⟨w, hw, rfl | rfl⟩
    · rfl
    · simp only [encodeTyped, structParts, List.length_cons, List.length_nil, if_true, encodeParts,
        encodeVector, encodeBytes_spelled hw, Except.mapError, Except.map, encodeToAlignedValue]
    · have hparts : structParts "ContractAddress" [("bytes", .bytes 32)] (.struct [("bytes", w)]) =
          .ok (.each [w]) := structParts_supplied rfl (.cons rfl .nil)
      simp only [encodeTyped, hparts, encodeParts, encodeVector, encodeBytes_spelled hw,
        Except.mapError, Except.map, encodeToAlignedValue]
  | .adt _, _, _, _, hv => hv.elim
  | .typeVar _, _, _, _, hv => hv.elim
  | .unknown, _, _, _, hv => hv.elim

theorem encodeTuple_spelled : (types : List Ty) → (xs : RustTuple c types) →
    ElementsInBounds types xs → (vs : List Value) → SpelledElements types xs vs →
    encodeTuple c vs types = .ok (encodeElements types xs)
  | [], _, _, vs, _ => rfl
  | ty :: types, (x, xs), hxs, vs, hvs => by
    obtain ⟨w, ws, rfl, hw, hws⟩ := hvs
    have hx := encodeTyped_spelled ty x hxs.1 w hw
    have hrest := encodeTuple_spelled types xs hxs.2 ws hws
    simp only [encodeTuple, hx, hrest, Except.map, encodeElements]

theorem encodeFields_spelled : (name : String) → (fields : List (String × Ty)) →
    (xs : RustFields c fields) → FieldsInBounds fields xs → (vs : List Value) →
    SpelledFields fields xs vs →
    encodeFields c name vs fields = .ok (encodeFieldValues fields xs)
  | _, [], _, _, vs, _ => rfl
  | name, (field, ty) :: fields, (x, xs), hxs, vs, hvs => by
    obtain ⟨w, ws, rfl, hw, hws⟩ := hvs
    have hx := encodeTyped_spelled ty x hxs.1 w hw
    have hrest := encodeFields_spelled name fields xs hxs.2 ws hws
    simp only [encodeFields, hx, hrest, Except.map, encodeFieldValues]

end

theorem concat_alignment (parts : List AlignedValue) :
    (AlignedValue.concat parts).alignment = (parts.map AlignedValue.alignment).flatten := rfl

theorem opaqueTokens_alignment (tokens : OpaqueTokens) (x : tokens.Val) :
    (tokens.toAligned x).alignment = tokens.alignment := by
  cases tokens <;> rfl

variable {c}

mutual

/-- Every value of a Rust type converts with the alignment of the type. -/
theorem encodeToAlignedValue_alignment : (ty : Ty) → Executable ty → (x : RustVal c ty) →
    (encodeToAlignedValue ty x).alignment = alignmentExpr ty
  | .boolean, _, b => rfl
  | .field f, _, x => rfl
  | .unsigned maxval, _, n => rfl
  | .point curve, _, x => rfl
  | .bytes length, _, x => rfl
  | .opaqueData name, _, x => opaqueTokens_alignment _ x
  | .vector len ty, hty, xs => by
    have heach : xs.val.map (fun x => (encodeToAlignedValue ty x).alignment) =
        List.replicate len (alignmentExpr ty) := by
      refine List.eq_replicate_iff.mpr ⟨(List.length_map _).trans xs.property, fun a ha => ?_⟩
      obtain ⟨x, _, rfl⟩ := List.mem_map.mp ha
      exact encodeToAlignedValue_alignment ty hty x
    simp only [encodeToAlignedValue, concat_alignment, List.map_map, alignmentExpr]
    exact congrArg List.flatten heach
  | .tuple types, hty, xs => encodeElements_alignment types hty xs
  | .struct _ fields, hty, xs => encodeFieldValues_alignment fields hty xs
  | .enum _ _, _, i => rfl
  | .aliasOf _ _ ty, hty, x => encodeToAlignedValue_alignment ty hty x
  | .contract _, _, x => rfl

theorem encodeElements_alignment : (types : List Ty) → AllExecutable types →
    (xs : RustTuple c types) →
    (AlignedValue.concat (encodeElements types xs)).alignment = alignmentOfEach types
  | [], _, _ => rfl
  | ty :: types, hty, (x, xs) => by
    have hx := encodeToAlignedValue_alignment ty hty.1 x
    have hxs := encodeElements_alignment types hty.2 xs
    rw [concat_alignment] at hxs
    simp only [encodeElements, concat_alignment, List.map_cons, List.flatten_cons, hx, hxs,
      alignmentOfEach]

theorem encodeFieldValues_alignment : (fields : List (String × Ty)) → FieldsExecutable fields →
    (xs : RustFields c fields) →
    (AlignedValue.concat (encodeFieldValues fields xs)).alignment = alignmentOfFields fields
  | [], _, _ => rfl
  | (_, ty) :: fields, hty, (x, xs) => by
    have hx := encodeToAlignedValue_alignment ty hty.1 x
    have hxs := encodeFieldValues_alignment fields hty.2 xs
    rw [concat_alignment] at hxs
    simp only [encodeFieldValues, concat_alignment, List.map_cons, List.flatten_cons, hx, hxs,
      alignmentOfFields]

end

/-- The flat spelling of a Rust value is what its conversion gives. -/
theorem spelled_flat : (ty : Ty) → Executable ty → (x : RustVal c ty) →
    Spelled ty x (.alignedValue (encodeToAlignedValue ty x))
  | .boolean, _, _ => .inl rfl
  | .field _, _, _ => .inl rfl
  | .unsigned _, _, _ => .inl rfl
  | .point _, _, _ => rfl
  | .bytes _, _, _ => .inl rfl
  | .opaqueData _, _, _ => .inl rfl
  | .vector _ _, _, _ => .inl rfl
  | .tuple _, _, _ => .inl rfl
  | .struct _ _, _, _ => .inl rfl
  | .enum _ _, _, _ => .inl rfl
  | .aliasOf _ _ ty, hty, x => spelled_flat ty hty x
  | .contract _, _, _ => .inl rfl

/-- A Rust value within its bounds converts to what the interpreter encodes for
each spelling of it, with the generated alignment, and the interpreter takes the
result back as it is. -/
theorem bindings_agree (c : Codecs) (ty : Ty) (hty : Executable ty) (x : RustVal c ty)
    (hx : InBounds ty x) :
    (∀ v, Spelled ty x v → encodeTyped c v ty = .ok (encodeToAlignedValue ty x)) ∧
      (encodeToAlignedValue ty x).alignment = alignmentExpr ty ∧
      encodeTyped c (.alignedValue (encodeToAlignedValue ty x)) ty =
        .ok (encodeToAlignedValue ty x) :=
  ⟨encodeTyped_spelled c ty x hx, encodeToAlignedValue_alignment ty hty x,
    encodeTyped_spelled c ty x hx _ (spelled_flat ty hty x)⟩

/-- A struct with a digit, which its Rust type holds in a byte. -/
def digitTy : Ty := .struct "Digit" [("digit", .unsigned 9), ("flags", .vector 2 .boolean)]

def digit (n : ℕ) (h : n < 256) : RustVal plainCodecs digitTy :=
  (⟨n, h⟩, ⟨[true, false], rfl⟩, ())

theorem bindings_agree_digit :
    encodeTyped plainCodecs
      (.struct [("flags", .tuple [.bool true, .integer 0]), ("digit", .integer 7)]) digitTy =
        .ok (encodeToAlignedValue digitTy (digit 7 (by decide))) := by
  refine (bindings_agree plainCodecs digitTy ⟨trivial, trivial, trivial⟩ (digit 7 (by decide))
    ⟨(by decide : 7 ≤ 9), fun _ _ => trivial, trivial⟩).1 _ (.inr ?_)
  refine ⟨[.integer 7, .tuple [.bool true, .integer 0]],
    ⟨_, _, rfl, .inr rfl, _, _, rfl, .inr ⟨_, rfl, ?_⟩, rfl⟩,
    .inr ⟨_, rfl, rfl, .cons rfl (.cons rfl .nil)⟩⟩
  exact .cons (.inr (.inl rfl)) (.cons (.inr (.inr rfl)) .nil)

/-- The Rust type of a digit holds 200, and its conversion gives an aligned value
where the interpreter refuses the same value. -/
theorem bindings_exceed_bound :
    Spelled digitTy (digit 200 (by decide))
        (.struct [("digit", .integer 200), ("flags", .tuple [.bool true, .bool false])]) ∧
      encodeToAlignedValue digitTy (digit 200 (by decide)) =
        ⟨[[200], [1], []], [.atom (.bytes 1), .atom (.bytes 1), .atom (.bytes 1)]⟩ ∧
      ∃ e, encodeTyped plainCodecs
        (.struct [("digit", .integer 200), ("flags", .tuple [.bool true, .bool false])])
          digitTy = .error e := by
  refine ⟨.inr ?_, by decide, ⟨_, rfl⟩⟩
  refine ⟨[.integer 200, .tuple [.bool true, .bool false]],
    ⟨_, _, rfl, .inr rfl, _, _, rfl, .inr ⟨_, rfl, ?_⟩, rfl⟩,
    .inr ⟨_, rfl, rfl, .cons rfl (.cons rfl .nil)⟩⟩
  exact .cons (.inr (.inl rfl)) (.cons (.inr (.inl rfl)) .nil)

end Agreement

end MidnightRs.Compact
