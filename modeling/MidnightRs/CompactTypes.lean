import MidnightRs.Errors
import Mathlib.Data.List.Basic

/-!
The aligned encoding of Compact values. A type fixes how many atoms a value
takes, where each element of an aggregate starts, and which alignment every
atom carries; a value may already be flat at any depth. Atoms are zero-trimmed
little-endian bytes, so only the alignment records the declared width.
-/
namespace MidnightRs.Compact

abbrev Atom := Bytes

inductive AlignmentAtom where
  | compress
  | bytes (length : ℕ)
  | field
deriving DecidableEq, Repr

/-- An option segment covers a disjoint union. No Compact type encodes as one. -/
inductive AlignmentSegment where
  | atom (a : AlignmentAtom)
  | option
deriving DecidableEq, Repr

structure AlignedValue where
  value : List Atom
  alignment : List AlignmentSegment
deriving DecidableEq, Repr

namespace AlignedValue

def concat (parts : List AlignedValue) : AlignedValue :=
  ⟨(parts.map AlignedValue.value).flatten, (parts.map AlignedValue.alignment).flatten⟩

def unit : AlignedValue := ⟨[], []⟩

/-- One atom with its alignment. -/
def single (a : Atom) (alignment : AlignmentAtom) : AlignedValue := ⟨[a], [.atom alignment]⟩

end AlignedValue

/-- Trailing zeros carry nothing, and the normal form drops them. -/
def trim : Bytes → Bytes
  | [] => []
  | b :: bs =>
    match trim bs with
    | [] => if b = 0 then [] else [b]
    | c :: cs => b :: c :: cs

/-- The low `width` bytes of `n`, least significant first. -/
def toLeBytes : ℕ → ℕ → Bytes
  | 0, _ => []
  | width + 1, n => UInt8.ofNat (n % 256) :: toLeBytes width (n / 256)

def ofLeBytes : Bytes → ℕ
  | [] => 0
  | b :: bs => b.toNat + 256 * ofLeBytes bs

def u128Bytes : ℕ := 16

def u128Bound : ℕ := 256 ^ u128Bytes

def usizeBound : ℕ := 2 ^ 64

/-- A cast of a length to the 32 bits that an alignment records. -/
def asU32 (n : ℕ) : ℕ := n % 2 ^ 32

inductive Curve where
  | jubjub
  | secp256k1
  | secp256r1
  | curve25519
deriving DecidableEq, Repr

inductive FieldType where
  | native
  | base (c : Curve)
  | scalar (c : Curve)
deriving DecidableEq, Repr

/-- The foreign fields, which do not compute as the native field. -/
inductive ForeignField where
  | secp256k1Base
  | secp256k1Scalar
  | secp256r1Base
  | secp256r1Scalar
  | curve25519Base
  | curve25519Scalar
deriving DecidableEq, Repr

namespace ForeignField

def of : FieldType → Option ForeignField
  | .native => none
  | .base .jubjub => none
  | .scalar .jubjub => none
  | .base .secp256k1 => some secp256k1Base
  | .scalar .secp256k1 => some secp256k1Scalar
  | .base .secp256r1 => some secp256r1Base
  | .scalar .secp256r1 => some secp256r1Scalar
  | .base .curve25519 => some curve25519Base
  | .scalar .curve25519 => some curve25519Scalar

/-- The bits that the low atom of an element holds. -/
def lowBits : ForeignField → ℕ
  | curve25519Scalar => 204
  | _ => 192

/-- An element is 256 bits split over two atoms. -/
def alignment (f : ForeignField) : List AlignmentSegment :=
  [.atom (.bytes ((f.lowBits + 7) / 8)), .atom (.bytes ((256 - f.lowBits + 7) / 8))]

def name : ForeignField → String
  | secp256k1Base => "Secp256k1Base"
  | secp256k1Scalar => "Secp256k1Scalar"
  | secp256r1Base => "Secp256r1Base"
  | secp256r1Scalar => "Secp256r1Scalar"
  | curve25519Base => "Curve25519Base"
  | curve25519Scalar => "Curve25519Scalar"

end ForeignField

namespace Curve

/-- The coordinates of a point in the encoding of its base field, with a flag
for the identity on the curves that have no affine point for it. -/
def alignment : Curve → List AlignmentSegment
  | jubjub => [.atom .field, .atom .field]
  | secp256k1 =>
    ForeignField.secp256k1Base.alignment ++ ForeignField.secp256k1Base.alignment ++ [.atom .field]
  | secp256r1 =>
    ForeignField.secp256r1Base.alignment ++ ForeignField.secp256r1Base.alignment ++ [.atom .field]
  | curve25519 =>
    ForeignField.curve25519Base.alignment ++ ForeignField.curve25519Base.alignment

def pointName : Curve → String
  | jubjub => "JubjubPoint"
  | secp256k1 => "Secp256k1Point"
  | secp256r1 => "Secp256r1Point"
  | curve25519 => "Curve25519Point"

end Curve

/-- Decoding an element and encoding it again, where the curve crates do both:
the result is an encoding, which stays as it is, and has its atoms. -/
structure Codec (alignment : List AlignmentSegment) where
  reencode : List Atom → Option (List Atom)
  reencode_reencode : ∀ a b, reencode a = some b → reencode b = some b
  length_reencode : ∀ a b, reencode a = some b → b.length = alignment.length

structure Codecs where
  field : (f : ForeignField) → Codec f.alignment
  point : (c : Curve) → Codec c.alignment

/-- The types of the analyzed IR. A contract's circuits and a ledger type's
arguments play no part in an encoding. -/
inductive Ty where
  | boolean
  | field (f : FieldType)
  | unsigned (maxval : ℕ)
  | point (c : Curve)
  | bytes (length : ℕ)
  | opaqueData (name : String)
  | vector (len : ℕ) (ty : Ty)
  | tuple (types : List Ty)
  | struct (name : String) (fields : List (String × Ty))
  | enum (name : String) (variants : List String)
  | aliasOf (nominal : Bool) (name : String) (ty : Ty)
  | contract (name : String)
  | adt (name : String)
  | typeVar (name : String)
  | unknown
deriving Repr

namespace Ty

/-- What the compiler puts in place of a contract type. -/
def contractAddress : Ty := .struct "ContractAddress" [("bytes", .bytes 32)]

/-- The type with its outer aliases removed. -/
def resolved : Ty → Ty
  | aliasOf _ _ ty => ty.resolved
  | ty => ty

end Ty

/-- The fewest bytes that hold the bound, and one byte for a zero bound. -/
def uintByteWidth (maxval : ℕ) : ℕ :=
  if maxval = 0 then 1 else (Nat.log2 maxval + 1 + 7) / 8

/-- A value while a circuit body runs. Integers are 128 bits wide, and the names
of a struct value are distinct. -/
inductive Value where
  | bool (b : Bool)
  | integer (n : ℕ)
  | alignedValue (av : AlignedValue)
  | struct (fields : List (String × Value))
  | tuple (elements : List Value)
  | void
deriving Repr

inductive InterpreterError where
  | cannotEncode (val : Value) (ty : Ty)
  | notExecutable (ty : Ty)
  | uintOutOfRange (n maxval : ℕ)
  | enumOutOfRange (n : ℕ)
  | bytesDoNotFit (byteLen length : ℕ)
  | expected (what name : String) (val : Value)
  | fieldCount (struct : String) (expected got : ℕ)
  | missingField (struct field : String)
  | inField (field struct : String) (e : InterpreterError)
  | noValue (ty : Ty)
  | lengthTooLarge (length : ℕ)
  | structWithoutType
  | expectedNumber (val : Value)
  | expectedBytes (length : ℕ) (val : Value)
  | nonVectorSpread (val : Value)
  | wideByteString (byteLen length : ℕ)
  | noCast (source : Ty) (name : String)
  | exceedsField (bytes : Bytes)
  | uintAboveU128 (n : ℕ)
  | assertionFailed (message : String)
  | undefinedVariable (id : String)
  | typeError (what : String)
  | unsupported (what : String)
  | unsupportedType (what : String)
  | ledgerQueryFailed (message : String)
  | witness (message : String)
  | noContractAddress
  | ofProvider (e : InterpreterError)
deriving Repr

section Layout

def toUsize (n : ℕ) : Option ℕ := if n < usizeBound then some n else none

def checkedAdd (a b : ℕ) : Option ℕ := toUsize (a + b)

def checkedMul (a b : ℕ) : Option ℕ := toUsize (a * b)

def opaqueAtoms (name : String) : ℕ := if name = "JubjubPoint" then 2 else 1

mutual

/-- The atoms a value of the type takes, if the type has a fixed width that
fits a `usize`. -/
def atomCountForType : Ty → Option ℕ
  | .field f =>
    match ForeignField.of f with
    | some foreign => some foreign.alignment.length
    | none => some 1
  | .boolean => some 1
  | .unsigned _ => some 1
  | .bytes _ => some 1
  | .point c => some c.alignment.length
  | .opaqueData name => some (opaqueAtoms name)
  | .tuple types => atomsOf types 0
  | .vector len ty => (atomCountForType ty).bind (fun n => (toUsize len).bind (checkedMul n))
  | .struct _ fields => atomsOfFields fields 0
  | .enum _ _ => some 1
  | .aliasOf _ _ ty => atomCountForType ty
  | .contract _ => some 1
  | .adt _ => none
  | .typeVar _ => none
  | .unknown => none

def atomsOf : List Ty → ℕ → Option ℕ
  | [], total => some total
  | t :: ts, total =>
    (atomCountForType t).bind (fun n => (checkedAdd total n).bind (atomsOf ts))

def atomsOfFields : List (String × Ty) → ℕ → Option ℕ
  | [], total => some total
  | (_, t) :: fields, total =>
    (atomCountForType t).bind (fun n => (checkedAdd total n).bind (atomsOfFields fields))

end

/-- Field name, atom offset and atom count, in declaration order. -/
abbrev StructLayout := List (String × ℕ × ℕ)

def StructLayout.fieldSlice (layout : StructLayout) (name : String) : Option (ℕ × ℕ) :=
  (layout.find? (fun f => decide (f.1 = name))).map Prod.snd

def layoutFrom : List (String × Ty) → ℕ → Option StructLayout
  | [], _ => some []
  | (name, ty) :: fields, offset =>
    (atomCountForType ty).bind (fun len =>
      (checkedAdd offset len).bind (fun next =>
        (layoutFrom fields next).map (fun rest => (name, offset, len) :: rest)))

def layoutFromFields (fields : List (String × Ty)) : Option StructLayout := layoutFrom fields 0

def elementCount (ty : Ty) : Option ℕ :=
  match ty.resolved with
  | .vector len _ => toUsize len
  | .tuple types => some types.length
  | _ => none

def elementTypeAt (ty : Ty) (i : ℕ) : Option Ty :=
  match ty.resolved with
  | .vector _ ty => some ty
  | .tuple types => types[i]?
  | _ => none

/-- The atoms of element `i`, as a start and an end. -/
def elementAtomRange (ty : Ty) (i : ℕ) : Option (ℕ × ℕ) :=
  match ty.resolved with
  | .vector len ty =>
    (toUsize len).bind (fun len =>
      if len ≤ i then none
      else (atomCountForType ty).bind (fun stride =>
        (checkedMul i stride).bind (fun start =>
          (checkedAdd start stride).map (fun stop => (start, stop)))))
  | .tuple types =>
    if types.length < i then none
    else (atomsOf (types.take i) 0).bind (fun start =>
      (types[i]?).bind (fun ty =>
        (atomCountForType ty).bind (fun width =>
          (checkedAdd start width).map (fun stop => (start, stop)))))
  | _ => none

def AlignmentSegment.isAtom : AlignmentSegment → Bool
  | .atom _ => true
  | .option => false

/-- The atoms from `start` up to `stop`, with their alignment. A value whose
alignment does not give one atom for each value atom has no slices. -/
def sliceAtoms (av : AlignedValue) (start stop : ℕ) : Option AlignedValue :=
  if av.alignment.length = av.value.length ∧ av.alignment.all AlignmentSegment.isAtom ∧
      stop ≤ av.value.length then
    some ⟨(av.value.take stop).drop start, (av.alignment.take stop).drop start⟩
  else none

end Layout

section Encode

/-- The first atom as an integer of at most 16 bytes, whatever its alignment. -/
def alignedAtomToU128 (av : AlignedValue) : Option ℕ :=
  match av.value with
  | [] => none
  | a :: _ => if a.length ≤ u128Bytes then some (ofLeBytes a) else none

def valueToU128 : Value → Option ℕ
  | .integer n => some n
  | .bool b => some (if b then 1 else 0)
  | .alignedValue av => alignedAtomToU128 av
  | _ => none

/-- A bound wider than 128 bits cannot be exceeded by an integer of 128. -/
def checkUintRange (n maxval : ℕ) : Except InterpreterError ℕ :=
  let max := if maxval < u128Bound then maxval else u128Bound - 1
  if max < n then .error (.uintOutOfRange n maxval) else .ok max

/-- A single atom under a `Bytes` alignment that it has to fit. -/
def bytesAlignedValue (bytes : Bytes) (length : ℕ) : Except InterpreterError AlignedValue :=
  if (trim bytes).length ≤ asU32 length then
    .ok (.single (trim bytes) (.bytes (asU32 length)))
  else .error (.bytesDoNotFit bytes.length length)

def ofBool (b : Bool) : AlignedValue := .single (if b then [1] else []) (.bytes 1)

def ofU8 (n : ℕ) : AlignedValue := .single (trim (toLeBytes 1 n)) (.bytes 1)

/-- An integer as an element of the native field. -/
def ofFr (n : ℕ) : AlignedValue := .single (trim (toLeBytes u128Bytes n)) .field

def emptyOpaque : AlignedValue := .single [] .compress

def encodeBoolean (val : Value) : Except InterpreterError AlignedValue :=
  match val with
  | .bool b => .ok (ofBool b)
  | .integer n => .ok (ofBool (decide (n ≠ 0)))
  | .alignedValue av =>
    match alignedAtomToU128 av with
    | some n => .ok (ofBool (decide (n ≠ 0)))
    | none => .error (.cannotEncode val .boolean)
  | _ => .error (.cannotEncode val .boolean)

def encodeUnsigned (maxval : ℕ) (val : Value) : Except InterpreterError AlignedValue :=
  match valueToU128 val with
  | none => .error (.cannotEncode val (.unsigned maxval))
  | some n =>
    match checkUintRange n maxval with
    | .error e => .error e
    | .ok _ => bytesAlignedValue (toLeBytes u128Bytes n) (uintByteWidth maxval)

/-- Checks that the value is an element by encoding it again. -/
def encodeAs {alignment : List AlignmentSegment} (codec : Codec alignment) (name : String)
    (val : Value) : Except InterpreterError AlignedValue :=
  match val with
  | .alignedValue av =>
    match codec.reencode av.value with
    | some atoms => .ok ⟨atoms, alignment⟩
    | none => .error (.expected "an encoding" name val)
  | _ => .error (.expected "an encoding" name val)

def encodeField (c : Codecs) (f : FieldType) (val : Value) :
    Except InterpreterError AlignedValue :=
  match ForeignField.of f with
  | some foreign => encodeAs (c.field foreign) foreign.name val
  | none =>
    match val with
    | .alignedValue av => .ok av
    | .integer n => .ok (ofFr n)
    | _ => .error (.cannotEncode val (.field f))

/-- A flat value takes the alignment of the type, whatever it carried. -/
def encodeBytes (length : ℕ) (val : Value) : Except InterpreterError AlignedValue :=
  match val with
  | .alignedValue av => .ok ⟨av.value, [.atom (.bytes (asU32 length))]⟩
  | .void => bytesAlignedValue [] length
  | _ => .error (.cannotEncode val (.bytes length))

def encodeOpaque (ty : Ty) (val : Value) : Except InterpreterError AlignedValue :=
  match val with
  | .alignedValue av => .ok av
  | .void => .ok emptyOpaque
  | _ => .error (.cannotEncode val ty)

def encodeEnum (ty : Ty) (val : Value) : Except InterpreterError AlignedValue :=
  match val with
  | .integer n => if n < 256 then .ok (ofU8 n) else .error (.enumOutOfRange n)
  | .alignedValue av => .ok av
  | _ => .error (.cannotEncode val ty)

/-- An aggregate is flat already, or its parts are encoded one by one. -/
inductive Parts where
  | flat (av : AlignedValue)
  | each (vals : List Value)

def tupleParts (types : List Ty) (val : Value) : Except InterpreterError Parts :=
  match val with
  | .alignedValue av => .ok (.flat av)
  | .void => if types.isEmpty then .ok (.flat .unit) else .error (.cannotEncode val (.tuple types))
  | .tuple elements =>
    if elements.length = types.length then .ok (.each elements)
    else .error (.cannotEncode val (.tuple types))
  | _ => .error (.cannotEncode val (.tuple types))

def vectorParts (len : ℕ) (ty : Ty) (val : Value) : Except InterpreterError Parts :=
  match val with
  | .alignedValue av => .ok (.flat av)
  | .tuple elements =>
    if elements.length = len then .ok (.each elements)
    else .error (.cannotEncode val (.vector len ty))
  | _ => .error (.cannotEncode val (.vector len ty))

/-- The supplied fields in declaration order. -/
def suppliedFields (name : String) (supplied : List (String × Value)) :
    List (String × Ty) → Except InterpreterError (List Value)
  | [] => .ok []
  | (field, _) :: fields =>
    match supplied.lookup field with
    | none => .error (.missingField name field)
    | some v => (suppliedFields name supplied fields).map (v :: ·)

def structParts (name : String) (fields : List (String × Ty)) (val : Value) :
    Except InterpreterError Parts :=
  match val with
  | .alignedValue av => .ok (.flat av)
  | .struct supplied =>
    if supplied.length = fields.length then (suppliedFields name supplied fields).map .each
    else .error (.fieldCount name fields.length supplied.length)
  | .tuple elements =>
    if elements.length = fields.length then .ok (.each elements)
    else .error (.fieldCount name fields.length elements.length)
  | _ => .error (.cannotEncode val (.struct name fields))

def encodeParts (encodeEach : List Value → Except InterpreterError (List AlignedValue)) :
    Except InterpreterError Parts → Except InterpreterError AlignedValue
  | .error e => .error e
  | .ok (.flat av) => .ok av
  | .ok (.each vals) => (encodeEach vals).map .concat

/-- Every element in turn, up to the first error. -/
def encodeVector (encode : Value → Except InterpreterError AlignedValue) :
    List Value → Except InterpreterError (List AlignedValue)
  | [] => .ok []
  | v :: vs =>
    match encode v with
    | .error e => .error e
    | .ok av => (encodeVector encode vs).map (av :: ·)

variable (c : Codecs)

mutual

/-- The aligned encoding of a value at its declared type. -/
def encodeTyped (val : Value) : Ty → Except InterpreterError AlignedValue
  | .boolean => encodeBoolean val
  | .unsigned maxval => encodeUnsigned maxval val
  | .field f => encodeField c f val
  | .bytes length => encodeBytes length val
  | .aliasOf _ _ ty => encodeTyped val ty
  | .contract _ =>
    encodeParts (encodeVector (fun v => (encodeBytes 32 v).mapError
        (.inField "bytes" "ContractAddress")))
      (structParts "ContractAddress" [("bytes", .bytes 32)] val)
  | .point .jubjub => encodeOpaque (.point .jubjub) val
  | .point curve => encodeAs (c.point curve) curve.pointName val
  | .opaqueData name => encodeOpaque (.opaqueData name) val
  | .tuple types => encodeParts (fun vals => encodeTuple vals types) (tupleParts types val)
  | .vector len ty =>
    encodeParts (encodeVector (fun v => encodeTyped v ty)) (vectorParts len ty val)
  | .struct name fields =>
    encodeParts (fun vals => encodeFields name vals fields) (structParts name fields val)
  | .enum name variants => encodeEnum (.enum name variants) val
  | .adt name => .error (.notExecutable (.adt name))
  | .typeVar name => .error (.notExecutable (.typeVar name))
  | .unknown => .error (.notExecutable .unknown)

def encodeTuple (vals : List Value) : List Ty → Except InterpreterError (List AlignedValue)
  | [] => .ok []
  | ty :: types =>
    match vals with
    | [] => .ok []
    | v :: vals =>
      match encodeTyped v ty with
      | .error e => .error e
      | .ok av => (encodeTuple vals types).map (av :: ·)

def encodeFields (name : String) (vals : List Value) :
    List (String × Ty) → Except InterpreterError (List AlignedValue)
  | [] => .ok []
  | (field, ty) :: fields =>
    match vals with
    | [] => .ok []
    | v :: vals =>
      match encodeTyped v ty with
      | .error e => .error (.inField field name e)
      | .ok av => (encodeFields name vals fields).map (av :: ·)

end

theorem structParts_length (name : String) (fields : List (String × Ty)) (val : Value)
    (vals : List Value) (h : structParts name fields val = .ok (.each vals)) :
    vals.length = fields.length := by
  have hsupplied : ∀ (supplied : List (String × Value)) (fields : List (String × Ty))
      (vals : List Value), suppliedFields name supplied fields = .ok vals →
      vals.length = fields.length := by
    intro supplied fields
    induction fields with
    | nil =>
      intro vals h
      cases h
      rfl
    | cons field fields ih =>
      intro vals h
      unfold suppliedFields at h
      cases hlookup : supplied.lookup field.1 with
      | none =>
        rw [hlookup] at h
        cases h
      | some v =>
        cases hrest : suppliedFields name supplied fields with
        | error e =>
          simp [hlookup, hrest, Except.map] at h
        | ok rest =>
          simp only [hlookup, hrest, Except.map, Except.ok.injEq] at h
          subst vals
          simp [ih rest hrest]
  cases val with
  | struct supplied =>
    simp only [structParts] at h
    split at h
    · cases hrest : suppliedFields name supplied fields with
      | error e => simp [hrest, Except.map] at h
      | ok rest =>
        simp only [hrest, Except.map, Except.ok.injEq, Parts.each.injEq] at h
        subst vals
        exact hsupplied supplied fields rest hrest
    · cases h
  | tuple elements =>
    simp only [structParts] at h
    split at h
    · rename_i hlen
      simp only [Except.ok.injEq, Parts.each.injEq] at h
      subst vals
      exact hlen
    · cases h
  | bool b => cases h
  | integer n => cases h
  | alignedValue av => cases h
  | void => cases h

/-- A contract handle encodes as the address struct that stands for it. -/
theorem encodeTyped_contract (val : Value) (name : String) :
    encodeTyped c val (.contract name) = encodeTyped c val .contractAddress := by
  simp only [encodeTyped, Ty.contractAddress]
  cases hparts : structParts "ContractAddress" [("bytes", .bytes 32)] val with
  | error e => rfl
  | ok parts =>
    cases parts with
    | flat av => rfl
    | each vals =>
      obtain ⟨v, rfl⟩ := List.length_eq_one_iff.1 (structParts_length _ _ _ _ hparts)
      simp only [encodeParts, encodeVector, encodeFields, encodeTyped]
      cases encodeBytes 32 v <;> rfl

end Encode

end MidnightRs.Compact
