import MidnightRs.CircuitIr

/-!
The functions that a body calls on values: the natives, the arithmetic, the
comparison and the access to elements and fields. A value arrives in parts or flat,
and a flat one is sliced by the layout of its type. What the curve and hash
libraries compute is a parameter.
-/
namespace MidnightRs.Circuits

open MidnightRs.Compact

/-- What the curve and hash libraries compute. -/
structure Crypto (c : Codecs) where
  elements : Elements c
  Fr : Type
  frOfNat : ℕ → Fr
  frOfAtoms : List Atom → Option Fr
  frLeBytes : Fr → Bytes
  frAligned : Fr → AlignedValue
  frArith : ArithOp → Fr → Fr → Fr
  foreignArith : ForeignField → ArithOp → List Atom → List Atom → List Atom
  foreignLeBytes : ForeignField → List Atom → Bytes
  leafHash : AlignedValue → AlignedValue
  maxAlignedSize : List AlignmentSegment → ℕ
  Point : Type
  pointOfAtoms : List Atom → Option Point
  hashOfAtoms : List Atom → Option Bytes
  binaryRepr : AlignedValue → Bytes
  fieldVec : AlignedValue → List Fr
  persistentCommit : AlignedValue → Bytes → AlignedValue
  transientCommit : AlignedValue → Fr → AlignedValue
  persistentHash : Bytes → AlignedValue
  keccak256 : Bytes → AlignedValue
  sha512 : Bytes → AlignedValue
  transientHash : List Fr → AlignedValue
  hashToCurve : AlignedValue → AlignedValue
  ecMulGenerator : Fr → AlignedValue
  ecMul : Point → Fr → AlignedValue
  ecAdd : Point → Point → AlignedValue
  ecNeg : Point → AlignedValue
  jubjubPointX : Point → AlignedValue
  jubjubPointY : Point → AlignedValue
  constructJubjubPoint : Fr → Fr → Option AlignedValue
  degradeToTransient : Bytes → AlignedValue
  upgradeFromTransient : Fr → AlignedValue
  foreignNative : String → List Value → Option (Except String AlignedValue)

abbrev Result (α : Type) := Except InterpreterError α

/-- A value that has to be there. -/
def required {α : Type} (x : Option α) (what : String) : Result α :=
  match x with
  | some a => .ok a
  | none => .error (.typeError what)

section Numbers

variable {c : Codecs} (crypto : Crypto c)

def valueToFr : Value → Option crypto.Fr
  | .integer n => some (crypto.frOfNat n)
  | .alignedValue av => crypto.frOfAtoms av.value
  | _ => none

def valueToPoint : Value → Option crypto.Point
  | .alignedValue av => crypto.pointOfAtoms av.value
  | _ => none

def valueToHashOutput (v : Value) : Result Bytes := do
  let av ← tryToAlignedValue v
  required (crypto.hashOfAtoms av.value) "expected a 32-byte value: one atom of at most 32 bytes"

def isTruthy : Value → Bool
  | .bool b => b
  | .integer n => decide (n ≠ 0)
  | .void => false
  | .alignedValue av => !av.value.all (fun atom => atom.all (fun b => b == 0))
  | _ => true

/-- An integer that fits 128 bits is one; a larger one is a field element. -/
def evalLiteral : Literal → Result Value
  | .bool b => .ok (.bool b)
  | .int n =>
    if 0 ≤ n ∧ n.toNat < u128Bound then .ok (.integer n.toNat)
    else
      let le := if n < 0 then none else some (toLeBytes (uintByteWidth n.toNat) n.toNat)
      match le.bind crypto.elements.frFromLeBytes with
      | some a => .ok (.alignedValue (.single a .field))
      | none => .error (.typeError s!"invalid Field literal {n}")
  | .bytes bytes => (bytesAlignedValue bytes bytes.length).map .alignedValue

def refuseForeignCast (f : FieldType) : Result Unit :=
  match ForeignField.of f with
  | some foreign => .error (.typeError s!"no cast between {foreign.name} and Field or Uint")
  | none => .ok ()

/-- An element of a foreign field, for the operation that asks for one. -/
def foreignElement (f : ForeignField) (v : Value) (what : String) : Result (List Atom) :=
  match v with
  | .alignedValue av =>
    match (c.field f).reencode av.value with
    | some atoms => .ok atoms
    | none => .error (.expected what f.name v)
  | _ => .error (.expected what f.name v)

/-- Arithmetic at the type of the result: in a foreign field, in the native field,
or exact for a Uint. -/
def arithValues (op : ArithOp) (ty : Ty) (lv rv : Value) : Result Value :=
  match ty.resolved with
  | .field f =>
    match ForeignField.of f with
    | some foreign => do
      let l ← foreignElement (c := c) foreign lv op.name
      let r ← foreignElement (c := c) foreign rv op.name
      pure (.alignedValue ⟨crypto.foreignArith foreign op l r, foreign.alignment⟩)
    | none => do
      let l ← required (valueToFr crypto lv) "expected a Field operand"
      let r ← required (valueToFr crypto rv) "expected a Field operand"
      pure (.alignedValue (crypto.frAligned (crypto.frArith op l r)))
  | .unsigned _ => do
    let l ← required (valueToU128 lv) "expected a Uint operand"
    let r ← required (valueToU128 rv) "expected a Uint operand"
    match op with
    | .add => uintValue (l + r)
    | .mul => uintValue (l * r)
    | .sub =>
      if r ≤ l then .ok (.integer (l - r))
      else .error (.typeError s!"the Uint result of {l} - {r} is negative")
  | _ => .error (.typeError "arithmetic on a value of another type")

/-- The same atoms at the type, whatever the alignment. -/
def valuesEqual (a b : Value) (ty : Ty) : Result Bool := do
  let x ← encodeTyped c a ty
  let y ← encodeTyped c b ty
  pure (decide (x.value = y.value))

def compareValues : CompareOp → ℕ → ℕ → Bool
  | .lt, a, b => decide (a < b)
  | .le, a, b => decide (a ≤ b)
  | .gt, a, b => decide (b < a)
  | .ge, a, b => decide (b ≤ a)

/-- The largest encoding of a value of the type, measured on its default. -/
def maxSizeof (ty : Ty) : Result ℕ := do
  let v ← defaultValue crypto.elements ty
  let av ← encodeTyped c v ty
  let size := crypto.maxAlignedSize av.alignment
  if size < 2 ^ 64 then pure size
  else .error (.typeError "max-sizeof does not fit a u64")

def fieldToBytes (len : ℕ) (f : FieldType) (v : Value) : Result Value := do
  let len ← irLength len
  match ForeignField.of f with
  | some foreign => do
    let element ← foreignElement (c := c) foreign v "a cast to Bytes"
    toBytes (crypto.foreignLeBytes foreign element) len
  | none => do
    let fr ← required (valueToFr crypto v) "field-to-bytes expects a Field value"
    toBytes (crypto.frLeBytes fr) len
where
  toBytes (bytes : Bytes) (len : ℕ) : Result Value :=
    match bytesAlignedValue bytes len with
    | .ok av => .ok (.alignedValue av)
    | .error _ => .error (.typeError s!"range error: the value does not fit into {len} bytes")

end Numbers

section Elements

def byteAt (v : Value) (length i : ℕ) (what : String) : Result Value :=
  if length ≤ i then
    .error (.typeError s!"{what} index {i} out of bounds for a {length}-byte value")
  else (paddedBytes v length).map (fun bytes => .integer (bytes.getD i 0).toNat)

/-- Element `i` of a value: by position, as a byte, or as the atoms that the type
gives it. -/
def indexedElement (v : Value) (ty : Option Ty) (i : ℕ) (what : String) : Result Value :=
  match v with
  | .tuple elements =>
    required elements[i]? s!"{what} index {i} out of bounds (len {elements.length})"
  | .alignedValue av => do
    let ty ← required ty s!"cannot {what}-index a flattened value of unknown type"
    match ty.resolved with
    | .bytes length => do
      let length ← irLength length
      byteAt v length i what
    | _ =>
      match elementAtomRange ty i with
      | none =>
        match elementCount ty with
        | none => .error (.typeError s!"cannot {what}-index a flattened value of its type")
        | some len =>
          if len ≤ i then .error (.typeError s!"{what} index {i} out of bounds (len {len})")
          else .error (.typeError s!"cannot lay out {what} element {i}")
      | some (start, stop) =>
        (required (sliceAtoms av start stop)
          s!"{what} index {i} takes atoms that a flattened value does not align").map .alignedValue
  | _ => .error (.typeError s!"cannot {what}-index the value")

/-- The `n` elements from `start` on. -/
def elementsFrom (v : Value) (ty : Option Ty) (what : String) : ℕ → ℕ → Result (List Value)
  | _, 0 => .ok []
  | start, n + 1 => do
    let x ← indexedElement v ty start what
    let xs ← elementsFrom v ty what (start + 1) n
    pure (x :: xs)

def sliceElements (v : Value) (ty : Ty) (start len : ℕ) : Result Value :=
  (elementsFrom v (some ty) "slice" start len).map .tuple

/-- One atom for each element, where no type lays them out. -/
def atomElements (av : AlignedValue) : ℕ → ℕ → Result (List Value)
  | _, 0 => .ok []
  | start, n + 1 => do
    let x ← required (sliceAtoms av start (start + 1))
      ("spread over an AlignedValue that does not carry one alignment atom per value atom " ++
        "(e.g. Maybe) is not supported")
    let xs ← atomElements av (start + 1) n
    pure (.alignedValue x :: xs)

/-- The elements of the value that a spread splices in. -/
def spliceSpread (inner : Value) (ty : Option Ty) (expected : ℕ) : Result (List Value) :=
  match inner with
  | .alignedValue av =>
    if ty.bind elementCount = some expected then elementsFrom inner ty "spread" 0 expected
    else if av.value.length ≠ expected then
      .error (.typeError
        s!"spread of length {expected} got an AlignedValue with {av.value.length} atoms")
    else atomElements av 0 expected
  | .tuple elements =>
    if elements.length ≠ expected then
      .error (.typeError
        s!"spread of length {expected} got a tuple with {elements.length} elements")
    else .ok elements
  | v => .error (.nonVectorSpread v)

def byteOfElement (v : Value) : Result UInt8 := do
  let n ← required (valueToU128 v) "vector-to-bytes element is not an integer"
  if n < 256 then pure (UInt8.ofNat n)
  else .error (.typeError s!"vector-to-bytes element {n} exceeds 255 (expected Uint<8> elements)")

def bytesOfElements : List Value → Result Bytes
  | [] => .ok []
  | v :: vs => do
    let b ← byteOfElement v
    let bs ← bytesOfElements vs
    pure (b :: bs)

def bytesOfAtoms : List Atom → Result Bytes
  | [] => .ok []
  | a :: atoms => do
    if 1 < a.length then
      .error (.typeError s!"vector-to-bytes element atom of {a.length} bytes exceeds 255")
    else
      let bs ← bytesOfAtoms atoms
      pure (a.headD 0 :: bs)

def vectorValueToBytes (v : Value) (length : ℕ) : Result Bytes :=
  match v with
  | .tuple elements =>
    if elements.length ≠ length then
      .error (.typeError s!"vector-to-bytes of length {length} got {elements.length} elements")
    else bytesOfElements elements
  | .alignedValue av =>
    if av.value.length = length then bytesOfAtoms av.value
    else .error (.typeError s!"expected a Vector<{length}, Uint<8>> value")
  | _ => .error (.typeError s!"expected a Vector<{length}, Uint<8>> value")

/-- A field that lives on the live variant of an Either. -/
def eitherVariantFieldSlice (fields : List (String × Ty)) (av : AlignedValue) (field : String) :
    Option (ℕ × ℕ) := do
  let layout ← layoutFromFields fields
  let (discOff, discLen) ← layout.fieldSlice "is_left"
  let (leftOff, _) ← layout.fieldSlice "left"
  let (rightOff, _) ← layout.fieldSlice "right"
  let disc ← sliceAtoms av discOff (discOff + discLen)
  let isLeft := isTruthy (.alignedValue disc)
  let ty ← fields.lookup (if isLeft then "left" else "right")
  match ty.resolved with
  | .struct _ variantFields => do
    let layout ← layoutFromFields variantFields
    let (subOff, subLen) ← layout.fieldSlice field
    pure ((if isLeft then leftOff else rightOff) + subOff, subLen)
  | _ => none

def fieldAtoms (fields : List (String × Ty)) (layout : StructLayout) (av : AlignedValue)
    (elt : String) : Result (ℕ × ℕ) :=
  match layout.fieldSlice elt with
  | some slice => .ok slice
  | none =>
    required (eitherVariantFieldSlice fields av elt) s!"no field {elt} on the live Either variant"

/-- A field of a struct, by name or by the layout of the receiver's type. -/
def fieldOf (v : Value) (receiverTy : Option Ty) (elt : String) : Result Value :=
  match v with
  | .struct fields => required (fields.lookup elt) s!"struct has no field {elt}"
  | .alignedValue av =>
    match receiverTy.map Ty.resolved with
    | some (.struct name fields) => do
      let layout ← required (layoutFromFields fields)
        s!"cannot compute the layout of {name} for field .{elt}"
      let (offset, len) ← fieldAtoms fields layout av elt
      (required (sliceAtoms av offset (offset + len))
        s!"field .{elt} takes atoms that the value does not align").map .alignedValue
    | _ =>
      .error (.typeError s!"field access .{elt} on AlignedValue with unknown receiver type")
  | _ => .error (.typeError s!"field access .{elt} on another value")

def bytesSlice (v : Value) (ty : Ty) (start len : ℕ) : Result Value := do
  let len ← irLength len
  match ty.resolved with
  | .bytes width => do
    let width ← irLength width
    if width < len ∨ width - len < start then
      .error (.typeError
        s!"slice of {len} bytes at {start} is out of bounds for a {width}-byte value")
    else
      let bytes ← paddedBytes v width
      (bytesAlignedValue ((bytes.drop start).take len) len).map .alignedValue
  | _ => .error (.typeError "byte slice has non-bytes operand type")

def byteRef (v : Value) (ty : Ty) (i : ℕ) : Result Value :=
  match ty.resolved with
  | .bytes width => do
    let width ← irLength width
    byteAt v width i "byte"
  | _ => .error (.typeError "byte reference has non-bytes operand type")

def enumMember (ty : Ty) (elt : String) : Result Value :=
  match ty with
  | .enum name variants =>
    if elt ∈ variants then .ok (.integer (variants.idxOf elt))
    else .error (.typeError s!"enum {name} has no member {elt}")
  | _ => .error (.typeError s!"enum-member {elt} has non-enum type")

end Elements

section Builtins

variable {c : Codecs} (crypto : Crypto c)

/-- An argument at its declared type, or without a type where none is declared. -/
def encodeArgument (argTypes : List Ty) (i : ℕ) (v : Value) : Result AlignedValue :=
  match argTypes[i]? with
  | some ty => encodeTyped c v ty
  | none => tryToAlignedValue v

/-- A bare integer is hashed as a field element. -/
def preimagePart (argTypes : List Ty) (i : ℕ) (v : Value) : Result AlignedValue :=
  match v, argTypes[i]? with
  | .integer _, none => encodeTyped c v (.field .native)
  | _, _ => encodeArgument (c := c) argTypes i v

def hashPreimage (argTypes : List Ty) : ℕ → List Value → Result Bytes
  | _, [] => .ok []
  | i, v :: args => do
    let av ← preimagePart (c := c) argTypes i v
    let rest ← hashPreimage argTypes (i + 1) args
    pure (crypto.binaryRepr av ++ rest)

def fieldInputs (argTypes : List Ty) : ℕ → List Value → Result (List crypto.Fr)
  | _, [] => .ok []
  | i, v :: args => do
    let av ← encodeArgument (c := c) argTypes i v
    let rest ← fieldInputs argTypes (i + 1) args
    pure (crypto.fieldVec av ++ rest)

def arg (args : List Value) (i : ℕ) (native : String) : Result Value :=
  required args[i]? s!"{native}: missing argument {i + 1}"

def fieldArg (args : List Value) (i : ℕ) (native : String) : Result crypto.Fr := do
  let v ← arg args i native
  required (valueToFr crypto v) s!"{native}: argument {i + 1} is not a Field"

def pointArg (args : List Value) (i : ℕ) (native : String) : Result crypto.Point := do
  let v ← arg args i native
  required (valueToPoint crypto v) s!"{native}: argument {i + 1} is not a JubjubPoint"

def hashArg (args : List Value) (i : ℕ) (native : String) : Result Bytes := do
  let v ← arg args i native
  match valueToHashOutput crypto v with
  | .ok hash => .ok hash
  | .error _ => .error (.typeError s!"{native}: argument {i + 1} is not a Bytes<32>")

def arity (args : List Value) (n : ℕ) (native : String) : Result Unit :=
  if args.length = n then .ok ()
  else .error (.typeError s!"{native} expects {n} arguments, got {args.length}")

/-- The builtin of the name applied to the arguments, if there is one. -/
def builtin (name : String) (args : List Value) (argTypes : List Ty) :
    Option (Result AlignedValue) :=
  match name with
  | "persistentCommit" => some do
    let value ← arg args 0 name
    let opening ← hashArg crypto args 1 name
    let av ← encodeArgument (c := c) argTypes 0 value
    pure (crypto.persistentCommit av opening)
  | "transientCommit" => some do
    let value ← arg args 0 name
    let opening ← fieldArg crypto args 1 name
    let av ← encodeArgument (c := c) argTypes 0 value
    pure (crypto.transientCommit av opening)
  | "persistentHash" => some ((hashPreimage crypto argTypes 0 args).map crypto.persistentHash)
  | "keccak256" => some ((hashPreimage crypto argTypes 0 args).map crypto.keccak256)
  | "sha512" => some ((hashPreimage crypto argTypes 0 args).map crypto.sha512)
  | "ecMulGenerator" => some ((fieldArg crypto args 0 name).map crypto.ecMulGenerator)
  | "ecMul" => some do
    arity args 2 name
    let point ← pointArg crypto args 0 name
    let scalar ← fieldArg crypto args 1 name
    pure (crypto.ecMul point scalar)
  | "ecAdd" => some do
    arity args 2 name
    let a ← pointArg crypto args 0 name
    let b ← pointArg crypto args 1 name
    pure (crypto.ecAdd a b)
  | "ecNeg" => some ((pointArg crypto args 0 name).map crypto.ecNeg)
  | "hashToCurve" => some do
    let value ← arg args 0 name
    let av ← encodeArgument (c := c) argTypes 0 value
    pure (crypto.hashToCurve av)
  | "jubjubPointX" => some ((pointArg crypto args 0 name).map crypto.jubjubPointX)
  | "jubjubPointY" => some ((pointArg crypto args 0 name).map crypto.jubjubPointY)
  | "constructJubjubPoint" => some do
    arity args 2 name
    let x ← fieldArg crypto args 0 name
    let y ← fieldArg crypto args 1 name
    required (crypto.constructJubjubPoint x y)
      "constructJubjubPoint: (x, y) is not on the embedded curve"
  | "transientHash" => some ((fieldInputs crypto argTypes 0 args).map crypto.transientHash)
  | "degradeToTransient" => some ((hashArg crypto args 0 name).map crypto.degradeToTransient)
  | "upgradeFromTransient" => some ((fieldArg crypto args 0 name).map crypto.upgradeFromTransient)
  | _ => (crypto.foreignNative name args).map (fun r => r.mapError .typeError)

end Builtins

end MidnightRs.Circuits
