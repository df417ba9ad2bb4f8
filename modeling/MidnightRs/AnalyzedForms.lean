import MidnightRs.Errors
import Mathlib.Data.List.Basic

/-!
The parser of the analyzed IR. Each form is read by position: a table gives the
elements that a head takes, and whether a tail of any length may follow. A list
that is too short panics, and elements past the positions read are left alone.
-/
namespace MidnightRs.AnalyzedIr

section Trees

inductive Sexp where
  | sym (s : String)
  | str (s : String)
  | int (i : ℤ)
  | bool (b : Bool)
  | bytes (b : Bytes)
  | list (items : List Sexp)
  | pair (car cdr : Sexp)
deriving Repr

namespace Sexp

def asSym : Sexp → Option String
  | sym s => some s
  | _ => none

def asList : Sexp → Option (List Sexp)
  | list items => some items
  | _ => none

/-- The head symbol of a non-empty list. -/
def head (s : Sexp) : Option String :=
  (s.asList.bind List.head?).bind asSym

end Sexp

/-- The texts of an error, and the element that it names. -/
inductive Error where
  | unrecognized (context : String) (s : Sexp)
  | expected (what context : String) (got : Sexp)
  | headless (context : String) (s : Sexp)
  | outOfRange (context : String)
  | missing (header : String)
deriving Repr

inductive Outcome (α : Type) where
  | ok (a : α)
  | error (e : Error)
  | panic

namespace Outcome

variable {α β : Type}

def bind : Outcome α → (α → Outcome β) → Outcome β
  | ok a, f => f a
  | error e, _ => error e
  | panic, _ => panic

def map (f : α → β) (o : Outcome α) : Outcome β := o.bind (fun a => ok (f a))

theorem bind_eq_ok {o : Outcome α} {f : α → Outcome β} {b : β} (h : o.bind f = ok b) :
    ∃ a, o = ok a ∧ f a = ok b := by
  cases o with
  | ok a => exact ⟨a, rfl, h⟩
  | error e => cases h
  | panic => cases h

theorem map_eq_ok {o : Outcome α} {f : α → β} {b : β} (h : o.map f = ok b) :
    ∃ a, o = ok a ∧ f a = b := by
  obtain ⟨a, ha, h⟩ := bind_eq_ok h
  cases h
  exact ⟨a, ha, rfl⟩

theorem bind_ne_panic {o : Outcome α} {f : α → Outcome β} (h : o ≠ panic)
    (hf : ∀ a, o = ok a → f a ≠ panic) : o.bind f ≠ panic := by
  cases o with
  | ok a => exact hf a rfl
  | error e => exact fun h => by cases h
  | panic => exact absurd rfl h

theorem map_ne_panic {o : Outcome α} {f : α → β} (h : o ≠ panic) : o.map f ≠ panic :=
  bind_ne_panic h (fun _ _ h => by cases h)

end Outcome

end Trees

section Model

/-- The variants of the typed model that hold elements. The parts of a struct
that no head introduces have one variant each. -/
inductive Variant where
  | curveJubjub | curveSecp256k1 | curveSecp256r1 | curveCurve25519
  | fieldNative | fieldBase | fieldScalar
  | typeBoolean | typeField | typeUnsigned | typePoint | typeBytes | typeOpaque | typeVector
  | typeTuple | typeStruct | typeEnum | typeAlias | typeContract | typeUnknown | typeAdt
  | structField | contractCircuit
  | operandAlign | operandStack | operandVoid | operandValueToInt | operandNull | operandMaxSizeof
  | operandAdd | operandLeafHash | operandCoinCommit | operandAlignedConcat | operandList
  | stateNull | stateCell | stateAdt | stateArray | stateMap | stateMerkleTree
  | operandPair | instruction | instructionArg | instructions
  | argument | tupleSingle | tupleSpread | mapArg | funRef | funCircuit | pathComputed
  | exprQuote | exprVarRef | exprDefault | exprIf | exprEltRef | exprEnumRef | exprTuple
  | exprVectorLit | exprTupleRef | exprTupleSlice | exprVectorRef | exprVectorSlice | exprBytesRef
  | exprBytesSlice | exprAdd | exprSub | exprMul | exprLt | exprLe | exprGt | exprGe | exprEq
  | exprNeq | exprMap | exprFold | exprCall | exprNew | exprSeq | exprLetStar | exprAssert
  | exprFieldToBytes | exprCastFromBytes | exprVectorToBytes | exprBytesToVector
  | exprCastFromEnum | exprCastToEnum | exprCastToField | exprCastFromField | exprSafeCast
  | exprDowncastUnsigned | exprContractCall | exprEmit | exprPublicLedger | exprReturn
  | foldInit | letBinding | callReceiver
  | opClassCoinCheck | ledgerBinding | exported | pure | proof | ledgerArray
  | programCircuit | programNative | programWitness | programKernelDeclaration
  | programLedgerDeclaration | programExportTypedef | nativeEntry | typeArguments | constructor
  | items
deriving DecidableEq, Repr

/-- The symbols that a variant is spelled with, before its elements. -/
def Variant.heads : Variant → List String
  | curveJubjub => ["curve-jubjub"]
  | curveSecp256k1 => ["curve-secp256k1"]
  | curveSecp256r1 => ["curve-secp256r1"]
  | curveCurve25519 => ["curve-curve25519"]
  | fieldNative => ["field-native"]
  | fieldBase => ["field-base"]
  | fieldScalar => ["field-scalar"]
  | typeBoolean => ["tboolean"]
  | typeField => ["tfield"]
  | typeUnsigned => ["tunsigned"]
  | typePoint => ["tpoint"]
  | typeBytes => ["tbytes"]
  | typeOpaque => ["topaque"]
  | typeVector => ["tvector"]
  | typeTuple => ["ttuple"]
  | typeStruct => ["tstruct"]
  | typeEnum => ["tenum"]
  | typeAlias => ["talias"]
  | typeContract => ["tcontract"]
  | typeUnknown => ["tunknown"]
  | operandAlign => ["align"]
  | operandStack => ["stack"]
  | operandVoid => ["void"]
  | operandValueToInt => ["value->int"]
  | operandNull => ["null"]
  | operandMaxSizeof => ["max-sizeof"]
  | operandAdd => ["+"]
  | operandLeafHash => ["leaf-hash"]
  | operandCoinCommit => ["coin-commit"]
  | operandAlignedConcat => ["aligned-concat"]
  | stateNull => ["state-value", "null"]
  | stateCell => ["state-value", "cell"]
  | stateAdt => ["state-value", "ADT"]
  | stateArray => ["state-value", "array"]
  | stateMap => ["state-value", "map"]
  | stateMerkleTree => ["state-value", "merkle-tree"]
  | instructions => ["instructions"]
  | tupleSingle => ["single"]
  | tupleSpread => ["spread"]
  | funRef => ["fref"]
  | funCircuit => ["circuit"]
  | exprQuote => ["quote"]
  | exprVarRef => ["var-ref"]
  | exprDefault => ["default"]
  | exprIf => ["if"]
  | exprEltRef => ["elt-ref"]
  | exprEnumRef => ["enum-ref"]
  | exprTuple => ["tuple"]
  | exprVectorLit => ["vector"]
  | exprTupleRef => ["tuple-ref"]
  | exprTupleSlice => ["tuple-slice"]
  | exprVectorRef => ["vector-ref"]
  | exprVectorSlice => ["vector-slice"]
  | exprBytesRef => ["bytes-ref"]
  | exprBytesSlice => ["bytes-slice"]
  | exprAdd => ["+"]
  | exprSub => ["-"]
  | exprMul => ["*"]
  | exprLt => ["<"]
  | exprLe => ["<="]
  | exprGt => [">"]
  | exprGe => [">="]
  | exprEq => ["=="]
  | exprNeq => ["!="]
  | exprMap => ["map"]
  | exprFold => ["fold"]
  | exprCall => ["call"]
  | exprNew => ["new"]
  | exprSeq => ["seq"]
  | exprLetStar => ["let*"]
  | exprAssert => ["assert"]
  | exprFieldToBytes => ["field->bytes"]
  | exprCastFromBytes => ["cast-from-bytes"]
  | exprVectorToBytes => ["vector->bytes"]
  | exprBytesToVector => ["bytes->vector"]
  | exprCastFromEnum => ["cast-from-enum"]
  | exprCastToEnum => ["cast-to-enum"]
  | exprCastToField => ["cast-to-field"]
  | exprCastFromField => ["cast-from-field"]
  | exprSafeCast => ["safe-cast"]
  | exprDowncastUnsigned => ["downcast-unsigned"]
  | exprContractCall => ["contract-call"]
  | exprEmit => ["emit"]
  | exprPublicLedger => ["public-ledger"]
  | exprReturn => ["return"]
  | exported => ["exported"]
  | pure => ["pure"]
  | proof => ["proof"]
  | ledgerArray => ["public-ledger-array"]
  | programCircuit => ["circuit"]
  | programNative => ["native"]
  | programWitness => ["witness"]
  | programKernelDeclaration => ["kernel-declaration"]
  | programLedgerDeclaration => ["public-ledger-declaration"]
  | programExportTypedef => ["export-typedef"]
  | nativeEntry => ["entry"]
  | typeArguments => ["type-arguments"]
  | constructor => ["constructor"]
  | _ => []

/-- A value of the typed model: a leaf, or a variant with its fields in the order
of their positions. -/
inductive Node where
  | sym (s : String)
  | str (s : String)
  | int (i : ℤ)
  | nat (n : ℕ)
  | bool (b : Bool)
  | bytes (b : Bytes)
  | make (variant : Variant) (fields : List Node)
deriving Repr

mutual

/-- How a value is spelled. -/
def Node.write : Node → Sexp
  | .sym s => .sym s
  | .str s => .str s
  | .int i => .int i
  | .nat n => .int n
  | .bool b => .bool b
  | .bytes b => .bytes b
  | .make variant fields => .list (variant.heads.map .sym ++ Node.writeAll fields)

def Node.writeAll : List Node → List Sexp
  | [] => []
  | n :: ns => n.write :: Node.writeAll ns

end

theorem Node.writeAll_eq (ns : List Node) : Node.writeAll ns = ns.map Node.write := by
  induction ns with
  | nil => rfl
  | cons n ns ih => rw [Node.writeAll, ih, List.map_cons]

end Model

section Forms

/-- What an element is read as. A fixed list has exactly its elements, after the
heads of its variant where it has any. -/
inductive Kind where
  | sym (context : String)
  | string (context : String)
  | boolean (context : String)
  | bigNat (context : String)
  | nat (context : String)
  | literal
  | curve
  | fieldType
  | adtArg
  | type
  | operand
  | instruction
  | tupleArg
  | func
  | pathElement
  | expr
  | opClass
  | ledgerArray
  | ledgerItem
  | programElement
  | fixed (context : String) (variant : Variant) (kinds : List Kind)
  | listOf (context : String) (kind : Kind)
  | tagged (variant : Variant) (context : String) (kind : Kind)
  | keyed (variant : Variant) (context boolContext : String)

/-- A check of an element's shape, before its form is read. -/
inductive Shape where
  | fixed (context : String) (length : ℕ) (heads : List String)
  | tagged (context head : String)

/-- The elements of a form after its head: the fields, one a position, and the
kind of each element of an open tail. Where a form has no tail, elements past
its fields are not looked at. -/
structure Form where
  variant : Variant
  checks : List (ℕ × Shape) := []
  fields : List Kind
  rest : Option Kind := none

namespace Kind

def argument : Kind :=
  .fixed "argument" .argument [.sym "argument name", .type]

def arguments : Kind := .listOf "arguments" argument

def contractCircuit : Kind :=
  .fixed "contract circuit" .contractCircuit [.sym "contract circuit name",
    .boolean "contract circuit pure", .listOf "contract circuit args" .type, .type]

def operandPair (context : String) : Kind :=
  .fixed context .operandPair [.operand, .operand]

def instructions : Kind := .tagged .instructions "instructions" .instruction

def mapArg : Kind := .fixed "map-arg" .mapArg [.expr, .type, .type]

def bindingFields : List Kind :=
  [.sym "ledger binding name", .listOf "ledger binding path" (.nat "ledger binding index"),
    .keyed .exported "ledger binding" "ledger binding exported", .type]

def ledgerBinding : Kind := .fixed "ledger binding" .ledgerBinding bindingFields

end Kind

def curveForms : List Form := [
  { variant := .curveJubjub, fields := [] },
  { variant := .curveSecp256k1, fields := [] },
  { variant := .curveSecp256r1, fields := [] },
  { variant := .curveCurve25519, fields := [] }]

def fieldForms : List Form := [
  { variant := .fieldNative, fields := [] },
  { variant := .fieldBase, fields := [.curve] },
  { variant := .fieldScalar, fields := [.curve] }]

def typeForms : List Form := [
  { variant := .typeBoolean, fields := [] },
  { variant := .typeField, fields := [.fieldType] },
  { variant := .typeUnsigned, fields := [.bigNat "tunsigned"] },
  { variant := .typePoint, fields := [.curve] },
  { variant := .typeBytes, fields := [.nat "tbytes"] },
  { variant := .typeOpaque, fields := [.string "topaque"] },
  { variant := .typeVector, fields := [.nat "tvector", .type] },
  { variant := .typeTuple, fields := [], rest := some .type },
  { variant := .typeStruct, fields := [.sym "tstruct name"],
    rest := some (.fixed "tstruct field" .structField [.sym "tstruct field name", .type]) },
  { variant := .typeEnum, fields := [.sym "tenum name"], rest := some (.sym "tenum variant") },
  { variant := .typeAlias, fields := [.boolean "talias", .sym "talias name", .type] },
  { variant := .typeContract, fields := [.sym "tcontract name"], rest := some .contractCircuit },
  { variant := .typeUnknown, fields := [] }]

def operandForms : List Form := [
  { variant := .operandAlign, fields := [.bigNat "align value", .nat "align bytes"] },
  { variant := .operandStack, fields := [] },
  { variant := .operandVoid, fields := [] },
  { variant := .operandValueToInt, fields := [.operand] },
  { variant := .operandNull, fields := [.type] },
  { variant := .operandMaxSizeof, fields := [.type] },
  { variant := .operandLeafHash, fields := [.operand] },
  { variant := .operandCoinCommit, fields := [.operand, .operand] },
  { variant := .operandAlignedConcat, fields := [], rest := some .operand }]

/-- The deferred addition, which a source-level one shares its head with. -/
def addForm : Form := { variant := .operandAdd, fields := [.operand, .operand] }

def stateForms : List Form := [
  { variant := .stateNull, fields := [] },
  { variant := .stateCell, fields := [.operand] },
  { variant := .stateAdt, fields := [.operand, .type] },
  { variant := .stateArray, fields := [], rest := some .operand },
  { variant := .stateMap, fields := [], rest := some (.operandPair "state-value map entry") },
  { variant := .stateMerkleTree, fields := [.nat "merkle depth"],
    rest := some (.operandPair "state-value tree entry") }]

def tupleArgForms : List Form := [
  { variant := .tupleSingle, fields := [.expr] },
  { variant := .tupleSpread, fields := [.nat "spread", .expr] }]

def funcForms : List Form := [
  { variant := .funRef, fields := [.sym "fref"] },
  { variant := .funCircuit, fields := [.arguments, .type, .expr] }]

def tyExprExpr (variant : Variant) : Form := { variant, fields := [.type, .expr, .expr] }

def natExprExpr (variant : Variant) (head : String) : Form :=
  { variant, fields := [.nat head, .expr, .expr] }

def tyTyExpr (variant : Variant) : Form := { variant, fields := [.type, .type, .expr] }

def exprForms : List Form := [
  { variant := .exprQuote, fields := [.literal] },
  { variant := .exprVarRef, fields := [.sym "var-ref"] },
  { variant := .exprDefault, fields := [.type] },
  { variant := .exprIf, fields := [.expr, .expr, .expr] },
  { variant := .exprEltRef, fields := [.expr, .sym "elt-ref", .nat "elt-ref index"] },
  { variant := .exprEnumRef, fields := [.type, .sym "enum-ref"] },
  { variant := .exprTuple, fields := [], rest := some .tupleArg },
  { variant := .exprVectorLit, fields := [], rest := some .tupleArg },
  { variant := .exprTupleRef, fields := [.expr, .nat "tuple-ref"] },
  { variant := .exprTupleSlice,
    fields := [.type, .expr, .nat "tuple-slice index", .nat "tuple-slice len"] },
  tyExprExpr .exprVectorRef,
  { variant := .exprVectorSlice, fields := [.type, .expr, .expr, .nat "vector-slice len"] },
  tyExprExpr .exprBytesRef,
  { variant := .exprBytesSlice, fields := [.type, .expr, .expr, .nat "bytes-slice len"] },
  tyExprExpr .exprAdd,
  tyExprExpr .exprSub,
  tyExprExpr .exprMul,
  natExprExpr .exprLt "<",
  natExprExpr .exprLe "<=",
  natExprExpr .exprGt ">",
  natExprExpr .exprGe ">=",
  tyExprExpr .exprEq,
  tyExprExpr .exprNeq,
  { variant := .exprMap, fields := [.nat "map len", .func], rest := some .mapArg },
  { variant := .exprFold, checks := [(3, .fixed "fold init" 2 [])],
    fields := [.nat "fold len", .func, .fixed "fold init" .foldInit [.expr, .type]],
    rest := some .mapArg },
  { variant := .exprCall, fields := [.sym "call"], rest := some .expr },
  { variant := .exprNew, fields := [.type], rest := some .expr },
  { variant := .exprSeq, fields := [], rest := some .expr },
  { variant := .exprLetStar,
    fields := [.listOf "let* bindings" (.fixed "let* binding" .letBinding
      [.argument, .expr]), .expr] },
  { variant := .exprAssert, fields := [.expr, .string "assert"] },
  { variant := .exprFieldToBytes, fields := [.nat "field->bytes", .fieldType, .expr] },
  { variant := .exprCastFromBytes, fields := [.type, .nat "cast-from-bytes", .expr] },
  { variant := .exprVectorToBytes, fields := [.nat "vector->bytes", .expr] },
  { variant := .exprBytesToVector, fields := [.nat "bytes->vector", .expr] },
  tyTyExpr .exprCastFromEnum,
  tyTyExpr .exprCastToEnum,
  { variant := .exprCastToField, fields := [.fieldType, .type, .expr] },
  { variant := .exprCastFromField, fields := [.bigNat "cast-from-field", .fieldType, .expr] },
  tyTyExpr .exprSafeCast,
  { variant := .exprDowncastUnsigned,
    fields := [.bigNat "downcast-unsigned", .bigNat "downcast-unsigned", .expr] },
  { variant := .exprContractCall, checks := [(2, .fixed "contract-call receiver" 2 [])],
    fields := [.sym "contract-call circuit",
      .fixed "contract-call receiver" .callReceiver [.expr, .type]],
    rest := some .expr },
  { variant := .exprEmit,
    fields := [.nat "emit version", .nat "emit tag", .nat "emit len", .expr, .instructions] },
  { variant := .exprPublicLedger,
    fields := [.sym "public-ledger field", .opClass, .listOf "public-ledger path" .pathElement,
      .sym "public-ledger op", .type, .instructions],
    rest := some .expr },
  { variant := .exprReturn, fields := [.expr] }]

def programForms : List Form := [
  { variant := .programCircuit,
    fields := [.sym "circuit name", .keyed .exported "circuit" "circuit exported",
      .keyed .pure "circuit" "circuit pure", .keyed .proof "circuit" "circuit proof", .arguments,
      .type, .expr] },
  { variant := .programNative,
    checks := [(2, .fixed "native entry" 3 ["entry"]),
      (3, .tagged "native type arguments" "type-arguments")],
    fields := [.sym "native name", .fixed "native entry" .nativeEntry
      [.string "native entry fn", .sym "native entry class"],
      .tagged .typeArguments "native type arguments" .type, .arguments, .type] },
  { variant := .programWitness, fields := [.sym "witness name", .arguments, .type] },
  { variant := .programKernelDeclaration, fields := [.ledgerBinding] },
  { variant := .programLedgerDeclaration,
    fields := [.ledgerArray, .fixed "constructor" .constructor
      [.arguments, .expr]] },
  { variant := .programExportTypedef,
    fields := [.sym "export-typedef", .listOf "export-typedef vars" (.sym "export-typedef var"),
      .type] }]

end Forms

section Plans

/-- What the parser does with an element: it takes a leaf, refuses, or reads the
elements of a list after the heads of a variant and the fields that stand among
them. -/
inductive Plan where
  | leaf (n : Node)
  | refuse (e : Error)
  | crash
  | parts (variant : Variant) (checked : Outcome Unit) (lead : List Node) (fields : List Kind)
      (rest : Option Kind)

def Shape.check (s : Sexp) : Shape → Outcome Unit
  | .fixed context length heads =>
    match s.asList with
    | none => .error (.expected "a list" context s)
    | some items =>
      if items.length = length ∧ (items.take heads.length).map Sexp.asSym = heads.map some then
        .ok ()
      else .error (.unrecognized context s)
  | .tagged context head =>
    match s.asList with
    | none => .error (.expected "a list" context s)
    | some _ => if s.head = some head then .ok () else .error (.unrecognized context s)

/-- The checks of a form, in order. An index past the list panics. -/
def runChecks (items : List Sexp) : List (ℕ × Shape) → Outcome Unit
  | [] => .ok ()
  | (i, shape) :: checks =>
    match items[i]? with
    | none => .panic
    | some s => (shape.check s).bind (fun _ => runChecks items checks)

def Form.plan (form : Form) (items : List Sexp) : Plan :=
  .parts form.variant (runChecks items form.checks) [] form.fields form.rest

/-- The form that the heads select. -/
def formOf (forms : List Form) (heads : List String) : Option Form :=
  forms.find? (fun form => form.variant.heads = heads)

def planBigNat (context : String) (s : Sexp) : Plan :=
  match s with
  | .int i =>
    if 0 ≤ i then .leaf (.nat i.toNat) else .refuse (.expected "a natural" context s)
  | _ => .refuse (.expected "an integer" context s)

def planNat (context : String) (s : Sexp) : Plan :=
  match planBigNat context s with
  | .leaf (.nat n) => if n < 2 ^ 64 then .leaf (.nat n) else .refuse (.outOfRange context)
  | plan => plan

def planFixed (context : String) (variant : Variant) (kinds : List Kind) (s : Sexp) : Plan :=
  match s.asList with
  | none => .refuse (.expected "a list" context s)
  | some items =>
    if items.length = variant.heads.length + kinds.length ∧
        (items.take variant.heads.length).map Sexp.asSym = variant.heads.map some then
      .parts variant (.ok ()) [] kinds none
    else .refuse (.unrecognized context s)

def planListOf (context : String) (kind : Kind) (s : Sexp) : Plan :=
  match s.asList with
  | none => .refuse (.expected "a list" context s)
  | some _ => .parts .items (.ok ()) [] [] (some kind)

def planTagged (variant : Variant) (context : String) (kind : Kind) (s : Sexp) : Plan :=
  match s.asList with
  | none => .refuse (.expected "a list" context s)
  | some _ =>
    if s.head.toList = variant.heads then .parts variant (.ok ()) [] [] (some kind)
    else .refuse (.unrecognized context s)

def planKeyed (variant : Variant) (context boolContext : String) (s : Sexp) : Plan :=
  match s.asList with
  | none => .refuse (.expected "a list" context s)
  | some items =>
    if items.length = 2 ∧ s.head.toList = variant.heads then
      .parts variant (.ok ()) [] [.boolean boolContext] none
    else .refuse (.expected "a keyed value" context s)

/-- A form by its head, from a table. -/
def planForms (context : String) (forms : List Form) (s : Sexp) (other : Plan) : Plan :=
  match s.asList with
  | none => .refuse (.expected "a list" context s)
  | some items =>
    match formOf forms s.head.toList with
    | some form => form.plan items
    | none => other

def planCurve (s : Sexp) : Plan :=
  match s.asList, formOf curveForms s.head.toList with
  | some items, some form => form.plan items
  | _, _ => .refuse (.unrecognized "curve" s)

def planFieldType (s : Sexp) : Plan :=
  planForms "field-type" fieldForms s (.refuse (.unrecognized "field-type" s))

/-- A head that no type form has names a ledger type. -/
def planType (s : Sexp) : Plan :=
  match s with
  | .sym v => .leaf (.sym v)
  | _ =>
    planForms "type" typeForms s
      (match s.head with
      | some head => .parts .typeAdt (.ok ()) [.sym head] [] (some .adtArg)
      | none => .refuse (.headless "type" s))

def planExpr (s : Sexp) : Plan :=
  planForms "expression" exprForms s
    (match s.head with
    | some _ => .refuse (.unrecognized "expression" s)
    | none => .refuse (.headless "expression" s))

def planStateValue (items : List Sexp) (s : Sexp) : Plan :=
  match formOf stateForms ("state-value" :: ((items.tail.head?).bind Sexp.asSym).toList) with
  | some form => form.plan items
  | none => .refuse (.unrecognized "state-value" s)

/-- The deferred addition is told from the source-level one by its length. Any
other head that no operand form has is an expression. -/
def planOperand (s : Sexp) : Plan :=
  match s with
  | .int i => .leaf (.int i)
  | .bool b => .leaf (.bool b)
  | .str v => .leaf (.str v)
  | .list items =>
    match s.head with
    | some head =>
      if head = "state-value" then planStateValue items s
      else if head = "+" ∧ items.length = 3 then addForm.plan items
      else match formOf operandForms [head] with
        | some form => form.plan items
        | none => planExpr s
    | none => .parts .operandList (.ok ()) [] [] (some .operand)
  | _ => .refuse (.expected "a list" "operand" s)

def planInstruction (s : Sexp) : Plan :=
  match s.asList with
  | none => .refuse (.expected "a list" "instruction" s)
  | some [] => .crash
  | some (op :: _) =>
    match op with
    | .sym name =>
      .parts .instruction (.ok ()) [.sym name] []
        (some (.fixed "instruction arg" .instructionArg [.sym "instruction arg name", .operand]))
    | op => .refuse (.expected "a symbol" "instruction op" op)

def plan (s : Sexp) : Kind → Plan
  | .sym context =>
    match s with
    | .sym v => .leaf (.sym v)
    | _ => .refuse (.expected "a symbol" context s)
  | .string context =>
    match s with
    | .str v => .leaf (.str v)
    | _ => .refuse (.expected "a string" context s)
  | .boolean context =>
    match s with
    | .bool b => .leaf (.bool b)
    | _ => .refuse (.expected "a boolean" context s)
  | .bigNat context => planBigNat context s
  | .nat context => planNat context s
  | .literal =>
    match s with
    | .int i => .leaf (.int i)
    | .bool b => .leaf (.bool b)
    | .bytes b => .leaf (.bytes b)
    | _ => .refuse (.unrecognized "literal" s)
  | .curve => planCurve s
  | .fieldType => planFieldType s
  | .adtArg =>
    match s with
    | .int _ => planNat "adt-arg" s
    | _ => planType s
  | .type => planType s
  | .operand => planOperand s
  | .instruction => planInstruction s
  | .tupleArg => planForms "tuple-arg" tupleArgForms s (.refuse (.unrecognized "tuple-arg" s))
  | .func => planForms "fun" funcForms s (.refuse (.unrecognized "fun" s))
  | .pathElement =>
    match s with
    | .int _ => planNat "path index" s
    | _ => planFixed "path element" .pathComputed [.type, .expr] s
  | .expr => planExpr s
  | .opClass =>
    match s with
    | .sym v => .leaf (.sym v)
    | _ => planFixed "operation class" .opClassCoinCheck [.sym "operation class",
        .nat "coin argument index", .nat "recipient argument index"] s
  | .ledgerArray => planTagged .ledgerArray "public-ledger-array" .ledgerItem s
  | .ledgerItem =>
    if s.head = some "public-ledger-array" then
      planTagged .ledgerArray "public-ledger-array" .ledgerItem s
    else planFixed "ledger binding" .ledgerBinding Kind.bindingFields s
  | .programElement =>
    planForms "program element" programForms s (.refuse (.unrecognized "program element" s))
  | .fixed context variant kinds => planFixed context variant kinds s
  | .listOf context kind => planListOf context kind s
  | .tagged variant context kind => planTagged variant context kind s
  | .keyed variant context boolContext => planKeyed variant context boolContext s

end Plans

section Reading

mutual

/-- Reading an element as a kind. -/
def read (s : Sexp) (kind : Kind) : Outcome Node :=
  match plan s kind with
  | .leaf n => .ok n
  | .refuse e => .error e
  | .crash => .panic
  | .parts variant checked lead fields rest =>
    checked.bind (fun _ =>
      match s with
      | .list items =>
        (readFields items (variant.heads.length + lead.length) fields rest).map (fun nodes =>
          .make variant (lead ++ nodes))
      | _ => .panic)

/-- Reading the elements after the heads by position, up to the first error. A
field with no element panics. -/
def readFields : List Sexp → ℕ → List Kind → Option Kind → Outcome (List Node)
  | [], _, [], _ => .ok []
  | [], _, _ :: _, _ => .panic
  | _ :: items, skip + 1, fields, rest => readFields items skip fields rest
  | s :: items, 0, kind :: fields, rest =>
    (read s kind).bind (fun n => (readFields items 0 fields rest).map (n :: ·))
  | s :: items, 0, [], some kind =>
    (read s kind).bind (fun n => (readFields items 0 [] (some kind)).map (n :: ·))
  | _ :: _, 0, [], none => .ok []

end

mutual

/-- Whether each list in an element has exactly the elements of the form that it
stands for. -/
def Exact (s : Sexp) (kind : Kind) : Prop :=
  match plan s kind with
  | .leaf _ => True
  | .refuse _ => True
  | .crash => False
  | .parts variant _ lead fields rest =>
    match s with
    | .list items => ExactFields items (variant.heads.length + lead.length) fields rest
    | _ => True

def ExactFields : List Sexp → ℕ → List Kind → Option Kind → Prop
  | [], _, fields, _ => fields = []
  | _ :: items, skip + 1, fields, rest => ExactFields items skip fields rest
  | s :: items, 0, kind :: fields, rest => Exact s kind ∧ ExactFields items 0 fields rest
  | s :: items, 0, [], some kind => Exact s kind ∧ ExactFields items 0 [] (some kind)
  | _ :: _, 0, [], none => False

end

end Reading

section Program

structure AnalyzedIr where
  compilerVersion : String
  languageVersion : String
  runtimeVersion : String
  exports : List (String × String)
  contractTypes : List Node
  elements : List Node

/-- What the sections read so far hold. -/
structure Sections where
  languageVersion : Option String := none
  runtimeVersion : Option String := none
  exports : List (String × String) := []
  contractTypes : List Node := []
  elements : List Node := []

/-- The elements of a list with a head. -/
def tagged (s : Sexp) (head context : String) : Outcome (List Sexp) :=
  match s with
  | .list (h :: rest) =>
    if h.asSym = some head then .ok rest else .error (.unrecognized context s)
  | .list [] => .error (.unrecognized context s)
  | _ => .error (.expected "a list" context s)

def version (s : Sexp) (key : String) : Outcome String :=
  match s with
  | .list [h, value] =>
    if h.asSym = some key then
      match value with
      | .str v => .ok v
      | _ => .error (.expected "a string" key value)
    else .error (.expected "a keyed value" key s)
  | .list _ => .error (.expected "a keyed value" key s)
  | _ => .error (.expected "a list" key s)

/-- The version in the header, which is read before any other element. -/
def compilerVersion (s : Sexp) : Outcome String :=
  (tagged s "analyzed-ir" "analyzed-ir").bind (fun rest =>
    match rest.find? (fun e => e.head = some "compiler-version") with
    | none => .error (.missing "compiler-version")
    | some e => version e "compiler-version")

def readSym (s : Sexp) (context : String) : Outcome String :=
  match s with
  | .sym v => .ok v
  | _ => .error (.expected "a symbol" context s)

def readExports : List Sexp → Outcome (List (String × String))
  | [] => .ok []
  | .pair a b :: entries =>
    (readSym a "export name").bind (fun name => (readSym b "export target").bind (fun target =>
      (readExports entries).map ((name, target) :: ·)))
  | entry :: _ => .error (.unrecognized "export entry" entry)

def readAll (kind : Kind) : List Sexp → Outcome (List Node)
  | [] => .ok []
  | s :: items => (read s kind).bind (fun n => (readAll kind items).map (n :: ·))

/-- The elements of a section after its head. -/
def sectionTail (s : Sexp) : List Sexp := (s.asList.getD []).tail

/-- One element of the artifact: a section by its head, or a program element. -/
def readSection (acc : Sections) (e : Sexp) : Outcome Sections :=
  if e.head = some "compiler-version" then .ok acc
  else if e.head = some "language-version" then
    (version e "language-version").map (fun v => { acc with languageVersion := some v })
  else if e.head = some "runtime-version" then
    (version e "runtime-version").map (fun v => { acc with runtimeVersion := some v })
  else if e.head = some "exports" then
    (readExports (sectionTail e)).map (fun exports => { acc with exports := acc.exports ++ exports })
  else if e.head = some "contract-types" then
    (readAll .type (sectionTail e)).map (fun types =>
      { acc with contractTypes := acc.contractTypes ++ types })
  else
    (read e .programElement).map (fun element =>
      { acc with elements := acc.elements ++ [element] })

def readSections (acc : Sections) : List Sexp → Outcome Sections
  | [] => .ok acc
  | e :: rest => (readSection acc e).bind (fun acc => readSections acc rest)

def required (header : String) : Option String → Outcome String
  | some v => .ok v
  | none => .error (.missing header)

def parse (s : Sexp) : Outcome AnalyzedIr :=
  (compilerVersion s).bind (fun compilerVersion =>
    (tagged s "analyzed-ir" "analyzed-ir").bind (fun rest =>
      (readSections {} rest).bind (fun acc =>
        (required "language-version" acc.languageVersion).bind (fun languageVersion =>
          (required "runtime-version" acc.runtimeVersion).map (fun runtimeVersion =>
            { compilerVersion, languageVersion, runtimeVersion, exports := acc.exports,
              contractTypes := acc.contractTypes, elements := acc.elements })))))

end Program

end MidnightRs.AnalyzedIr
