import MidnightRs.CircuitIr

/-!
The checks that the artifact loader makes. It walks every circuit body once, and
refuses an artifact that names a ledger type or a type variable where a value is
meant, or a construct that a run has no rule for.
-/
namespace MidnightRs.Circuits

open MidnightRs.Compact

section Types

mutual

/-- The first part of a type that cannot be executed, in words. -/
def unsupportedType : Ty → Option String
  | .adt name => some s!"ADT type {name} in a value position"
  | .typeVar name => some s!"type variable {name}"
  | .vector _ ty => unsupportedType ty
  | .aliasOf _ _ ty => unsupportedType ty
  | .tuple types => unsupportedEach types
  | .struct _ fields => unsupportedFields fields
  | _ => none

def unsupportedEach : List Ty → Option String
  | [] => none
  | ty :: types => (unsupportedType ty).or (unsupportedEach types)

def unsupportedFields : List (String × Ty) → Option String
  | [] => none
  | (_, ty) :: fields => (unsupportedType ty).or (unsupportedFields fields)

end

mutual

def holdsUnknown : Ty → Bool
  | .unknown => true
  | .vector _ ty => holdsUnknown ty
  | .aliasOf _ _ ty => holdsUnknown ty
  | .tuple types => anyUnknown types
  | .struct _ fields => fieldsUnknown fields
  | _ => false

def anyUnknown : List Ty → Bool
  | [] => false
  | ty :: types => holdsUnknown ty || anyUnknown types

def fieldsUnknown : List (String × Ty) → Bool
  | [] => false
  | (_, ty) :: fields => holdsUnknown ty || fieldsUnknown fields

end

mutual

/-- Equality of types, part by part. -/
def sameType : Ty → Ty → Bool
  | .boolean, .boolean => true
  | .field f, .field g => decide (f = g)
  | .unsigned m, .unsigned n => decide (m = n)
  | .point c, .point d => decide (c = d)
  | .bytes m, .bytes n => decide (m = n)
  | .opaqueData a, .opaqueData b => decide (a = b)
  | .vector m s, .vector n t => decide (m = n) && sameType s t
  | .tuple ss, .tuple ts => sameTypes ss ts
  | .struct a fs, .struct b gs => decide (a = b) && sameFields fs gs
  | .enum a vs, .enum b ws => decide (a = b) && decide (vs = ws)
  | .aliasOf m a s, .aliasOf n b t => decide (m = n) && decide (a = b) && sameType s t
  | .contract a, .contract b => decide (a = b)
  | .adt a, .adt b => decide (a = b)
  | .typeVar a, .typeVar b => decide (a = b)
  | .unknown, .unknown => true
  | _, _ => false

def sameTypes : List Ty → List Ty → Bool
  | [], [] => true
  | s :: ss, t :: ts => sameType s t && sameTypes ss ts
  | _, _ => false

def sameFields : List (String × Ty) → List (String × Ty) → Bool
  | [], [] => true
  | (a, s) :: fs, (b, t) :: gs => decide (a = b) && sameType s t && sameFields fs gs
  | _, _ => false

end

mutual

def sameNamed : NamedTy → NamedTy → Bool
  | .value s, .value t => sameType s t
  | .adt a xs, .adt b ys => decide (a = b) && sameArgs xs ys
  | .contract a cs, .contract b ds => decide (a = b) && sameFields cs ds
  | .aliasOf m a s, .aliasOf n b t => decide (m = n) && decide (a = b) && sameNamed s t
  | _, _ => false

def sameArg : AdtArg → AdtArg → Bool
  | .nat m, .nat n => decide (m = n)
  | .type s, .type t => sameNamed s t
  | _, _ => false

def sameArgs : List AdtArg → List AdtArg → Bool
  | [], [] => true
  | x :: xs, y :: ys => sameArg x y && sameArgs xs ys
  | _, _ => false

end

end Types

section Checks

abbrev ArtifactError := String

/-- A check that passes or names what it refuses. -/
abbrev Check := Except ArtifactError Unit

def unsupported (what : String) : Check :=
  .error s!"unsupported by the interpreter IR: {what}"

def checkType (ty : Ty) : Check :=
  match unsupportedType ty with
  | some what => unsupported what
  | none => .ok ()

def pushableAdtDefaults : List String := ["Map"]

mutual

/-- The default of a ledger type that can be pushed, or a type of values. -/
def checkAdtDefault : NamedTy → Check
  | .adt name args =>
    if name ∈ pushableAdtDefaults then checkAdtArgs args
    else unsupported s!"the default of ADT {name} as a ledger value"
  | ty => checkType ty.ty

def checkAdtArg : AdtArg → Check
  | .nat _ => .ok ()
  | .type ty => checkAdtDefault ty

def checkAdtArgs : List AdtArg → Check
  | [] => .ok ()
  | arg :: args => do
    checkAdtArg arg
    checkAdtArgs args

end

def checkArguments : List Argument → Check
  | [] => .ok ()
  | a :: arguments => do
    checkType a.ty
    checkArguments arguments

mutual

/-- Walks an expression, and visits every form. -/
def checkExpr : Expr → Check
  | .quote _ => .ok ()
  | .varRef _ => .ok ()
  | .default ty => checkType ty.ty
  | .enumRef ty _ => checkType ty
  | .ite cond thn els => do
    checkExpr cond
    checkExpr thn
    checkExpr els
  | .eltRef expr _ _ => checkExpr expr
  | .tupleRef expr _ => checkExpr expr
  | .ret expr => checkExpr expr
  | .assert expr _ => checkExpr expr
  | .vectorToBytes _ expr => checkExpr expr
  | .bytesToVector _ expr => checkExpr expr
  | .tuple _ args => checkTupleArgs args
  | .tupleSlice ty expr _ _ => do
    checkType ty
    checkExpr expr
  | .vectorRef ty expr index => do
    checkType ty
    checkExpr expr
    checkExpr index
  | .bytesRef ty expr index => do
    checkType ty
    checkExpr expr
    checkExpr index
  | .vectorSlice ty expr index _ => do
    checkType ty
    checkExpr expr
    checkExpr index
  | .bytesSlice ty expr index _ => do
    checkType ty
    checkExpr expr
    checkExpr index
  | .arith _ ty left right => do
    checkType ty
    checkExpr left
    checkExpr right
  | .equal _ ty left right => do
    checkType ty
    checkExpr left
    checkExpr right
  | .compare _ _ left right => do
    checkExpr left
    checkExpr right
  | .map _ fn args => do
    checkFun fn
    checkMapArgs args
  | .fold _ fn init _ args => do
    checkFun fn
    checkExpr init
    checkMapArgs args
  | .call _ args => checkEach args
  | .new ty elements => do
    checkType ty
    checkEach elements
  | .seq items => checkEach items
  | .letStar bindings body => do
    checkBindings bindings
    checkExpr body
  | .castFromBytes ty _ expr => do
    checkType ty
    checkExpr expr
  | .castBetween kind ty source expr => do
    checkType ty
    -- The source of a safe cast is not looked at.
    if kind = .safe then checkExpr expr
    else do
      checkType source
      checkExpr expr
  | .castToField _ source expr => do
    checkType source
    checkExpr expr
  | .castFromField _ _ expr => checkExpr expr
  | .fieldToBytes _ _ expr => checkExpr expr
  | .downcastUnsigned _ _ expr => checkExpr expr
  | .contractCall _ receiver contractType args => do
    checkType contractType.ty
    checkExpr receiver
    checkEach args
  | .emit _ _ _ payload instructions => do
    checkExpr payload
    checkInstructions instructions
  | .publicLedger _ opClass path _ resultType instructions args =>
    match opClass with
    | .coinCheck name _ _ => unsupported s!"ledger operation class {name}"
    | .plain _ => do
      checkType resultType
      checkPath path
      checkLedgerArgs args
      checkInstructions instructions

def checkEach : List Expr → Check
  | [] => .ok ()
  | e :: es => do
    checkExpr e
    checkEach es

def checkTupleArgs : List TupleArg → Check
  | [] => .ok ()
  | .single e :: args => do
    checkExpr e
    checkTupleArgs args
  | .spread _ e :: args => do
    checkExpr e
    checkTupleArgs args

def checkMapArgs : List MapArg → Check
  | [] => .ok ()
  | .mk e _ _ :: args => do
    checkExpr e
    checkMapArgs args

def checkFun : Fun → Check
  | .ref _ => .ok ()
  | .circuit arguments resultType body => do
    checkArguments arguments
    checkType resultType
    checkExpr body

def checkBindings : List (Argument × Expr) → Check
  | [] => .ok ()
  | (binder, value) :: bindings => do
    checkType binder.ty
    checkExpr value
    checkBindings bindings

def checkPath : List PathElement → Check
  | [] => .ok ()
  | .index _ :: path => checkPath path
  | .computed ty e :: path => do
    checkType ty
    checkExpr e
    checkPath path

/-- An argument that is the default of a ledger type only types the operation. -/
def checkLedgerArgs : List Expr → Check
  | [] => .ok ()
  | .default (.adt name xs) :: args => do
    checkAdtDefault (.adt name xs)
    checkLedgerArgs args
  | e :: args => do
    checkExpr e
    checkLedgerArgs args

def checkInstructions : List Instruction → Check
  | [] => .ok ()
  | .mk _ args :: instructions => do
    checkInstructionArgs args
    checkInstructions instructions

def checkInstructionArgs : List (String × Operand) → Check
  | [] => .ok ()
  | (_, o) :: args => do
    checkOperand o
    checkInstructionArgs args

def checkOperand : Operand → Check
  | .expr e => checkExpr e
  | .valueToInt x => checkOperand x
  | .leafHash x => checkOperand x
  | .null ty => checkType ty
  | .maxSizeof ty => checkType ty
  | .coinCommit a b => do
    checkOperand a
    checkOperand b
  | .add a b => do
    checkOperand a
    checkOperand b
  | .alignedConcat xs => checkOperands xs
  | .list xs => checkOperands xs
  | .stateValue value => checkStateValue value
  | .int _ => .ok ()
  | .bool _ => .ok ()
  | .str _ => .ok ()
  | .align _ _ => .ok ()
  | .stack => .ok ()
  | .void => .ok ()

/-- A pushed container is the default of its type. -/
def checkStateValue : StateValue → Check
  | .cell x => checkOperand x
  | .adt x (.adt name args) =>
    match x with
    | .expr (.default d) =>
      if sameNamed d (.adt name args) then checkAdtDefault (.adt name args)
      else unsupported s!"a nested {name} that is not its default"
    | _ => unsupported s!"a nested {name} that is not its default"
  | .adt x ty => do
    checkOperand x
    checkType ty.ty
  | .array xs => checkOperands xs
  | .map entries => checkEntries entries
  | .merkleTree _ entries => checkEntries entries
  | .null => .ok ()

def checkOperands : List Operand → Check
  | [] => .ok ()
  | x :: xs => do
    checkOperand x
    checkOperands xs

def checkEntries : List (Operand × Operand) → Check
  | [] => .ok ()
  | (k, v) :: entries => do
    checkOperand k
    checkOperand v
    checkEntries entries

end

def checkCircuit (c : Circuit) : Check := do
  checkArguments c.arguments
  checkType c.resultType
  checkExpr c.body

end Checks

section Load

/-- What the loader hands over. A constructor that cannot run still loads, with the
reason. -/
structure ContractInfo where
  circuits : List (String × Circuit)
  helpers : List Circuit
  natives : List Native
  witnesses : List Witness
  constructor : Option (Except ArtifactError Circuit)

def isEmptyConstructor (c : Constructor) : Bool :=
  c.arguments.isEmpty && (match c.body with
    | .tuple false [] => true
    | _ => false)

/-- The constructor as a circuit with a unit result. -/
def lowerConstructor (c : Constructor) : Circuit :=
  { name := "constructor"
    exported := false
    pure := false
    proof := false
    arguments := c.arguments
    resultType := .tuple []
    body := c.body }

/-- The entry that a table by name holds: the last of the name. -/
def lookupLast {α : Type} (name : α → String) (xs : List α) (key : String) : Option α :=
  xs.reverse.find? (fun x => decide (name x = key))

/-- The exported circuits; an export of another name is a ledger field. -/
def exportedCircuits (artifact : AnalyzedIr) : List (String × Ident) →
    Except ArtifactError (List (String × Circuit))
  | [] => .ok []
  | (exportName, id) :: exports =>
    match lookupLast Circuit.name artifact.circuits id with
    | none => exportedCircuits artifact exports
    | some c => do
      checkCircuit c
      let rest ← exportedCircuits artifact exports
      pure ((exportName, c) :: rest)

def checkCircuits : List Circuit → Check
  | [] => .ok ()
  | c :: cs => do
    checkCircuit c
    checkCircuits cs

def checkNatives : List Native → Check
  | [] => .ok ()
  | n :: ns => do
    checkType n.resultType
    checkNatives ns

def checkWitnesses : List Witness → Check
  | [] => .ok ()
  | w :: ws => do
    checkArguments w.arguments
    checkType w.resultType
    checkWitnesses ws

/-- The contract of an artifact. The checks on the ledger's fields, which no circuit
reads, can only refuse more. -/
def fromProgram (artifact : AnalyzedIr) : Except ArtifactError ContractInfo := do
  let circuits ← exportedCircuits artifact artifact.exports
  checkCircuits artifact.circuits
  checkNatives artifact.natives
  checkWitnesses artifact.witnesses
  pure
    { circuits := circuits
      helpers := artifact.circuits
      natives := artifact.natives
      witnesses := artifact.witnesses
      constructor := (artifact.constructor.filter (fun c => !isEmptyConstructor c)).map (fun c =>
        (checkCircuit (lowerConstructor c)).map (fun _ => lowerConstructor c)) }

end Load

end MidnightRs.Circuits
