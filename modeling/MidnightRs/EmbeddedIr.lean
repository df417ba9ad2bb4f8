import MidnightRs.CircuitIr

/-!
The analyzed IR in full: the arguments of a ledger type, the circuits of a contract
type, the type arguments of a native. A binding carries a program whole, so no part
that a run does without is left out here.
-/
namespace MidnightRs.Embedded

open MidnightRs.Compact (Curve FieldType)
open Circuits (Ident Literal ArithOp CompareOp CastKind OpClass OpName)

section Types

mutual

inductive IrType where
  | boolean
  | field (ft : FieldType)
  | unsigned (maxval : ℕ)
  | point (c : Curve)
  | bytes (length : ℕ)
  | opaqueData (name : String)
  | vector (len : ℕ) (ty : IrType)
  | tuple (types : List IrType)
  | struct (name : String) (fields : List (String × IrType))
  | enum (name : String) (variants : List String)
  | aliasOf (nominal : Bool) (name : String) (ty : IrType)
  | contract (name : String) (circuits : List ContractCircuit)
  | adt (name : String) (args : List AdtArg)
  | typeVar (name : String)
  | unknown

inductive AdtArg where
  | nat (n : ℕ)
  | type (ty : IrType)

inductive ContractCircuit where
  | mk (name : String) (pure : Bool) (argumentTypes : List IrType) (resultType : IrType)

end

mutual

/-- Whether no part of the type, the circuits of a contract included, is a ledger
type or a type variable. -/
def IrType.plain : IrType → Bool
  | .adt _ _ => false
  | .typeVar _ => false
  | .vector _ ty => ty.plain
  | .aliasOf _ _ ty => ty.plain
  | .tuple types => plainEach types
  | .struct _ fields => plainFields fields
  | .contract _ circuits => plainCircuits circuits
  | _ => true

def plainEach : List IrType → Bool
  | [] => true
  | ty :: types => ty.plain && plainEach types

def plainFields : List (String × IrType) → Bool
  | [] => true
  | (_, ty) :: fields => ty.plain && plainFields fields

def plainCircuit : ContractCircuit → Bool
  | .mk _ _ argumentTypes resultType => plainEach argumentTypes && resultType.plain

def plainCircuits : List ContractCircuit → Bool
  | [] => true
  | c :: circuits => plainCircuit c && plainCircuits circuits

end

structure Argument where
  name : Ident
  ty : IrType

end Types

section Names

def OpName.all : List OpName :=
  [.add, .addi, .and, .branch, .ckpt, .concat, .dup, .eq, .idx, .ins, .jmp, .log, .lt, .member,
    .neg, .new, .noop, .or, .pop, .popeq, .push, .rem, .root, .size, .sub, .subi, .swap, .type]

/-- The instruction that a name stands for. A name that no instruction has is kept. -/
def OpName.ofStr (name : String) : OpName :=
  (OpName.all.find? fun op => op.asStr = name).getD (.unknown name)

theorem asStr_ofStr (name : String) : (OpName.ofStr name).asStr = name := by
  unfold OpName.ofStr
  cases h : OpName.all.find? fun op => op.asStr = name with
  | none => rfl
  | some op =>
    have hname := List.find?_some h
    exact of_decide_eq_true hname

/-- An instruction name as the reader makes it from its text. -/
def ReadOp := {op : OpName // OpName.ofStr op.asStr = op}

def ReadOp.ofStr (name : String) : ReadOp :=
  ⟨OpName.ofStr name, congrArg OpName.ofStr (asStr_ofStr name)⟩

theorem ReadOp.ofStr_asStr (op : ReadOp) : ReadOp.ofStr op.val.asStr = op :=
  Subtype.ext op.property

end Names

section Expressions

mutual

/-- The forms that differ in an operator alone are one form with that operator. -/
inductive Expr where
  | quote (literal : Literal)
  | varRef (id : Ident)
  | default (ty : IrType)
  | ite (cond thn els : Expr)
  | eltRef (expr : Expr) (elt : String) (index : ℕ)
  | enumRef (ty : IrType) (elt : String)
  | tuple (vector : Bool) (args : List TupleArg)
  | tupleRef (expr : Expr) (index : ℕ)
  | tupleSlice (ty : IrType) (expr : Expr) (index len : ℕ)
  | vectorRef (ty : IrType) (expr index : Expr)
  | vectorSlice (ty : IrType) (expr index : Expr) (len : ℕ)
  | bytesRef (ty : IrType) (expr index : Expr)
  | bytesSlice (ty : IrType) (expr index : Expr) (len : ℕ)
  | arith (op : ArithOp) (ty : IrType) (left right : Expr)
  | compare (op : CompareOp) (bits : ℕ) (left right : Expr)
  | equal (negated : Bool) (ty : IrType) (left right : Expr)
  | map (len : ℕ) (fn : Fun) (args : List MapArg)
  | fold (len : ℕ) (fn : Fun) (init : Expr) (initTy : IrType) (args : List MapArg)
  | call (name : Ident) (args : List Expr)
  | new (ty : IrType) (elements : List Expr)
  | seq (items : List Expr)
  | letStar (bindings : List (Argument × Expr)) (body : Expr)
  | assert (expr : Expr) (message : String)
  | fieldToBytes (len : ℕ) (fieldType : FieldType) (expr : Expr)
  | castFromBytes (ty : IrType) (len : ℕ) (expr : Expr)
  | vectorToBytes (len : ℕ) (expr : Expr)
  | bytesToVector (len : ℕ) (expr : Expr)
  | castBetween (kind : CastKind) (ty source : IrType) (expr : Expr)
  | castToField (fieldType : FieldType) (source : IrType) (expr : Expr)
  | castFromField (maxval : ℕ) (fieldType : FieldType) (expr : Expr)
  | downcastUnsigned (fromMaxval toMaxval : ℕ) (expr : Expr)
  | contractCall (circuit : String) (receiver : Expr) (contractType : IrType) (args : List Expr)
  | emit (eventVersion eventTag len : ℕ) (payload : Expr) (instructions : List Instruction)
  | publicLedger (field : Ident) (opClass : OpClass) (path : List PathElement) (op : String)
      (resultType : IrType) (instructions : List Instruction) (args : List Expr)
  | ret (expr : Expr)

inductive TupleArg where
  | single (expr : Expr)
  | spread (len : ℕ) (expr : Expr)

inductive MapArg where
  | mk (expr : Expr) (ty elementTy : IrType)

inductive Fun where
  | ref (id : Ident)
  | circuit (arguments : List Argument) (resultType : IrType) (body : Expr)

inductive PathElement where
  | index (n : ℕ)
  | computed (ty : IrType) (expr : Expr)

inductive Instruction where
  | mk (op : ReadOp) (args : List (String × Operand))

inductive Operand where
  | int (n : ℤ)
  | bool (b : Bool)
  | str (s : String)
  | align (value bytes : ℕ)
  | stack
  | void
  | valueToInt (x : Operand)
  | null (ty : IrType)
  | maxSizeof (ty : IrType)
  | add (x y : Operand)
  | leafHash (x : Operand)
  | coinCommit (coin recipient : Operand)
  | alignedConcat (parts : List Operand)
  | stateValue (value : StateValue)
  | expr (e : Expr)
  | list (items : List Operand)

inductive StateValue where
  | null
  | cell (x : Operand)
  | adt (x : Operand) (ty : IrType)
  | array (elements : List Operand)
  | map (entries : List (Operand × Operand))
  | merkleTree (depth : ℕ) (entries : List (Operand × Operand))

end

def argumentTypes (arguments : List Argument) : List IrType := arguments.map Argument.ty

mutual

/-- Every type that an expression names, the types of its parts included. -/
def Expr.types : Expr → List IrType
  | .quote _ => []
  | .varRef _ => []
  | .default ty => [ty]
  | .ite cond thn els => cond.types ++ thn.types ++ els.types
  | .eltRef expr _ _ => expr.types
  | .enumRef ty _ => [ty]
  | .tuple _ args => tupleArgsTypes args
  | .tupleRef expr _ => expr.types
  | .tupleSlice ty expr _ _ => ty :: expr.types
  | .vectorRef ty expr index => ty :: (expr.types ++ index.types)
  | .vectorSlice ty expr index _ => ty :: (expr.types ++ index.types)
  | .bytesRef ty expr index => ty :: (expr.types ++ index.types)
  | .bytesSlice ty expr index _ => ty :: (expr.types ++ index.types)
  | .arith _ ty left right => ty :: (left.types ++ right.types)
  | .compare _ _ left right => left.types ++ right.types
  | .equal _ ty left right => ty :: (left.types ++ right.types)
  | .map _ fn args => fn.types ++ mapArgsTypes args
  | .fold _ fn init initTy args => fn.types ++ (init.types ++ initTy :: mapArgsTypes args)
  | .call _ args => eachTypes args
  | .new ty elements => ty :: eachTypes elements
  | .seq items => eachTypes items
  | .letStar bindings body => bindingsTypes bindings ++ body.types
  | .assert expr _ => expr.types
  | .fieldToBytes _ _ expr => expr.types
  | .castFromBytes ty _ expr => ty :: expr.types
  | .vectorToBytes _ expr => expr.types
  | .bytesToVector _ expr => expr.types
  | .castBetween _ ty source expr => ty :: source :: expr.types
  | .castToField _ source expr => source :: expr.types
  | .castFromField _ _ expr => expr.types
  | .downcastUnsigned _ _ expr => expr.types
  | .contractCall _ receiver contractType args => receiver.types ++ contractType :: eachTypes args
  | .emit _ _ _ payload instructions => payload.types ++ instructionsTypes instructions
  | .publicLedger _ _ path _ resultType instructions args =>
    pathTypes path ++ resultType :: (instructionsTypes instructions ++ eachTypes args)
  | .ret expr => expr.types

def eachTypes : List Expr → List IrType
  | [] => []
  | e :: es => e.types ++ eachTypes es

def TupleArg.types : TupleArg → List IrType
  | .single e => e.types
  | .spread _ e => e.types

def tupleArgsTypes : List TupleArg → List IrType
  | [] => []
  | a :: args => a.types ++ tupleArgsTypes args

def MapArg.types : MapArg → List IrType
  | .mk e ty elementTy => e.types ++ [ty, elementTy]

def mapArgsTypes : List MapArg → List IrType
  | [] => []
  | a :: args => a.types ++ mapArgsTypes args

def Fun.types : Fun → List IrType
  | .ref _ => []
  | .circuit arguments resultType body => argumentTypes arguments ++ resultType :: body.types

def bindingsTypes : List (Argument × Expr) → List IrType
  | [] => []
  | (a, e) :: bindings => a.ty :: (e.types ++ bindingsTypes bindings)

def PathElement.types : PathElement → List IrType
  | .index _ => []
  | .computed ty e => ty :: e.types

def pathTypes : List PathElement → List IrType
  | [] => []
  | p :: path => p.types ++ pathTypes path

def Instruction.types : Instruction → List IrType
  | .mk _ args => instructionArgsTypes args

def instructionsTypes : List Instruction → List IrType
  | [] => []
  | i :: instructions => i.types ++ instructionsTypes instructions

def instructionArgsTypes : List (String × Operand) → List IrType
  | [] => []
  | (_, o) :: args => o.types ++ instructionArgsTypes args

def Operand.types : Operand → List IrType
  | .valueToInt x => x.types
  | .null ty => [ty]
  | .maxSizeof ty => [ty]
  | .add x y => x.types ++ y.types
  | .leafHash x => x.types
  | .coinCommit coin recipient => coin.types ++ recipient.types
  | .alignedConcat parts => operandsTypes parts
  | .stateValue value => value.types
  | .expr e => e.types
  | .list items => operandsTypes items
  | _ => []

def operandsTypes : List Operand → List IrType
  | [] => []
  | o :: os => o.types ++ operandsTypes os

def StateValue.types : StateValue → List IrType
  | .null => []
  | .cell x => x.types
  | .adt x ty => x.types ++ [ty]
  | .array elements => operandsTypes elements
  | .map entries => entriesTypes entries
  | .merkleTree _ entries => entriesTypes entries

def entriesTypes : List (Operand × Operand) → List IrType
  | [] => []
  | (k, v) :: entries => k.types ++ (v.types ++ entriesTypes entries)

end

end Expressions

section Programs

structure Circuit where
  name : Ident
  exported : Bool
  pure : Bool
  proof : Bool
  arguments : List Argument
  resultType : IrType
  body : Expr

structure Native where
  name : Ident
  entry : String
  kind : String
  typeArguments : List IrType
  arguments : List Argument
  resultType : IrType

structure Witness where
  name : Ident
  arguments : List Argument
  resultType : IrType

def Circuit.types (c : Circuit) : List IrType :=
  argumentTypes c.arguments ++ c.resultType :: c.body.types

def Native.types (n : Native) : List IrType :=
  n.typeArguments ++ (argumentTypes n.arguments ++ [n.resultType])

def Witness.types (w : Witness) : List IrType := argumentTypes w.arguments ++ [w.resultType]

end Programs

end MidnightRs.Embedded
