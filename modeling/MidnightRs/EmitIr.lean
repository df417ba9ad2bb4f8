import MidnightRs.EmbeddedIr
import MidnightRs.SexpPrinting

/-!
The generated bindings' copy of a program. The generator writes each value of the
analyzed IR as a Rust expression that constructs it, and the bindings evaluate that
expression when they run.
-/
namespace MidnightRs.EmitIr

open Embedded
open MidnightRs.Compact (Curve FieldType)
open Circuits (Ident Literal ArithOp CompareOp CastKind OpClass)
open SexpReader (writeInt Numeral)

section Rust

/-- What a path of the generated code names: a constructor of the model, or one of
the functions `String::from`, `Box::new` and `OpName::from`. -/
inductive Path where
  | stringFrom | boxNew | opNameFrom | ident
  | circuit | native | witness | argument | contractCircuit | mapArg | instruction
  | curveJubjub | curveSecp256k1 | curveSecp256r1 | curveCurve25519
  | fieldNative | fieldBase | fieldScalar
  | typeBoolean | typeField | typeUnsigned | typePoint | typeBytes | typeOpaque | typeVector
  | typeTuple | typeStruct | typeEnum | typeAlias | typeContract | typeAdt | typeTypeVar
  | typeUnknown | adtArgNat | adtArgType
  | literalInt | literalBool | literalBytes
  | tupleArgSingle | tupleArgSpread | funRef | funCircuit
  | opClassPlain | opClassCoinCheck | pathIndex | pathComputed
  | operandInt | operandBool | operandStr | operandAlign | operandStack | operandVoid
  | operandValueToInt | operandNull | operandMaxSizeof | operandAdd | operandLeafHash
  | operandCoinCommit | operandAlignedConcat | operandStateValue | operandExpr | operandList
  | stateNull | stateCell | stateAdt | stateArray | stateMap | stateMerkleTree
  | exprQuote | exprVarRef | exprDefault | exprIf | exprEltRef | exprEnumRef
  | exprTuple (vector : Bool) | exprTupleRef | exprTupleSlice | exprVectorRef | exprVectorSlice
  | exprBytesRef | exprBytesSlice | exprArith (op : ArithOp) | exprCompare (op : CompareOp)
  | exprEqual (negated : Bool) | exprMap | exprFold | exprCall | exprNew | exprSeq | exprLetStar
  | exprAssert | exprFieldToBytes | exprCastFromBytes | exprVectorToBytes | exprBytesToVector
  | exprCast (kind : CastKind) | exprCastToField | exprCastFromField | exprDowncastUnsigned
  | exprContractCall | exprEmit | exprPublicLedger | exprReturn
deriving DecidableEq, Repr

/-- A constructor expression. A number that may outgrow a literal is its digits with
`parse().unwrap_or_default()`. -/
inductive Rust where
  | path (p : Path)
  | call (p : Path) (args : List Rust)
  | make (p : Path) (fields : List (String × Rust))
  | vec (items : List Rust)
  | pair (first second : Rust)
  | num (n : ℕ)
  | bool (b : Bool)
  | str (s : String)
  | parse (digits : List Char)

abbrev s (v : String) : Rust := .call .stringFrom [.str v]

abbrev bx (inner : Rust) : Rust := .call .boxNew [inner]

end Rust

section Emission

/-- The number in the digits that its `Display` prints, with the sign of a negative
one. -/
def decimal (i : ℤ) : Rust := .parse (writeInt i)

def bytes (b : Bytes) : Rust := .vec (b.map fun byte => .num byte.toNat)

abbrev ident (id : Ident) : Rust := .call .ident [s id]

def curve : Curve → Rust
  | .jubjub => .path .curveJubjub
  | .secp256k1 => .path .curveSecp256k1
  | .secp256r1 => .path .curveSecp256r1
  | .curve25519 => .path .curveCurve25519

def fieldType : FieldType → Rust
  | .native => .path .fieldNative
  | .base c => .call .fieldBase [curve c]
  | .scalar c => .call .fieldScalar [curve c]

mutual

/-- A ledger type and a type variable become the unknown type. -/
def typeRef : IrType → Rust
  | .boolean => .path .typeBoolean
  | .field ft => .call .typeField [fieldType ft]
  | .unsigned maxval => .call .typeUnsigned [decimal maxval]
  | .point c => .call .typePoint [curve c]
  | .bytes length => .call .typeBytes [.num length]
  | .opaqueData name => .call .typeOpaque [s name]
  | .struct name fields =>
    .make .typeStruct [("name", s name), ("fields", .vec (structFields fields))]
  | .enum name variants => .make .typeEnum [("name", s name), ("variants", .vec (variants.map s))]
  | .tuple types => .call .typeTuple [.vec (typeRefs types)]
  | .vector len ty => .make .typeVector [("len", .num len), ("ty", bx (typeRef ty))]
  | .aliasOf nominal name ty =>
    .make .typeAlias [("nominal", .bool nominal), ("name", s name), ("ty", bx (typeRef ty))]
  | .contract name circuits =>
    .make .typeContract [("name", s name), ("circuits", .vec (contractCircuits circuits))]
  | .unknown => .path .typeUnknown
  | .adt _ _ => .path .typeUnknown
  | .typeVar _ => .path .typeUnknown

def typeRefs : List IrType → List Rust
  | [] => []
  | ty :: types => typeRef ty :: typeRefs types

def structFields : List (String × IrType) → List Rust
  | [] => []
  | (name, ty) :: fields => .pair (s name) (typeRef ty) :: structFields fields

def contractCircuit : ContractCircuit → Rust
  | .mk name pure argumentTypes resultType =>
    .make .contractCircuit [("name", s name), ("pure", .bool pure),
      ("argument_types", .vec (typeRefs argumentTypes)), ("result_type", typeRef resultType)]

def contractCircuits : List ContractCircuit → List Rust
  | [] => []
  | c :: circuits => contractCircuit c :: contractCircuits circuits

end

def argument (a : Argument) : Rust :=
  .make .argument [("name", ident a.name), ("ty", typeRef a.ty)]

def literal : Literal → Rust
  | .int i => .call .literalInt [decimal i]
  | .bool b => .call .literalBool [.bool b]
  | .bytes b => .call .literalBytes [bytes b]

def opClass : OpClass → Rust
  | .plain name => .call .opClassPlain [s name]
  | .coinCheck name coin recipient =>
    .make .opClassCoinCheck [("name", s name), ("coin", .num coin), ("recipient", .num recipient)]

/-- The operators that carry an operand type. -/
def typedBinop (variant : Path) (ty left right : Rust) : Rust :=
  .make variant [("ty", ty), ("left", bx left), ("right", bx right)]

/-- The element reads that index with an expression. -/
def indexed (variant : Path) (ty inner index : Rust) : Rust :=
  .make variant [("ty", ty), ("expr", bx inner), ("index", bx index)]

def sliced (variant : Path) (ty inner index : Rust) (len : ℕ) : Rust :=
  .make variant [("ty", ty), ("expr", bx inner), ("index", bx index), ("len", .num len)]

mutual

def expr : Expr → Rust
  | .quote lit => .call .exprQuote [literal lit]
  | .varRef id => .call .exprVarRef [ident id]
  | .default ty => .call .exprDefault [typeRef ty]
  | .ite cond thn els =>
    .make .exprIf [("cond", bx (expr cond)), ("then", bx (expr thn)), ("els", bx (expr els))]
  | .eltRef inner elt index =>
    .make .exprEltRef [("expr", bx (expr inner)), ("elt", s elt), ("index", .num index)]
  | .enumRef ty elt => .make .exprEnumRef [("ty", typeRef ty), ("elt", s elt)]
  | .tuple vector args => .call (.exprTuple vector) [.vec (tupleArgs args)]
  | .tupleRef inner index =>
    .make .exprTupleRef [("expr", bx (expr inner)), ("index", .num index)]
  | .tupleSlice ty inner index len =>
    .make .exprTupleSlice [("ty", typeRef ty), ("expr", bx (expr inner)), ("index", .num index),
      ("len", .num len)]
  | .vectorRef ty inner index => indexed .exprVectorRef (typeRef ty) (expr inner) (expr index)
  | .bytesRef ty inner index => indexed .exprBytesRef (typeRef ty) (expr inner) (expr index)
  | .vectorSlice ty inner index len =>
    sliced .exprVectorSlice (typeRef ty) (expr inner) (expr index) len
  | .bytesSlice ty inner index len =>
    sliced .exprBytesSlice (typeRef ty) (expr inner) (expr index) len
  | .arith op ty left right => typedBinop (.exprArith op) (typeRef ty) (expr left) (expr right)
  | .equal negated ty left right =>
    typedBinop (.exprEqual negated) (typeRef ty) (expr left) (expr right)
  | .compare op bits left right =>
    .make (.exprCompare op) [("bits", .num bits), ("left", bx (expr left)),
      ("right", bx (expr right))]
  | .map len fn args =>
    .make .exprMap [("len", .num len), ("fun", func fn), ("args", .vec (mapArgs args))]
  | .fold len fn init initTy args =>
    .make .exprFold [("len", .num len), ("fun", func fn), ("init", bx (expr init)),
      ("init_ty", typeRef initTy), ("args", .vec (mapArgs args))]
  | .call name args => .make .exprCall [("name", ident name), ("args", .vec (exprs args))]
  | .new ty elements =>
    .make .exprNew [("ty", typeRef ty), ("elements", .vec (exprs elements))]
  | .seq items => .call .exprSeq [.vec (exprs items)]
  | .letStar bindings body =>
    .make .exprLetStar [("bindings", .vec (letBindings bindings)), ("body", bx (expr body))]
  | .assert inner message =>
    .make .exprAssert [("expr", bx (expr inner)), ("message", s message)]
  | .fieldToBytes len ft inner =>
    .make .exprFieldToBytes [("len", .num len), ("field_type", fieldType ft),
      ("expr", bx (expr inner))]
  | .castFromBytes ty len inner =>
    .make .exprCastFromBytes [("ty", typeRef ty), ("len", .num len), ("expr", bx (expr inner))]
  | .vectorToBytes len inner =>
    .make .exprVectorToBytes [("len", .num len), ("expr", bx (expr inner))]
  | .bytesToVector len inner =>
    .make .exprBytesToVector [("len", .num len), ("expr", bx (expr inner))]
  | .castBetween kind ty source inner =>
    .make (.exprCast kind) [("ty", typeRef ty), ("from", typeRef source),
      ("expr", bx (expr inner))]
  | .castToField ft source inner =>
    .make .exprCastToField [("field_type", fieldType ft), ("from", typeRef source),
      ("expr", bx (expr inner))]
  | .castFromField maxval ft inner =>
    .make .exprCastFromField [("maxval", decimal maxval), ("field_type", fieldType ft),
      ("expr", bx (expr inner))]
  | .downcastUnsigned fromMaxval toMaxval inner =>
    .make .exprDowncastUnsigned [("from_maxval", decimal fromMaxval),
      ("to_maxval", decimal toMaxval), ("expr", bx (expr inner))]
  | .contractCall circuit receiver contractType args =>
    .make .exprContractCall [("circuit", s circuit), ("receiver", bx (expr receiver)),
      ("contract_type", typeRef contractType), ("args", .vec (exprs args))]
  | .emit eventVersion eventTag len payload is =>
    .make .exprEmit [("event_version", .num eventVersion), ("event_tag", .num eventTag),
      ("len", .num len), ("payload", bx (expr payload)), ("instructions", .vec (instructions is))]
  | .publicLedger field cls path op resultType is args =>
    .make .exprPublicLedger [("field", ident field), ("op_class", opClass cls),
      ("path", .vec (pathElements path)), ("op", s op), ("result_type", typeRef resultType),
      ("instructions", .vec (instructions is)), ("args", .vec (exprs args))]
  | .ret inner => .call .exprReturn [bx (expr inner)]

def exprs : List Expr → List Rust
  | [] => []
  | e :: es => expr e :: exprs es

def tupleArg : TupleArg → Rust
  | .single e => .call .tupleArgSingle [expr e]
  | .spread len e => .make .tupleArgSpread [("len", .num len), ("expr", expr e)]

def tupleArgs : List TupleArg → List Rust
  | [] => []
  | a :: args => tupleArg a :: tupleArgs args

def mapArg : MapArg → Rust
  | .mk e ty elementTy =>
    .make .mapArg [("expr", expr e), ("ty", typeRef ty), ("element_ty", typeRef elementTy)]

def mapArgs : List MapArg → List Rust
  | [] => []
  | a :: args => mapArg a :: mapArgs args

def func : Fun → Rust
  | .ref id => .call .funRef [ident id]
  | .circuit arguments resultType body =>
    .make .funCircuit [("arguments", .vec (arguments.map argument)),
      ("result_type", typeRef resultType), ("body", bx (expr body))]

def letBindings : List (Argument × Expr) → List Rust
  | [] => []
  | (a, e) :: bindings => .pair (argument a) (expr e) :: letBindings bindings

def pathElement : PathElement → Rust
  | .index i => .call .pathIndex [.num i]
  | .computed ty e => .make .pathComputed [("ty", bx (typeRef ty)), ("expr", bx (expr e))]

def pathElements : List PathElement → List Rust
  | [] => []
  | p :: path => pathElement p :: pathElements path

def instruction : Instruction → Rust
  | .mk op args =>
    .make .instruction [("op", .call .opNameFrom [.str op.val.asStr]),
      ("args", .vec (instructionArgs args))]

def instructions : List Instruction → List Rust
  | [] => []
  | i :: is => instruction i :: instructions is

def instructionArgs : List (String × Operand) → List Rust
  | [] => []
  | (name, o) :: args => .pair (s name) (operand o) :: instructionArgs args

def operand : Operand → Rust
  | .int i => .call .operandInt [decimal i]
  | .bool b => .call .operandBool [.bool b]
  | .str v => .call .operandStr [s v]
  | .align value n => .make .operandAlign [("value", decimal value), ("bytes", .num n)]
  | .stack => .path .operandStack
  | .void => .path .operandVoid
  | .valueToInt x => .call .operandValueToInt [bx (operand x)]
  | .null ty => .call .operandNull [typeRef ty]
  | .maxSizeof ty => .call .operandMaxSizeof [typeRef ty]
  | .add x y => .call .operandAdd [bx (operand x), bx (operand y)]
  | .leafHash x => .call .operandLeafHash [bx (operand x)]
  | .coinCommit coin recipient =>
    .call .operandCoinCommit [bx (operand coin), bx (operand recipient)]
  | .alignedConcat parts => .call .operandAlignedConcat [.vec (operands parts)]
  | .stateValue value => .call .operandStateValue [stateValue value]
  | .expr e => .call .operandExpr [bx (expr e)]
  | .list items => .call .operandList [.vec (operands items)]

def operands : List Operand → List Rust
  | [] => []
  | o :: os => operand o :: operands os

def operandPairs : List (Operand × Operand) → List Rust
  | [] => []
  | (k, v) :: entries => .pair (operand k) (operand v) :: operandPairs entries

def stateValue : StateValue → Rust
  | .null => .path .stateNull
  | .cell x => .call .stateCell [bx (operand x)]
  | .adt x ty => .call .stateAdt [bx (operand x), typeRef ty]
  | .array elements => .call .stateArray [.vec (operands elements)]
  | .map entries => .call .stateMap [.vec (operandPairs entries)]
  | .merkleTree depth entries =>
    .make .stateMerkleTree [("depth", .num depth), ("entries", .vec (operandPairs entries))]

end

def circuit (c : Circuit) : Rust :=
  .make .circuit [("name", ident c.name), ("exported", .bool c.exported), ("pure", .bool c.pure),
    ("proof", .bool c.proof), ("arguments", .vec (c.arguments.map argument)),
    ("result_type", typeRef c.resultType), ("body", expr c.body)]

def circuits (defs : List Circuit) : Rust := .vec (defs.map circuit)

def native (n : Native) : Rust :=
  .make .native [("name", ident n.name), ("entry", s n.entry), ("class", s n.kind),
    ("type_arguments", .vec (typeRefs n.typeArguments)),
    ("arguments", .vec (n.arguments.map argument)), ("result_type", typeRef n.resultType)]

def natives (defs : List Native) : Rust := .vec (defs.map native)

def witness (w : Witness) : Rust :=
  .make .witness [("name", ident w.name), ("arguments", .vec (w.arguments.map argument)),
    ("result_type", typeRef w.resultType)]

def witnesses (defs : List Witness) : Rust := .vec (defs.map witness)

/-- The part of a loaded contract that the bindings carry whole. A constructor that
cannot run has the reason in its place. -/
structure ContractInfo where
  helpers : List Circuit
  natives : List Native
  witnesses : List Witness
  constructor : Option (Except String Circuit)

def ContractInfo.runnableConstructor (info : ContractInfo) : Option Circuit :=
  match info.constructor with
  | some (.ok c) => some c
  | _ => none

/-- The bodies of the four functions that construct the program. -/
structure IrConstants where
  helpers : Rust
  natives : Rust
  witnesses : Rust
  constructor : Option Rust

def emitCircuitIrConstants (info : ContractInfo) : IrConstants where
  helpers := circuits info.helpers
  natives := natives info.natives
  witnesses := witnesses info.witnesses
  constructor := info.runnableConstructor.map circuit

end Emission

section Evaluation

/-- The number that the digits parse to. -/
inductive Parsed : List Char → ℤ → Prop
  | nat {digits : List Char} (h : Numeral digits) : Parsed digits (SexpReader.decimal digits)
  | neg {digits : List Char} (h : Numeral digits) :
      Parsed ('-' :: digits) (-(SexpReader.decimal digits))

inductive EvalString : Rust → String → Prop
  | fromStr (v : String) : EvalString (s v) v

inductive EvalByte : Rust → UInt8 → Prop
  | num {n : ℕ} {b : UInt8} (h : n = b.toNat) : EvalByte (.num n) b

inductive EvalCurve : Rust → Curve → Prop
  | jubjub : EvalCurve (.path .curveJubjub) .jubjub
  | secp256k1 : EvalCurve (.path .curveSecp256k1) .secp256k1
  | secp256r1 : EvalCurve (.path .curveSecp256r1) .secp256r1
  | curve25519 : EvalCurve (.path .curveCurve25519) .curve25519

inductive EvalFieldType : Rust → FieldType → Prop
  | native : EvalFieldType (.path .fieldNative) .native
  | base {r : Rust} {c : Curve} (h : EvalCurve r c) : EvalFieldType (.call .fieldBase [r]) (.base c)
  | scalar {r : Rust} {c : Curve} (h : EvalCurve r c) :
      EvalFieldType (.call .fieldScalar [r]) (.scalar c)

mutual

/-- A constructor expression of a type, and the type it evaluates to. -/
inductive EvalType : Rust → IrType → Prop
  | boolean : EvalType (.path .typeBoolean) .boolean
  | field {r : Rust} {ft : FieldType} (h : EvalFieldType r ft) :
      EvalType (.call .typeField [r]) (.field ft)
  | unsigned {digits : List Char} {maxval : ℕ} (h : Parsed digits maxval) :
      EvalType (.call .typeUnsigned [.parse digits]) (.unsigned maxval)
  | point {r : Rust} {c : Curve} (h : EvalCurve r c) : EvalType (.call .typePoint [r]) (.point c)
  | bytes (length : ℕ) : EvalType (.call .typeBytes [.num length]) (.bytes length)
  | opaqueData (name : String) : EvalType (.call .typeOpaque [s name]) (.opaqueData name)
  | vector {len : ℕ} {r : Rust} {ty : IrType} (h : EvalType r ty) :
      EvalType (.make .typeVector [("len", .num len), ("ty", bx r)]) (.vector len ty)
  | tuple {rs : List Rust} {types : List IrType} (h : List.Forall₂ EvalType rs types) :
      EvalType (.call .typeTuple [.vec rs]) (.tuple types)
  | struct {name : String} {rs : List Rust} {fields : List (String × IrType)}
      (h : List.Forall₂ EvalStructField rs fields) :
      EvalType (.make .typeStruct [("name", s name), ("fields", .vec rs)]) (.struct name fields)
  | enum {name : String} {rs : List Rust} {variants : List String}
      (h : List.Forall₂ EvalString rs variants) :
      EvalType (.make .typeEnum [("name", s name), ("variants", .vec rs)]) (.enum name variants)
  | aliasOf {nominal : Bool} {name : String} {r : Rust} {ty : IrType} (h : EvalType r ty) :
      EvalType (.make .typeAlias [("nominal", .bool nominal), ("name", s name), ("ty", bx r)])
        (.aliasOf nominal name ty)
  | contract {name : String} {rs : List Rust} {circuits : List ContractCircuit}
      (h : List.Forall₂ EvalContractCircuit rs circuits) :
      EvalType (.make .typeContract [("name", s name), ("circuits", .vec rs)])
        (.contract name circuits)
  | adt {name : String} {rs : List Rust} {args : List AdtArg}
      (h : List.Forall₂ EvalAdtArg rs args) :
      EvalType (.make .typeAdt [("name", s name), ("args", .vec rs)]) (.adt name args)
  | typeVar (name : String) : EvalType (.call .typeTypeVar [s name]) (.typeVar name)
  | unknown : EvalType (.path .typeUnknown) .unknown

inductive EvalStructField : Rust → String × IrType → Prop
  | mk {name : String} {r : Rust} {ty : IrType} (h : EvalType r ty) :
      EvalStructField (.pair (s name) r) (name, ty)

inductive EvalContractCircuit : Rust → ContractCircuit → Prop
  | mk {name : String} {pure : Bool} {rs : List Rust} {r : Rust} {argumentTypes : List IrType}
      {resultType : IrType} (hargs : List.Forall₂ EvalType rs argumentTypes)
      (hresult : EvalType r resultType) :
      EvalContractCircuit (.make .contractCircuit [("name", s name), ("pure", .bool pure),
        ("argument_types", .vec rs), ("result_type", r)]) (.mk name pure argumentTypes resultType)

inductive EvalAdtArg : Rust → AdtArg → Prop
  | nat (n : ℕ) : EvalAdtArg (.call .adtArgNat [.num n]) (.nat n)
  | type {r : Rust} {ty : IrType} (h : EvalType r ty) :
      EvalAdtArg (.call .adtArgType [r]) (.type ty)

end

inductive EvalArgument : Rust → Argument → Prop
  | mk {r : Rust} {name : Ident} {ty : IrType} (h : EvalType r ty) :
      EvalArgument (.make .argument [("name", ident name), ("ty", r)]) ⟨name, ty⟩

inductive EvalLiteral : Rust → Literal → Prop
  | int {digits : List Char} {i : ℤ} (h : Parsed digits i) :
      EvalLiteral (.call .literalInt [.parse digits]) (.int i)
  | bool (b : Bool) : EvalLiteral (.call .literalBool [.bool b]) (.bool b)
  | bytes {rs : List Rust} {b : Bytes} (h : List.Forall₂ EvalByte rs b) :
      EvalLiteral (.call .literalBytes [.vec rs]) (.bytes b)

inductive EvalOpClass : Rust → OpClass → Prop
  | plain (name : String) : EvalOpClass (.call .opClassPlain [s name]) (.plain name)
  | coinCheck (name : String) (coin recipient : ℕ) :
      EvalOpClass (.make .opClassCoinCheck [("name", s name), ("coin", .num coin),
        ("recipient", .num recipient)]) (.coinCheck name coin recipient)

mutual

/-- A constructor expression of an IR expression, and what it evaluates to. -/
inductive EvalExpr : Rust → Expr → Prop
  | quote {r : Rust} {lit : Literal} (h : EvalLiteral r lit) :
      EvalExpr (.call .exprQuote [r]) (.quote lit)
  | varRef (id : Ident) : EvalExpr (.call .exprVarRef [ident id]) (.varRef id)
  | default {r : Rust} {ty : IrType} (h : EvalType r ty) :
      EvalExpr (.call .exprDefault [r]) (.default ty)
  | ite {c t e : Rust} {cond thn els : Expr} (hcond : EvalExpr c cond) (hthn : EvalExpr t thn)
      (hels : EvalExpr e els) :
      EvalExpr (.make .exprIf [("cond", bx c), ("then", bx t), ("els", bx e)])
        (.ite cond thn els)
  | eltRef {r : Rust} {inner : Expr} {elt : String} {index : ℕ} (h : EvalExpr r inner) :
      EvalExpr (.make .exprEltRef [("expr", bx r), ("elt", s elt), ("index", .num index)])
        (.eltRef inner elt index)
  | enumRef {r : Rust} {ty : IrType} {elt : String} (h : EvalType r ty) :
      EvalExpr (.make .exprEnumRef [("ty", r), ("elt", s elt)]) (.enumRef ty elt)
  | tuple {vector : Bool} {rs : List Rust} {args : List TupleArg}
      (h : List.Forall₂ EvalTupleArg rs args) :
      EvalExpr (.call (.exprTuple vector) [.vec rs]) (.tuple vector args)
  | tupleRef {r : Rust} {inner : Expr} {index : ℕ} (h : EvalExpr r inner) :
      EvalExpr (.make .exprTupleRef [("expr", bx r), ("index", .num index)]) (.tupleRef inner index)
  | tupleSlice {t r : Rust} {ty : IrType} {inner : Expr} {index len : ℕ} (hty : EvalType t ty)
      (h : EvalExpr r inner) :
      EvalExpr (.make .exprTupleSlice [("ty", t), ("expr", bx r), ("index", .num index),
        ("len", .num len)]) (.tupleSlice ty inner index len)
  | vectorRef {t r i : Rust} {ty : IrType} {inner index : Expr} (hty : EvalType t ty)
      (h : EvalExpr r inner) (hindex : EvalExpr i index) :
      EvalExpr (.make .exprVectorRef [("ty", t), ("expr", bx r), ("index", bx i)])
        (.vectorRef ty inner index)
  | bytesRef {t r i : Rust} {ty : IrType} {inner index : Expr} (hty : EvalType t ty)
      (h : EvalExpr r inner) (hindex : EvalExpr i index) :
      EvalExpr (.make .exprBytesRef [("ty", t), ("expr", bx r), ("index", bx i)])
        (.bytesRef ty inner index)
  | vectorSlice {t r i : Rust} {ty : IrType} {inner index : Expr} {len : ℕ} (hty : EvalType t ty)
      (h : EvalExpr r inner) (hindex : EvalExpr i index) :
      EvalExpr (.make .exprVectorSlice [("ty", t), ("expr", bx r), ("index", bx i),
        ("len", .num len)]) (.vectorSlice ty inner index len)
  | bytesSlice {t r i : Rust} {ty : IrType} {inner index : Expr} {len : ℕ} (hty : EvalType t ty)
      (h : EvalExpr r inner) (hindex : EvalExpr i index) :
      EvalExpr (.make .exprBytesSlice [("ty", t), ("expr", bx r), ("index", bx i),
        ("len", .num len)]) (.bytesSlice ty inner index len)
  | arith {op : ArithOp} {t l r : Rust} {ty : IrType} {left right : Expr} (hty : EvalType t ty)
      (hleft : EvalExpr l left) (hright : EvalExpr r right) :
      EvalExpr (.make (.exprArith op) [("ty", t), ("left", bx l), ("right", bx r)])
        (.arith op ty left right)
  | equal {negated : Bool} {t l r : Rust} {ty : IrType} {left right : Expr} (hty : EvalType t ty)
      (hleft : EvalExpr l left) (hright : EvalExpr r right) :
      EvalExpr (.make (.exprEqual negated) [("ty", t), ("left", bx l), ("right", bx r)])
        (.equal negated ty left right)
  | compare {op : CompareOp} {bits : ℕ} {l r : Rust} {left right : Expr}
      (hleft : EvalExpr l left) (hright : EvalExpr r right) :
      EvalExpr (.make (.exprCompare op) [("bits", .num bits), ("left", bx l), ("right", bx r)])
        (.compare op bits left right)
  | map {len : ℕ} {f : Rust} {rs : List Rust} {fn : Fun} {args : List MapArg}
      (hfn : EvalFun f fn) (hargs : List.Forall₂ EvalMapArg rs args) :
      EvalExpr (.make .exprMap [("len", .num len), ("fun", f), ("args", .vec rs)])
        (.map len fn args)
  | fold {len : ℕ} {f i t : Rust} {rs : List Rust} {fn : Fun} {init : Expr} {initTy : IrType}
      {args : List MapArg} (hfn : EvalFun f fn) (hinit : EvalExpr i init)
      (hty : EvalType t initTy) (hargs : List.Forall₂ EvalMapArg rs args) :
      EvalExpr (.make .exprFold [("len", .num len), ("fun", f), ("init", bx i), ("init_ty", t),
        ("args", .vec rs)]) (.fold len fn init initTy args)
  | call {name : Ident} {rs : List Rust} {args : List Expr} (h : List.Forall₂ EvalExpr rs args) :
      EvalExpr (.make .exprCall [("name", ident name), ("args", .vec rs)]) (.call name args)
  | new {t : Rust} {ty : IrType} {rs : List Rust} {elements : List Expr} (hty : EvalType t ty)
      (h : List.Forall₂ EvalExpr rs elements) :
      EvalExpr (.make .exprNew [("ty", t), ("elements", .vec rs)]) (.new ty elements)
  | seq {rs : List Rust} {items : List Expr} (h : List.Forall₂ EvalExpr rs items) :
      EvalExpr (.call .exprSeq [.vec rs]) (.seq items)
  | letStar {rs : List Rust} {b : Rust} {bindings : List (Argument × Expr)} {body : Expr}
      (h : List.Forall₂ EvalBinding rs bindings) (hbody : EvalExpr b body) :
      EvalExpr (.make .exprLetStar [("bindings", .vec rs), ("body", bx b)])
        (.letStar bindings body)
  | assert {r : Rust} {inner : Expr} {message : String} (h : EvalExpr r inner) :
      EvalExpr (.make .exprAssert [("expr", bx r), ("message", s message)])
        (.assert inner message)
  | fieldToBytes {len : ℕ} {f r : Rust} {ft : FieldType} {inner : Expr} (hft : EvalFieldType f ft)
      (h : EvalExpr r inner) :
      EvalExpr (.make .exprFieldToBytes [("len", .num len), ("field_type", f), ("expr", bx r)])
        (.fieldToBytes len ft inner)
  | castFromBytes {t r : Rust} {ty : IrType} {len : ℕ} {inner : Expr} (hty : EvalType t ty)
      (h : EvalExpr r inner) :
      EvalExpr (.make .exprCastFromBytes [("ty", t), ("len", .num len), ("expr", bx r)])
        (.castFromBytes ty len inner)
  | vectorToBytes {len : ℕ} {r : Rust} {inner : Expr} (h : EvalExpr r inner) :
      EvalExpr (.make .exprVectorToBytes [("len", .num len), ("expr", bx r)])
        (.vectorToBytes len inner)
  | bytesToVector {len : ℕ} {r : Rust} {inner : Expr} (h : EvalExpr r inner) :
      EvalExpr (.make .exprBytesToVector [("len", .num len), ("expr", bx r)])
        (.bytesToVector len inner)
  | castBetween {kind : CastKind} {t f r : Rust} {ty source : IrType} {inner : Expr}
      (hty : EvalType t ty) (hsource : EvalType f source) (h : EvalExpr r inner) :
      EvalExpr (.make (.exprCast kind) [("ty", t), ("from", f), ("expr", bx r)])
        (.castBetween kind ty source inner)
  | castToField {t f r : Rust} {ft : FieldType} {source : IrType} {inner : Expr}
      (hft : EvalFieldType t ft) (hsource : EvalType f source) (h : EvalExpr r inner) :
      EvalExpr (.make .exprCastToField [("field_type", t), ("from", f), ("expr", bx r)])
        (.castToField ft source inner)
  | castFromField {digits : List Char} {maxval : ℕ} {t r : Rust} {ft : FieldType} {inner : Expr}
      (hmaxval : Parsed digits maxval) (hft : EvalFieldType t ft) (h : EvalExpr r inner) :
      EvalExpr (.make .exprCastFromField [("maxval", .parse digits), ("field_type", t),
        ("expr", bx r)]) (.castFromField maxval ft inner)
  | downcastUnsigned {fromDigits toDigits : List Char} {fromMaxval toMaxval : ℕ} {r : Rust}
      {inner : Expr} (hfrom : Parsed fromDigits fromMaxval)
      (hto : Parsed toDigits toMaxval) (h : EvalExpr r inner) :
      EvalExpr (.make .exprDowncastUnsigned [("from_maxval", .parse fromDigits),
        ("to_maxval", .parse toDigits), ("expr", bx r)])
        (.downcastUnsigned fromMaxval toMaxval inner)
  | contractCall {circuit : String} {r t : Rust} {receiver : Expr} {contractType : IrType}
      {rs : List Rust} {args : List Expr} (h : EvalExpr r receiver)
      (hty : EvalType t contractType) (hargs : List.Forall₂ EvalExpr rs args) :
      EvalExpr (.make .exprContractCall [("circuit", s circuit), ("receiver", bx r),
        ("contract_type", t), ("args", .vec rs)]) (.contractCall circuit receiver contractType args)
  | emit {eventVersion eventTag len : ℕ} {r : Rust} {payload : Expr} {rs : List Rust}
      {is : List Instruction} (h : EvalExpr r payload)
      (his : List.Forall₂ EvalInstruction rs is) :
      EvalExpr (.make .exprEmit [("event_version", .num eventVersion),
        ("event_tag", .num eventTag), ("len", .num len), ("payload", bx r),
        ("instructions", .vec rs)]) (.emit eventVersion eventTag len payload is)
  | publicLedger {field : Ident} {c t : Rust} {cls : OpClass} {ps rs as : List Rust}
      {path : List PathElement} {op : String} {resultType : IrType} {is : List Instruction}
      {args : List Expr} (hcls : EvalOpClass c cls) (hpath : List.Forall₂ EvalPathElement ps path)
      (hty : EvalType t resultType) (his : List.Forall₂ EvalInstruction rs is)
      (hargs : List.Forall₂ EvalExpr as args) :
      EvalExpr (.make .exprPublicLedger [("field", ident field), ("op_class", c),
        ("path", .vec ps), ("op", s op), ("result_type", t), ("instructions", .vec rs),
        ("args", .vec as)]) (.publicLedger field cls path op resultType is args)
  | ret {r : Rust} {inner : Expr} (h : EvalExpr r inner) :
      EvalExpr (.call .exprReturn [bx r]) (.ret inner)

inductive EvalTupleArg : Rust → TupleArg → Prop
  | single {r : Rust} {e : Expr} (h : EvalExpr r e) :
      EvalTupleArg (.call .tupleArgSingle [r]) (.single e)
  | spread {len : ℕ} {r : Rust} {e : Expr} (h : EvalExpr r e) :
      EvalTupleArg (.make .tupleArgSpread [("len", .num len), ("expr", r)]) (.spread len e)

inductive EvalMapArg : Rust → MapArg → Prop
  | mk {r t u : Rust} {e : Expr} {ty elementTy : IrType} (h : EvalExpr r e) (hty : EvalType t ty)
      (helement : EvalType u elementTy) :
      EvalMapArg (.make .mapArg [("expr", r), ("ty", t), ("element_ty", u)]) (.mk e ty elementTy)

inductive EvalFun : Rust → Fun → Prop
  | ref (id : Ident) : EvalFun (.call .funRef [ident id]) (.ref id)
  | circuit {rs : List Rust} {t b : Rust} {arguments : List Argument} {resultType : IrType}
      {body : Expr} (hargs : List.Forall₂ EvalArgument rs arguments) (hty : EvalType t resultType)
      (hbody : EvalExpr b body) :
      EvalFun (.make .funCircuit [("arguments", .vec rs), ("result_type", t), ("body", bx b)])
        (.circuit arguments resultType body)

inductive EvalBinding : Rust → Argument × Expr → Prop
  | mk {a r : Rust} {arg : Argument} {e : Expr} (harg : EvalArgument a arg) (h : EvalExpr r e) :
      EvalBinding (.pair a r) (arg, e)

inductive EvalPathElement : Rust → PathElement → Prop
  | index (i : ℕ) : EvalPathElement (.call .pathIndex [.num i]) (.index i)
  | computed {t r : Rust} {ty : IrType} {e : Expr} (hty : EvalType t ty) (h : EvalExpr r e) :
      EvalPathElement (.make .pathComputed [("ty", bx t), ("expr", bx r)]) (.computed ty e)

inductive EvalInstruction : Rust → Instruction → Prop
  | mk {name : String} {rs : List Rust} {op : ReadOp} {args : List (String × Operand)}
      (hop : ReadOp.ofStr name = op) (h : List.Forall₂ EvalInstructionArg rs args) :
      EvalInstruction (.make .instruction [("op", .call .opNameFrom [.str name]),
        ("args", .vec rs)]) (.mk op args)

inductive EvalInstructionArg : Rust → String × Operand → Prop
  | mk {name : String} {r : Rust} {o : Operand} (h : EvalOperand r o) :
      EvalInstructionArg (.pair (s name) r) (name, o)

inductive EvalOperand : Rust → Operand → Prop
  | int {digits : List Char} {i : ℤ} (h : Parsed digits i) :
      EvalOperand (.call .operandInt [.parse digits]) (.int i)
  | bool (b : Bool) : EvalOperand (.call .operandBool [.bool b]) (.bool b)
  | str (v : String) : EvalOperand (.call .operandStr [s v]) (.str v)
  | align {digits : List Char} {value n : ℕ} (h : Parsed digits value) :
      EvalOperand (.make .operandAlign [("value", .parse digits), ("bytes", .num n)])
        (.align value n)
  | stack : EvalOperand (.path .operandStack) .stack
  | void : EvalOperand (.path .operandVoid) .void
  | valueToInt {r : Rust} {x : Operand} (h : EvalOperand r x) :
      EvalOperand (.call .operandValueToInt [bx r]) (.valueToInt x)
  | null {t : Rust} {ty : IrType} (h : EvalType t ty) :
      EvalOperand (.call .operandNull [t]) (.null ty)
  | maxSizeof {t : Rust} {ty : IrType} (h : EvalType t ty) :
      EvalOperand (.call .operandMaxSizeof [t]) (.maxSizeof ty)
  | add {a b : Rust} {x y : Operand} (hx : EvalOperand a x) (hy : EvalOperand b y) :
      EvalOperand (.call .operandAdd [bx a, bx b]) (.add x y)
  | leafHash {r : Rust} {x : Operand} (h : EvalOperand r x) :
      EvalOperand (.call .operandLeafHash [bx r]) (.leafHash x)
  | coinCommit {a b : Rust} {coin recipient : Operand} (hcoin : EvalOperand a coin)
      (hrecipient : EvalOperand b recipient) :
      EvalOperand (.call .operandCoinCommit [bx a, bx b]) (.coinCommit coin recipient)
  | alignedConcat {rs : List Rust} {parts : List Operand} (h : List.Forall₂ EvalOperand rs parts) :
      EvalOperand (.call .operandAlignedConcat [.vec rs]) (.alignedConcat parts)
  | stateValue {r : Rust} {value : StateValue} (h : EvalStateValue r value) :
      EvalOperand (.call .operandStateValue [r]) (.stateValue value)
  | expr {r : Rust} {e : Expr} (h : EvalExpr r e) :
      EvalOperand (.call .operandExpr [bx r]) (.expr e)
  | list {rs : List Rust} {items : List Operand} (h : List.Forall₂ EvalOperand rs items) :
      EvalOperand (.call .operandList [.vec rs]) (.list items)

inductive EvalOperandPair : Rust → Operand × Operand → Prop
  | mk {a b : Rust} {k v : Operand} (hk : EvalOperand a k) (hv : EvalOperand b v) :
      EvalOperandPair (.pair a b) (k, v)

inductive EvalStateValue : Rust → StateValue → Prop
  | null : EvalStateValue (.path .stateNull) .null
  | cell {r : Rust} {x : Operand} (h : EvalOperand r x) :
      EvalStateValue (.call .stateCell [bx r]) (.cell x)
  | adt {r t : Rust} {x : Operand} {ty : IrType} (h : EvalOperand r x) (hty : EvalType t ty) :
      EvalStateValue (.call .stateAdt [bx r, t]) (.adt x ty)
  | array {rs : List Rust} {elements : List Operand} (h : List.Forall₂ EvalOperand rs elements) :
      EvalStateValue (.call .stateArray [.vec rs]) (.array elements)
  | map {rs : List Rust} {entries : List (Operand × Operand)}
      (h : List.Forall₂ EvalOperandPair rs entries) :
      EvalStateValue (.call .stateMap [.vec rs]) (.map entries)
  | merkleTree {depth : ℕ} {rs : List Rust} {entries : List (Operand × Operand)}
      (h : List.Forall₂ EvalOperandPair rs entries) :
      EvalStateValue (.make .stateMerkleTree [("depth", .num depth), ("entries", .vec rs)])
        (.merkleTree depth entries)

end

inductive EvalCircuit : Rust → Circuit → Prop
  | mk {name : Ident} {exported pure proof : Bool} {rs : List Rust} {t b : Rust}
      {arguments : List Argument} {resultType : IrType} {body : Expr}
      (hargs : List.Forall₂ EvalArgument rs arguments) (hty : EvalType t resultType)
      (hbody : EvalExpr b body) :
      EvalCircuit (.make .circuit [("name", ident name), ("exported", .bool exported),
        ("pure", .bool pure), ("proof", .bool proof), ("arguments", .vec rs),
        ("result_type", t), ("body", b)])
        ⟨name, exported, pure, proof, arguments, resultType, body⟩

inductive EvalNative : Rust → Native → Prop
  | mk {name : Ident} {entry kind : String} {ts rs : List Rust} {t : Rust}
      {typeArguments : List IrType} {arguments : List Argument} {resultType : IrType}
      (htypes : List.Forall₂ EvalType ts typeArguments)
      (hargs : List.Forall₂ EvalArgument rs arguments) (hty : EvalType t resultType) :
      EvalNative (.make .native [("name", ident name), ("entry", s entry), ("class", s kind),
        ("type_arguments", .vec ts), ("arguments", .vec rs), ("result_type", t)])
        ⟨name, entry, kind, typeArguments, arguments, resultType⟩

inductive EvalWitness : Rust → Witness → Prop
  | mk {name : Ident} {rs : List Rust} {t : Rust} {arguments : List Argument}
      {resultType : IrType} (hargs : List.Forall₂ EvalArgument rs arguments)
      (hty : EvalType t resultType) :
      EvalWitness (.make .witness [("name", ident name), ("arguments", .vec rs),
        ("result_type", t)]) ⟨name, arguments, resultType⟩

inductive EvalVec {α : Type} (Eval : Rust → α → Prop) : Rust → List α → Prop
  | mk {rs : List Rust} {items : List α} (h : List.Forall₂ Eval rs items) :
      EvalVec Eval (.vec rs) items

/-- The emitted functions return the program of the loaded contract. -/
structure Returns (emitted : IrConstants) (info : ContractInfo) : Prop where
  helpers : EvalVec EvalCircuit emitted.helpers info.helpers
  natives : EvalVec EvalNative emitted.natives info.natives
  witnesses : EvalVec EvalWitness emitted.witnesses info.witnesses
  constructor : Option.Rel EvalCircuit emitted.constructor info.runnableConstructor

end Evaluation

end MidnightRs.EmitIr
