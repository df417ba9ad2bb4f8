import MidnightRs.EmitIr

/-!
The copy of a program that the generated bindings carry is the program itself exactly
when no type in it is a ledger type or a type variable.
-/
namespace MidnightRs.EmitIr

open Embedded
open MidnightRs.Compact (Curve FieldType)
open Circuits (Literal OpClass)
open SexpReader (writeInt)

section Leaves

theorem parsed_writeInt (i : ℤ) : Parsed (writeInt i) i := by
  rw [writeInt]
  split
  case isTrue h =>
    have hnat := Parsed.nat (SexpReader.numeral_toDigits i.toNat)
    rwa [SexpReader.decimal_toDigits, Int.toNat_of_nonneg h] at hnat
  case isFalse h =>
    have hneg := Parsed.neg (SexpReader.numeral_toDigits (-i).toNat)
    rwa [SexpReader.decimal_toDigits, Int.toNat_of_nonneg (by omega), Int.neg_neg] at hneg

theorem evalCurve_curve : ∀ c : Curve, EvalCurve (curve c) c
  | .jubjub => .jubjub
  | .secp256k1 => .secp256k1
  | .secp256r1 => .secp256r1
  | .curve25519 => .curve25519

theorem evalFieldType_fieldType : ∀ ft : FieldType, EvalFieldType (fieldType ft) ft
  | .native => .native
  | .base c => .base (evalCurve_curve c)
  | .scalar c => .scalar (evalCurve_curve c)

/-- The items of a list that are each emitted exactly. -/
theorem forall₂_map {α : Type} {emit : α → Rust} {Eval : Rust → α → Prop} {good : α → Prop}
    (h : ∀ a, Eval (emit a) a ↔ good a) (as : List α) :
    List.Forall₂ Eval (as.map emit) as ↔ ∀ a ∈ as, good a := by
  rw [List.forall₂_map_left_iff, List.forall₂_same]
  exact forall₂_congr fun a _ => h a

theorem evalStrings (vs : List String) : List.Forall₂ EvalString (vs.map s) vs := by
  rw [List.forall₂_map_left_iff, List.forall₂_same]
  exact fun v _ => .fromStr v

theorem evalBytes (b : Bytes) :
    List.Forall₂ EvalByte (b.map fun byte => .num byte.toNat) b := by
  rw [List.forall₂_map_left_iff, List.forall₂_same]
  exact fun _ _ => .num rfl

theorem evalLiteral_literal : ∀ lit : Literal, EvalLiteral (literal lit) lit
  | .int i => .int (parsed_writeInt i)
  | .bool b => .bool b
  | .bytes b => .bytes (evalBytes b)

theorem evalOpClass_opClass : ∀ cls : OpClass, EvalOpClass (opClass cls) cls
  | .plain name => .plain name
  | .coinCheck name coin recipient => .coinCheck name coin recipient

end Leaves

section Types

mutual

/-- A type is emitted exactly when no part of it is a ledger type or a type
variable. -/
theorem evalType_typeRef : ∀ ty : IrType, EvalType (typeRef ty) ty ↔ ty.plain = true
  | .boolean => iff_of_true .boolean rfl
  | .field ft => iff_of_true (.field (evalFieldType_fieldType ft)) rfl
  | .unsigned maxval => iff_of_true (.unsigned (parsed_writeInt maxval)) rfl
  | .point c => iff_of_true (.point (evalCurve_curve c)) rfl
  | .bytes length => iff_of_true (.bytes length) rfl
  | .opaqueData name => iff_of_true (.opaqueData name) rfl
  | .vector len ty => by
    rw [typeRef, IrType.plain, ← evalType_typeRef ty]
    constructor
    · intro h
      cases h with
      | vector h => exact h
    · exact .vector
  | .tuple types => by
    rw [typeRef, IrType.plain, ← evalTypes_typeRefs types]
    constructor
    · intro h
      cases h with
      | tuple h => exact h
    · exact .tuple
  | .struct name fields => by
    rw [typeRef, IrType.plain, ← evalFields_structFields fields]
    constructor
    · intro h
      cases h with
      | struct h => exact h
    · exact .struct
  | .enum name variants => iff_of_true (.enum (evalStrings variants)) rfl
  | .aliasOf nominal name ty => by
    rw [typeRef, IrType.plain, ← evalType_typeRef ty]
    constructor
    · intro h
      cases h with
      | aliasOf h => exact h
    · exact .aliasOf
  | .contract name circuits => by
    rw [typeRef, IrType.plain, ← evalContractCircuits circuits]
    constructor
    · intro h
      cases h with
      | contract h => exact h
    · exact .contract
  | .adt _ _ => iff_of_false (by rw [typeRef]; intro h; cases h) Bool.false_ne_true
  | .typeVar _ => iff_of_false (by rw [typeRef]; intro h; cases h) Bool.false_ne_true
  | .unknown => iff_of_true .unknown rfl

theorem evalTypes_typeRefs :
    ∀ types : List IrType, List.Forall₂ EvalType (typeRefs types) types ↔ plainEach types = true
  | [] => iff_of_true .nil rfl
  | ty :: types => by
    rw [typeRefs, plainEach, Bool.and_eq_true, List.forall₂_cons, evalType_typeRef ty,
      evalTypes_typeRefs types]

theorem evalFields_structFields :
    ∀ fields : List (String × IrType),
      List.Forall₂ EvalStructField (structFields fields) fields ↔ plainFields fields = true
  | [] => iff_of_true .nil rfl
  | (name, ty) :: fields => by
    have hfield : EvalStructField (.pair (s name) (typeRef ty)) (name, ty) ↔ ty.plain = true := by
      rw [← evalType_typeRef ty]
      constructor
      · intro h
        cases h with
        | mk h => exact h
      · exact .mk
    rw [structFields, plainFields, Bool.and_eq_true, List.forall₂_cons, hfield,
      evalFields_structFields fields]

theorem evalContractCircuit : ∀ c : ContractCircuit,
    EvalContractCircuit (contractCircuit c) c ↔ plainCircuit c = true
  | .mk name pure argumentTypes resultType => by
    rw [contractCircuit, plainCircuit, Bool.and_eq_true, ← evalTypes_typeRefs argumentTypes,
      ← evalType_typeRef resultType]
    constructor
    · intro h
      cases h with
      | mk hargs hresult => exact ⟨hargs, hresult⟩
    · intro h
      rcases h with ⟨hargs, hresult⟩
      exact .mk hargs hresult

theorem evalContractCircuits : ∀ circuits : List ContractCircuit,
    List.Forall₂ EvalContractCircuit (contractCircuits circuits) circuits ↔
      plainCircuits circuits = true
  | [] => iff_of_true .nil rfl
  | c :: circuits => by
    rw [contractCircuits, plainCircuits, Bool.and_eq_true, List.forall₂_cons,
      evalContractCircuit c, evalContractCircuits circuits]

end

end Types

section Expressions

/-- No type of the list holds a ledger type or a type variable. -/
def Plain (types : List IrType) : Prop := ∀ ty ∈ types, ty.plain = true

theorem plain_nil : Plain [] := List.forall_mem_nil _

theorem plain_cons {ty : IrType} {types : List IrType} :
    Plain (ty :: types) ↔ ty.plain = true ∧ Plain types :=
  List.forall_mem_cons

theorem plain_single {ty : IrType} : Plain [ty] ↔ ty.plain = true :=
  List.forall_mem_singleton

theorem plain_append {types types' : List IrType} :
    Plain (types ++ types') ↔ Plain types ∧ Plain types' :=
  List.forall_mem_append

theorem evalArgument_argument : ∀ a : Argument, EvalArgument (argument a) a ↔ a.ty.plain = true
  | ⟨name, ty⟩ => by
    rw [argument, ← evalType_typeRef ty]
    constructor
    · intro h
      cases h with
      | mk h => exact h
    · exact .mk

theorem evalArguments (arguments : List Argument) :
    List.Forall₂ EvalArgument (arguments.map argument) arguments ↔
      Plain (argumentTypes arguments) := by
  rw [forall₂_map evalArgument_argument, Plain, argumentTypes, List.forall_mem_map]

mutual

/-- An expression is emitted exactly when no type that it names holds a ledger type or a
type variable. -/
theorem evalExpr_expr : ∀ e : Expr, EvalExpr (expr e) e ↔ Plain e.types
  | .quote lit => iff_of_true (.quote (evalLiteral_literal lit)) plain_nil
  | .varRef id => iff_of_true (.varRef id) plain_nil
  | .default ty => by
    rw [expr, Expr.types, plain_single, ← evalType_typeRef ty]
    constructor
    · intro h
      cases h with
      | default h => exact h
    · exact .default
  | .ite cond thn els => by
    rw [expr, Expr.types, plain_append, plain_append, ← evalExpr_expr cond, ← evalExpr_expr thn,
      ← evalExpr_expr els]
    constructor
    · intro h
      cases h with
      | ite hcond hthn hels => exact ⟨⟨hcond, hthn⟩, hels⟩
    · intro h
      rcases h with ⟨⟨hcond, hthn⟩, hels⟩
      exact .ite hcond hthn hels
  | .eltRef inner elt index => by
    rw [expr, Expr.types, ← evalExpr_expr inner]
    constructor
    · intro h
      cases h with
      | eltRef h => exact h
    · exact .eltRef
  | .enumRef ty elt => by
    rw [expr, Expr.types, plain_single, ← evalType_typeRef ty]
    constructor
    · intro h
      cases h with
      | enumRef h => exact h
    · exact .enumRef
  | .tuple vector args => by
    rw [expr, Expr.types, ← evalTupleArgs args]
    constructor
    · intro h
      cases h with
      | tuple h => exact h
    · exact .tuple
  | .tupleRef inner index => by
    rw [expr, Expr.types, ← evalExpr_expr inner]
    constructor
    · intro h
      cases h with
      | tupleRef h => exact h
    · exact .tupleRef
  | .tupleSlice ty inner index len => by
    rw [expr, Expr.types, plain_cons, ← evalType_typeRef ty, ← evalExpr_expr inner]
    constructor
    · intro h
      cases h with
      | tupleSlice hty h => exact ⟨hty, h⟩
    · intro h
      rcases h with ⟨hty, h⟩
      exact .tupleSlice hty h
  | .vectorRef ty inner index => by
    rw [expr, indexed, Expr.types, plain_cons, plain_append, ← evalType_typeRef ty,
      ← evalExpr_expr inner, ← evalExpr_expr index]
    constructor
    · intro h
      cases h with
      | vectorRef hty h hindex => exact ⟨hty, h, hindex⟩
    · intro h
      rcases h with ⟨hty, h, hindex⟩
      exact .vectorRef hty h hindex
  | .vectorSlice ty inner index len => by
    rw [expr, sliced, Expr.types, plain_cons, plain_append, ← evalType_typeRef ty,
      ← evalExpr_expr inner, ← evalExpr_expr index]
    constructor
    · intro h
      cases h with
      | vectorSlice hty h hindex => exact ⟨hty, h, hindex⟩
    · intro h
      rcases h with ⟨hty, h, hindex⟩
      exact .vectorSlice hty h hindex
  | .bytesRef ty inner index => by
    rw [expr, indexed, Expr.types, plain_cons, plain_append, ← evalType_typeRef ty,
      ← evalExpr_expr inner, ← evalExpr_expr index]
    constructor
    · intro h
      cases h with
      | bytesRef hty h hindex => exact ⟨hty, h, hindex⟩
    · intro h
      rcases h with ⟨hty, h, hindex⟩
      exact .bytesRef hty h hindex
  | .bytesSlice ty inner index len => by
    rw [expr, sliced, Expr.types, plain_cons, plain_append, ← evalType_typeRef ty,
      ← evalExpr_expr inner, ← evalExpr_expr index]
    constructor
    · intro h
      cases h with
      | bytesSlice hty h hindex => exact ⟨hty, h, hindex⟩
    · intro h
      rcases h with ⟨hty, h, hindex⟩
      exact .bytesSlice hty h hindex
  | .arith op ty left right => by
    rw [expr, typedBinop, Expr.types, plain_cons, plain_append, ← evalType_typeRef ty,
      ← evalExpr_expr left, ← evalExpr_expr right]
    constructor
    · intro h
      cases h with
      | arith hty hleft hright => exact ⟨hty, hleft, hright⟩
    · intro h
      rcases h with ⟨hty, hleft, hright⟩
      exact .arith hty hleft hright
  | .compare op bits left right => by
    rw [expr, Expr.types, plain_append, ← evalExpr_expr left, ← evalExpr_expr right]
    constructor
    · intro h
      cases h with
      | compare hleft hright => exact ⟨hleft, hright⟩
    · intro h
      rcases h with ⟨hleft, hright⟩
      exact .compare hleft hright
  | .equal negated ty left right => by
    rw [expr, typedBinop, Expr.types, plain_cons, plain_append, ← evalType_typeRef ty,
      ← evalExpr_expr left, ← evalExpr_expr right]
    constructor
    · intro h
      cases h with
      | equal hty hleft hright => exact ⟨hty, hleft, hright⟩
    · intro h
      rcases h with ⟨hty, hleft, hright⟩
      exact .equal hty hleft hright
  | .map len fn args => by
    rw [expr, Expr.types, plain_append, ← evalFun_func fn, ← evalMapArgs args]
    constructor
    · intro h
      cases h with
      | map hfn hargs => exact ⟨hfn, hargs⟩
    · intro h
      rcases h with ⟨hfn, hargs⟩
      exact .map hfn hargs
  | .fold len fn init initTy args => by
    rw [expr, Expr.types, plain_append, plain_append, plain_cons, ← evalFun_func fn,
      ← evalExpr_expr init, ← evalType_typeRef initTy, ← evalMapArgs args]
    constructor
    · intro h
      cases h with
      | fold hfn hinit hty hargs => exact ⟨hfn, hinit, hty, hargs⟩
    · intro h
      rcases h with ⟨hfn, hinit, hty, hargs⟩
      exact .fold hfn hinit hty hargs
  | .call name args => by
    rw [expr, Expr.types, ← evalExprs_exprs args]
    constructor
    · intro h
      cases h with
      | call h => exact h
    · exact .call
  | .new ty elements => by
    rw [expr, Expr.types, plain_cons, ← evalType_typeRef ty, ← evalExprs_exprs elements]
    constructor
    · intro h
      cases h with
      | new hty h => exact ⟨hty, h⟩
    · intro h
      rcases h with ⟨hty, h⟩
      exact .new hty h
  | .seq items => by
    rw [expr, Expr.types, ← evalExprs_exprs items]
    constructor
    · intro h
      cases h with
      | seq h => exact h
    · exact .seq
  | .letStar bindings body => by
    rw [expr, Expr.types, plain_append, ← evalBindings bindings, ← evalExpr_expr body]
    constructor
    · intro h
      cases h with
      | letStar h hbody => exact ⟨h, hbody⟩
    · intro h
      rcases h with ⟨h, hbody⟩
      exact .letStar h hbody
  | .assert inner message => by
    rw [expr, Expr.types, ← evalExpr_expr inner]
    constructor
    · intro h
      cases h with
      | assert h => exact h
    · exact .assert
  | .fieldToBytes len ft inner => by
    rw [expr, Expr.types, ← evalExpr_expr inner]
    constructor
    · intro h
      cases h with
      | fieldToBytes _ h => exact h
    · intro h
      exact .fieldToBytes (evalFieldType_fieldType ft) h
  | .castFromBytes ty len inner => by
    rw [expr, Expr.types, plain_cons, ← evalType_typeRef ty, ← evalExpr_expr inner]
    constructor
    · intro h
      cases h with
      | castFromBytes hty h => exact ⟨hty, h⟩
    · intro h
      rcases h with ⟨hty, h⟩
      exact .castFromBytes hty h
  | .vectorToBytes len inner => by
    rw [expr, Expr.types, ← evalExpr_expr inner]
    constructor
    · intro h
      cases h with
      | vectorToBytes h => exact h
    · exact .vectorToBytes
  | .bytesToVector len inner => by
    rw [expr, Expr.types, ← evalExpr_expr inner]
    constructor
    · intro h
      cases h with
      | bytesToVector h => exact h
    · exact .bytesToVector
  | .castBetween kind ty source inner => by
    rw [expr, Expr.types, plain_cons, plain_cons, ← evalType_typeRef ty, ← evalType_typeRef source,
      ← evalExpr_expr inner]
    constructor
    · intro h
      cases h with
      | castBetween hty hsource h => exact ⟨hty, hsource, h⟩
    · intro h
      rcases h with ⟨hty, hsource, h⟩
      exact .castBetween hty hsource h
  | .castToField ft source inner => by
    rw [expr, Expr.types, plain_cons, ← evalType_typeRef source, ← evalExpr_expr inner]
    constructor
    · intro h
      cases h with
      | castToField _ hsource h => exact ⟨hsource, h⟩
    · intro h
      rcases h with ⟨hsource, h⟩
      exact .castToField (evalFieldType_fieldType ft) hsource h
  | .castFromField maxval ft inner => by
    rw [expr, Expr.types, ← evalExpr_expr inner]
    constructor
    · intro h
      cases h with
      | castFromField _ _ h => exact h
    · intro h
      exact .castFromField (parsed_writeInt maxval) (evalFieldType_fieldType ft) h
  | .downcastUnsigned fromMaxval toMaxval inner => by
    rw [expr, Expr.types, ← evalExpr_expr inner]
    constructor
    · intro h
      cases h with
      | downcastUnsigned _ _ h => exact h
    · intro h
      exact .downcastUnsigned (parsed_writeInt fromMaxval) (parsed_writeInt toMaxval) h
  | .contractCall circuit receiver contractType args => by
    rw [expr, Expr.types, plain_append, plain_cons, ← evalExpr_expr receiver,
      ← evalType_typeRef contractType, ← evalExprs_exprs args]
    constructor
    · intro h
      cases h with
      | contractCall h hty hargs => exact ⟨h, hty, hargs⟩
    · intro h
      rcases h with ⟨h, hty, hargs⟩
      exact .contractCall h hty hargs
  | .emit eventVersion eventTag len payload is => by
    rw [expr, Expr.types, plain_append, ← evalExpr_expr payload, ← evalInstructions is]
    constructor
    · intro h
      cases h with
      | emit h his => exact ⟨h, his⟩
    · intro h
      rcases h with ⟨h, his⟩
      exact .emit h his
  | .publicLedger field cls path op resultType is args => by
    rw [expr, Expr.types, plain_append, plain_cons, plain_append, ← evalPath path,
      ← evalType_typeRef resultType, ← evalInstructions is, ← evalExprs_exprs args]
    constructor
    · intro h
      cases h with
      | publicLedger _ hpath hty his hargs => exact ⟨hpath, hty, his, hargs⟩
    · intro h
      rcases h with ⟨hpath, hty, his, hargs⟩
      exact .publicLedger (evalOpClass_opClass cls) hpath hty his hargs
  | .ret inner => by
    rw [expr, Expr.types, ← evalExpr_expr inner]
    constructor
    · intro h
      cases h with
      | ret h => exact h
    · exact .ret

theorem evalExprs_exprs :
    ∀ es : List Expr, List.Forall₂ EvalExpr (exprs es) es ↔ Plain (eachTypes es)
  | [] => iff_of_true .nil plain_nil
  | e :: es => by
    rw [exprs, eachTypes, plain_append, List.forall₂_cons, evalExpr_expr e, evalExprs_exprs es]

theorem evalTupleArg : ∀ a : TupleArg, EvalTupleArg (tupleArg a) a ↔ Plain a.types
  | .single e => by
    rw [tupleArg, TupleArg.types, ← evalExpr_expr e]
    constructor
    · intro h
      cases h with
      | single h => exact h
    · exact .single
  | .spread len e => by
    rw [tupleArg, TupleArg.types, ← evalExpr_expr e]
    constructor
    · intro h
      cases h with
      | spread h => exact h
    · exact .spread

theorem evalTupleArgs :
    ∀ args : List TupleArg,
      List.Forall₂ EvalTupleArg (tupleArgs args) args ↔ Plain (tupleArgsTypes args)
  | [] => iff_of_true .nil plain_nil
  | a :: args => by
    rw [tupleArgs, tupleArgsTypes, plain_append, List.forall₂_cons, evalTupleArg a,
      evalTupleArgs args]

theorem evalMapArg : ∀ a : MapArg, EvalMapArg (mapArg a) a ↔ Plain a.types
  | .mk e ty elementTy => by
    rw [mapArg, MapArg.types, plain_append, plain_cons, plain_single, ← evalExpr_expr e,
      ← evalType_typeRef ty, ← evalType_typeRef elementTy]
    constructor
    · intro h
      cases h with
      | mk h hty helement => exact ⟨h, hty, helement⟩
    · intro h
      rcases h with ⟨h, hty, helement⟩
      exact .mk h hty helement

theorem evalMapArgs :
    ∀ args : List MapArg, List.Forall₂ EvalMapArg (mapArgs args) args ↔ Plain (mapArgsTypes args)
  | [] => iff_of_true .nil plain_nil
  | a :: args => by
    rw [mapArgs, mapArgsTypes, plain_append, List.forall₂_cons, evalMapArg a, evalMapArgs args]

theorem evalFun_func : ∀ fn : Fun, EvalFun (func fn) fn ↔ Plain fn.types
  | .ref id => iff_of_true (.ref id) plain_nil
  | .circuit arguments resultType body => by
    rw [func, Fun.types, plain_append, plain_cons, ← evalArguments arguments,
      ← evalType_typeRef resultType, ← evalExpr_expr body]
    constructor
    · intro h
      cases h with
      | circuit hargs hty hbody => exact ⟨hargs, hty, hbody⟩
    · intro h
      rcases h with ⟨hargs, hty, hbody⟩
      exact .circuit hargs hty hbody

theorem evalBindings :
    ∀ bindings : List (Argument × Expr),
      List.Forall₂ EvalBinding (letBindings bindings) bindings ↔ Plain (bindingsTypes bindings)
  | [] => iff_of_true .nil plain_nil
  | (a, e) :: bindings => by
    have hbinding : EvalBinding (.pair (argument a) (expr e)) (a, e) ↔
        a.ty.plain = true ∧ Plain e.types := by
      rw [← evalArgument_argument a, ← evalExpr_expr e]
      constructor
      · intro h
        cases h with
        | mk harg h => exact ⟨harg, h⟩
      · intro h
        rcases h with ⟨harg, h⟩
        exact .mk harg h
    rw [letBindings, bindingsTypes, plain_cons, plain_append, ← and_assoc, List.forall₂_cons,
      hbinding, evalBindings bindings]

theorem evalPathElement :
    ∀ p : PathElement, EvalPathElement (pathElement p) p ↔ Plain p.types
  | .index i => iff_of_true (.index i) plain_nil
  | .computed ty e => by
    rw [pathElement, PathElement.types, plain_cons, ← evalType_typeRef ty, ← evalExpr_expr e]
    constructor
    · intro h
      cases h with
      | computed hty h => exact ⟨hty, h⟩
    · intro h
      rcases h with ⟨hty, h⟩
      exact .computed hty h

theorem evalPath :
    ∀ path : List PathElement,
      List.Forall₂ EvalPathElement (pathElements path) path ↔ Plain (pathTypes path)
  | [] => iff_of_true .nil plain_nil
  | p :: path => by
    rw [pathElements, pathTypes, plain_append, List.forall₂_cons, evalPathElement p,
      evalPath path]

theorem evalInstruction :
    ∀ i : Instruction, EvalInstruction (instruction i) i ↔ Plain i.types
  | .mk op args => by
    rw [instruction, Instruction.types, ← evalInstructionArgs args]
    constructor
    · intro h
      cases h with
      | mk _ h => exact h
    · intro h
      exact .mk op.ofStr_asStr h

theorem evalInstructions :
    ∀ is : List Instruction,
      List.Forall₂ EvalInstruction (instructions is) is ↔ Plain (instructionsTypes is)
  | [] => iff_of_true .nil plain_nil
  | i :: is => by
    rw [instructions, instructionsTypes, plain_append, List.forall₂_cons, evalInstruction i,
      evalInstructions is]

theorem evalInstructionArgs :
    ∀ args : List (String × Operand),
      List.Forall₂ EvalInstructionArg (instructionArgs args) args ↔
        Plain (instructionArgsTypes args)
  | [] => iff_of_true .nil plain_nil
  | (name, o) :: args => by
    have harg : EvalInstructionArg (.pair (s name) (operand o)) (name, o) ↔ Plain o.types := by
      rw [← evalOperand_operand o]
      constructor
      · intro h
        cases h with
        | mk h => exact h
      · exact .mk
    rw [instructionArgs, instructionArgsTypes, plain_append, List.forall₂_cons, harg,
      evalInstructionArgs args]

theorem evalOperand_operand :
    ∀ o : Operand, EvalOperand (operand o) o ↔ Plain o.types
  | .int i => iff_of_true (.int (parsed_writeInt i)) plain_nil
  | .bool b => iff_of_true (.bool b) plain_nil
  | .str v => iff_of_true (.str v) plain_nil
  | .align value n => iff_of_true (.align (parsed_writeInt value)) plain_nil
  | .stack => iff_of_true .stack plain_nil
  | .void => iff_of_true .void plain_nil
  | .valueToInt x => by
    rw [operand, Operand.types, ← evalOperand_operand x]
    constructor
    · intro h
      cases h with
      | valueToInt h => exact h
    · exact .valueToInt
  | .null ty => by
    rw [operand, Operand.types, plain_single, ← evalType_typeRef ty]
    constructor
    · intro h
      cases h with
      | null h => exact h
    · exact .null
  | .maxSizeof ty => by
    rw [operand, Operand.types, plain_single, ← evalType_typeRef ty]
    constructor
    · intro h
      cases h with
      | maxSizeof h => exact h
    · exact .maxSizeof
  | .add x y => by
    rw [operand, Operand.types, plain_append, ← evalOperand_operand x, ← evalOperand_operand y]
    constructor
    · intro h
      cases h with
      | add hx hy => exact ⟨hx, hy⟩
    · intro h
      rcases h with ⟨hx, hy⟩
      exact .add hx hy
  | .leafHash x => by
    rw [operand, Operand.types, ← evalOperand_operand x]
    constructor
    · intro h
      cases h with
      | leafHash h => exact h
    · exact .leafHash
  | .coinCommit coin recipient => by
    rw [operand, Operand.types, plain_append, ← evalOperand_operand coin,
      ← evalOperand_operand recipient]
    constructor
    · intro h
      cases h with
      | coinCommit hcoin hrecipient => exact ⟨hcoin, hrecipient⟩
    · intro h
      rcases h with ⟨hcoin, hrecipient⟩
      exact .coinCommit hcoin hrecipient
  | .alignedConcat parts => by
    rw [operand, Operand.types, ← evalOperands parts]
    constructor
    · intro h
      cases h with
      | alignedConcat h => exact h
    · exact .alignedConcat
  | .stateValue value => by
    rw [operand, Operand.types, ← evalStateValue value]
    constructor
    · intro h
      cases h with
      | stateValue h => exact h
    · exact .stateValue
  | .expr e => by
    rw [operand, Operand.types, ← evalExpr_expr e]
    constructor
    · intro h
      cases h with
      | expr h => exact h
    · exact .expr
  | .list items => by
    rw [operand, Operand.types, ← evalOperands items]
    constructor
    · intro h
      cases h with
      | list h => exact h
    · exact .list

theorem evalOperands :
    ∀ os : List Operand, List.Forall₂ EvalOperand (operands os) os ↔ Plain (operandsTypes os)
  | [] => iff_of_true .nil plain_nil
  | o :: os => by
    rw [operands, operandsTypes, plain_append, List.forall₂_cons, evalOperand_operand o,
      evalOperands os]

theorem evalStateValue :
    ∀ value : StateValue, EvalStateValue (stateValue value) value ↔ Plain value.types
  | .null => iff_of_true .null plain_nil
  | .cell x => by
    rw [stateValue, StateValue.types, ← evalOperand_operand x]
    constructor
    · intro h
      cases h with
      | cell h => exact h
    · exact .cell
  | .adt x ty => by
    rw [stateValue, StateValue.types, plain_append, plain_single, ← evalOperand_operand x,
      ← evalType_typeRef ty]
    constructor
    · intro h
      cases h with
      | adt h hty => exact ⟨h, hty⟩
    · intro h
      rcases h with ⟨h, hty⟩
      exact .adt h hty
  | .array elements => by
    rw [stateValue, StateValue.types, ← evalOperands elements]
    constructor
    · intro h
      cases h with
      | array h => exact h
    · exact .array
  | .map entries => by
    rw [stateValue, StateValue.types, ← evalEntries entries]
    constructor
    · intro h
      cases h with
      | map h => exact h
    · exact .map
  | .merkleTree depth entries => by
    rw [stateValue, StateValue.types, ← evalEntries entries]
    constructor
    · intro h
      cases h with
      | merkleTree h => exact h
    · exact .merkleTree

theorem evalEntries :
    ∀ entries : List (Operand × Operand),
      List.Forall₂ EvalOperandPair (operandPairs entries) entries ↔ Plain (entriesTypes entries)
  | [] => iff_of_true .nil plain_nil
  | (k, v) :: entries => by
    have hentry : EvalOperandPair (.pair (operand k) (operand v)) (k, v) ↔
        Plain k.types ∧ Plain v.types := by
      rw [← evalOperand_operand k, ← evalOperand_operand v]
      constructor
      · intro h
        cases h with
        | mk hk hv => exact ⟨hk, hv⟩
      · intro h
        rcases h with ⟨hk, hv⟩
        exact .mk hk hv
    rw [operandPairs, entriesTypes, plain_append, plain_append, ← and_assoc, List.forall₂_cons,
      hentry, evalEntries entries]

end

end Expressions

section Programs

/-- Every type that the loaded program names. -/
def ContractInfo.types (info : ContractInfo) : List IrType :=
  info.helpers.flatMap Circuit.types ++ (info.natives.flatMap Native.types ++
    (info.witnesses.flatMap Witness.types ++
      info.runnableConstructor.toList.flatMap Circuit.types))

theorem plain_flatMap {α : Type} (types : α → List IrType) (as : List α) :
    Plain (as.flatMap types) ↔ ∀ a ∈ as, Plain (types a) :=
  List.forall_mem_flatMap

theorem evalCircuit_circuit : ∀ c : Circuit, EvalCircuit (circuit c) c ↔ Plain c.types
  | ⟨name, exported, pure, proof, arguments, resultType, body⟩ => by
    rw [circuit, Circuit.types, plain_append, plain_cons, ← evalArguments arguments,
      ← evalType_typeRef resultType, ← evalExpr_expr body]
    constructor
    · intro h
      cases h with
      | mk hargs hty hbody => exact ⟨hargs, hty, hbody⟩
    · intro h
      rcases h with ⟨hargs, hty, hbody⟩
      exact .mk hargs hty hbody

theorem plain_iff_plainEach : ∀ types : List IrType, Plain types ↔ plainEach types = true
  | [] => iff_of_true plain_nil rfl
  | ty :: types => by
    rw [plain_cons, plainEach, Bool.and_eq_true, plain_iff_plainEach types]

theorem evalNative_native : ∀ n : Native, EvalNative (native n) n ↔ Plain n.types
  | ⟨name, entry, kind, typeArguments, arguments, resultType⟩ => by
    rw [native, Native.types, plain_append, plain_append, plain_single,
      plain_iff_plainEach typeArguments, ← evalTypes_typeRefs typeArguments,
      ← evalArguments arguments, ← evalType_typeRef resultType]
    constructor
    · intro h
      cases h with
      | mk htypes hargs hty => exact ⟨htypes, hargs, hty⟩
    · intro h
      rcases h with ⟨htypes, hargs, hty⟩
      exact .mk htypes hargs hty

theorem evalWitness_witness : ∀ w : Witness, EvalWitness (witness w) w ↔ Plain w.types
  | ⟨name, arguments, resultType⟩ => by
    rw [witness, Witness.types, plain_append, plain_single, ← evalArguments arguments,
      ← evalType_typeRef resultType]
    constructor
    · intro h
      cases h with
      | mk hargs hty => exact ⟨hargs, hty⟩
    · intro h
      rcases h with ⟨hargs, hty⟩
      exact .mk hargs hty

theorem evalVec_map {α : Type} {emit : α → Rust} {Eval : Rust → α → Prop}
    {types : α → List IrType} (h : ∀ a, Eval (emit a) a ↔ Plain (types a)) (as : List α) :
    EvalVec Eval (.vec (as.map emit)) as ↔ Plain (as.flatMap types) := by
  rw [plain_flatMap, ← forall₂_map h]
  constructor
  · intro hv
    cases hv with
    | mk hv => exact hv
  · exact .mk

theorem evalConstructor : ∀ c : Option Circuit,
    Option.Rel EvalCircuit (c.map circuit) c ↔ Plain (c.toList.flatMap Circuit.types)
  | none => iff_of_true .none plain_nil
  | some c => by
    rw [plain_flatMap, Option.toList_some, List.forall_mem_singleton, ← evalCircuit_circuit c]
    constructor
    · intro h
      cases h with
      | some h => exact h
    · exact .some

/-- The bindings' functions return the loaded program whole exactly when none of its
types, those inside bodies and instructions included, holds a ledger type or a type
variable. -/
theorem emitCircuitIrConstants_returns_iff (info : ContractInfo) :
    Returns (emitCircuitIrConstants info) info ↔ Plain info.types := by
  rw [ContractInfo.types, plain_append, plain_append, plain_append,
    ← evalVec_map evalCircuit_circuit, ← evalVec_map evalNative_native,
    ← evalVec_map evalWitness_witness, ← evalConstructor]
  constructor
  · intro h
    rcases h with ⟨hhelpers, hnatives, hwitnesses, hconstructor⟩
    exact ⟨hhelpers, hnatives, hwitnesses, hconstructor⟩
  · intro h
    rcases h with ⟨hhelpers, hnatives, hwitnesses, hconstructor⟩
    exact ⟨hhelpers, hnatives, hwitnesses, hconstructor⟩

end Programs

end MidnightRs.EmitIr
