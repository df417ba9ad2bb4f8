import MidnightRs.Pairs
import MidnightRs.TypeRuns

/-!
Two runs of the interpreter, compared form by form. The witness calls may be
answered in two ways; a congruence that also respects the locals that a program
names, the ledger queries and the calls respects each form, and the run by
induction on the fuel.
-/
namespace MidnightRs.Circuits

open MidnightRs.Compact Triples Pairs

section Pieces

variable {vm : Vm}

def localValue (id : Ident) : Exec vm (Option Value) := do
  let ctx ← get
  pure (ctx.locals id)

def readFound (id : Ident) : Option Value → Exec vm Value
  | some v => pure v
  | none => fail (.undefinedVariable id)

/-- The caller's locals come back after the computation. -/
def enclosed {α : Type} (m : Exec vm α) : Exec vm α := do
  let saved ← get
  let a ← m
  modify (fun ctx => { ctx with locals := saved.locals, localTypes := saved.localTypes })
  pure a

/-- Runs the operations on the contract state. -/
def runQuery (env : Env vm) (ops : List (Op vm.State)) : Exec vm Value := do
  modify (fun ctx => { ctx with gatherOps := ctx.gatherOps ++ ops })
  let ctx ← get
  let (events, state) ← result
    ((vm.query env.callContext ctx.state ops).mapError .ledgerQueryFailed)
  modify (fun ctx => { ctx with
    logs := ctx.logs ++ logsOf events
    state := state
    reads := ctx.reads ++ readsOf events })
  match (readsOf events).getLast? with
  | some av => pure (.alignedValue av)
  | none => pure .void

theorem callCircuit_eq (eval : Expr → Exec vm Value) (params : List Argument) (body : Expr)
    (args : List Value) : callCircuit eval params body args =
      (if params.length ≠ args.length then
        fail (.typeError s!"callee takes {params.length} parameters but got {args.length} arguments")
      else do
        checkParams params
        enclosed (do
          bindLocals (params.zip args)
          eval body)) := by
  simp only [callCircuit, enclosed, bind_assoc]

end Pieces

section Answers

variable {c : Codecs} (crypto : Crypto c) {vm : Vm} (program : Program) (env : Env vm)
  (answer : Ident → List Value → Exec vm Value) (eval : Expr → Exec vm Value)

/-- A call whose witnesses are answered as given. -/
def evalCallWith (name : Ident) (args : List Expr) : Exec vm Value := do
  match program.resultType name with
  | some ty => checkTypeAtRun ty
  | none => pure ()
  let values ← each eval args
  match program.callee name with
  | .circuit c => callCircuit eval c.arguments c.body values
  | .witness => answer name values
  | .pure => evalPureCall crypto program name values

/-- One form, with the witnesses answered as given. -/
def evalNodeWith : Expr → Exec vm Value
  | .call name args => evalCallWith crypto program answer eval name args
  | e => evalNode crypto program env eval e

def evalExprWith : ℕ → Expr → Exec vm Value
  | 0, _ => stop .outOfFuel
  | fuel + 1, e => evalNodeWith crypto program env answer (evalExprWith fuel) e

/-- The interpreter answers the witness calls itself. -/
theorem evalNodeWith_eq (e : Expr) :
    evalNodeWith crypto program env (evalWitnessCall program env) eval e =
      evalNode crypto program env eval e := by
  cases e <;> rfl

theorem evalExprWith_eq (fuel : ℕ) (e : Expr) :
    evalExprWith crypto program env (evalWitnessCall program env) fuel e =
      evalExpr crypto program env fuel e := by
  induction fuel generalizing e with
  | zero => rfl
  | succ fuel ih =>
    have heval : evalExprWith crypto program env (evalWitnessCall program env) fuel =
        evalExpr crypto program env fuel := funext ih
    rw [evalExprWith, heval, evalNodeWith_eq, evalExpr]

end Answers

/-- A congruence that respects what the forms that are covered do to the locals and
the ledger. -/
structure Respects {vm : Vm} (program : Program) (env : Env vm) (covered : Expr → Prop)
    (rel : Relation (ExecContext vm) Halt) : Prop extends Congruence rel where
  parts : ∀ e, covered e → ∀ e' ∈ e.children, covered e'
  local_value : ∀ id, covered (.varRef id) → rel (localValue id) (localValue id)
  infer_here : ∀ e, covered e → rel (inferHere program e) (inferHere program e)
  bind_local : ∀ id v ty, rel (bindLocal id v ty) (bindLocal id v ty)
  scope : ∀ {α : Type} {m m' : Exec vm α}, rel m m' → rel (enclosed m) (enclosed m')
  query : ∀ ops, rel (runQuery env ops) (runQuery env ops)

section Operands

variable {c : Codecs} (crypto : Crypto c) {vm : Vm} {program : Program} {env : Env vm}
  {covered : Expr → Prop} {rel : Relation (ExecContext vm) Halt} (h : Respects program env covered rel)
include h

theorem Respects.of_result {α : Type} (r : Result α) :
    rel (result r : Exec vm α) (result r) :=
  h.of_lift (r.mapError .error)

theorem Respects.of_fail {α : Type} (e : InterpreterError) :
    rel (fail e : Exec vm α) (fail e) :=
  h.error (.error e)

theorem Respects.check (ty : Ty) : rel (checkTypeAtRun ty : Exec vm Unit) (checkTypeAtRun ty) := by
  unfold checkTypeAtRun
  split
  · exact h.of_fail _
  · exact h.value ()

theorem Respects.check_params (params : List Argument) :
    rel (checkParams params : Exec vm Unit) (checkParams params) := by
  induction params with
  | nil => exact h.value ()
  | cons param params ih => exact h.seq (h.check param.ty) (fun _ => ih)

theorem Respects.bind_locals (bindings : List (Argument × Value)) :
    rel (bindLocals bindings : Exec vm Unit) (bindLocals bindings) := by
  induction bindings with
  | nil => exact h.value ()
  | cons binding bindings ih => exact h.seq (h.bind_local _ _ _) (fun _ => ih)

variable (rel) (covered) (eval eval' : Expr → Exec vm Value)

omit h in
/-- The expression is covered, and its evaluations are related. -/
def Related (e : Expr) : Prop := covered e ∧ rel (eval e) (eval' e)

variable {rel covered eval eval'}

set_option linter.unusedSectionVars false in
mutual

theorem rel_operandAligned : ∀ o, (∀ e ∈ alignedExprs o, Related covered rel eval eval' e) →
    rel (operandAligned crypto program eval o) (operandAligned crypto program eval' o)
  | .expr e, hexprs =>
    have he := hexprs e List.mem_cons_self
    h.seq (h.infer_here e he.1) (fun _ => h.seq he.2 (fun _ => h.of_result _))
  | .valueToInt x, hexprs => rel_operandAligned x hexprs
  | .stateValue value, hexprs => rel_stateAligned value hexprs
  | .align _ _, _ => h.of_result _
  | .int _, _ => rel_ite (fun _ => h.value _) (fun _ => h.of_fail _)
  | .bool _, _ => h.value _
  | .null _, _ => h.of_result _
  | .leafHash x, hexprs => h.seq (rel_operandAligned x hexprs) (fun _ => h.value _)
  | .alignedConcat parts, hexprs => h.seq (rel_operandsAligned parts hexprs) (fun _ => h.value _)
  | .str _, _ => h.of_fail _
  | .stack, _ => h.of_fail _
  | .void, _ => h.of_fail _
  | .maxSizeof _, _ => h.of_fail _
  | .add _ _, _ => h.of_fail _
  | .coinCommit _ _, _ => h.of_fail _
  | .list _, _ => h.of_fail _

theorem rel_stateAligned : ∀ value, (∀ e ∈ stateExprs value, Related covered rel eval eval' e) →
    rel (stateAligned crypto program eval value) (stateAligned crypto program eval' value)
  | .cell x, hexprs => rel_operandAligned x hexprs
  | .adt x _, hexprs => rel_operandAligned x hexprs
  | .null, _ => h.of_fail _
  | .array _, _ => h.of_fail _
  | .map _, _ => h.of_fail _
  | .merkleTree _ _, _ => h.of_fail _

theorem rel_operandsAligned :
    ∀ xs, (∀ e ∈ alignedExprsEach xs, Related covered rel eval eval' e) →
    rel (operandsAligned crypto program eval xs) (operandsAligned crypto program eval' xs)
  | [], _ => h.value _
  | x :: xs, hexprs => by
    obtain ⟨hx, hxs⟩ := List.forall_mem_append.mp hexprs
    exact h.seq (rel_operandAligned x hx) (fun _ =>
      h.seq (rel_operandsAligned xs hxs) (fun _ => h.value _))

end

theorem rel_pushScalar {o : Operand} (hexprs : ∀ e ∈ alignedExprs o, Related covered rel eval eval' e) :
    rel (pushScalar crypto program eval o) (pushScalar crypto program eval' o) := by
  unfold pushScalar
  split
  · exact h.value _
  · exact h.value _
  · exact h.seq (rel_operandAligned crypto h o hexprs) (fun _ => h.value _)

theorem rel_pushAdt {x : Operand} {ty : NamedTy}
    (hexprs : ∀ e ∈ pushedAdt x ty, Related covered rel eval eval' e) :
    rel (pushAdt crypto program eval x ty) (pushAdt crypto program eval' x ty) := by
  unfold pushAdt
  split
  · exact rel_ite (fun _ => h.value _) (fun _ => h.of_fail _)
  · rename_i hne
    refine rel_pushScalar crypto h ?_
    unfold pushedAdt at hexprs
    split at hexprs
    · rename_i d name args
      exact absurd rfl (hne d name args rfl)
    · exact hexprs

set_option linter.unusedSectionVars false in
mutual

theorem rel_pushValue : ∀ o, (∀ e ∈ pushedExprs o, Related covered rel eval eval' e) →
    rel (pushValue crypto program eval o) (pushValue crypto program eval' o)
  | .stateValue value, hexprs => rel_pushStateValue value hexprs
  | .expr _, hexprs => rel_pushScalar crypto h hexprs
  | .valueToInt _, hexprs => rel_pushScalar crypto h hexprs
  | .align _ _, hexprs => rel_pushScalar crypto h hexprs
  | .int _, hexprs => rel_pushScalar crypto h hexprs
  | .bool _, hexprs => rel_pushScalar crypto h hexprs
  | .null _, hexprs => rel_pushScalar crypto h hexprs
  | .leafHash _, hexprs => rel_pushScalar crypto h hexprs
  | .alignedConcat _, hexprs => rel_pushScalar crypto h hexprs
  | .str _, hexprs => rel_pushScalar crypto h hexprs
  | .stack, hexprs => rel_pushScalar crypto h hexprs
  | .void, hexprs => rel_pushScalar crypto h hexprs
  | .maxSizeof _, hexprs => rel_pushScalar crypto h hexprs
  | .add _ _, hexprs => rel_pushScalar crypto h hexprs
  | .coinCommit _ _, hexprs => rel_pushScalar crypto h hexprs
  | .list _, hexprs => rel_pushScalar crypto h hexprs

theorem rel_pushStateValue :
    ∀ value, (∀ e ∈ pushedState value, Related covered rel eval eval' e) →
    rel (pushStateValue crypto program eval value) (pushStateValue crypto program eval' value)
  | .array elements, hexprs => h.seq (rel_pushElements elements hexprs) (fun _ => h.value _)
  | .map entries, hexprs => h.seq (rel_pushEntries entries hexprs) (fun _ => h.value _)
  | .merkleTree _ _, _ =>
    rel_ite (fun _ => h.of_fail _) (fun _ => rel_ite (fun _ => h.value _) (fun _ => h.of_fail _))
  | .adt _ _, hexprs => rel_pushAdt crypto h hexprs
  | .cell x, hexprs => rel_pushScalar (o := .stateValue (.cell x)) crypto h hexprs
  | .null, hexprs => rel_pushScalar (o := .stateValue .null) crypto h hexprs

theorem rel_pushElements :
    ∀ xs, (∀ e ∈ pushedExprsEach xs, Related covered rel eval eval' e) →
    rel (pushElements crypto program eval xs) (pushElements crypto program eval' xs)
  | [], _ => h.value _
  | x :: xs, hexprs => by
    obtain ⟨hx, hxs⟩ := List.forall_mem_append.mp hexprs
    exact h.seq (rel_pushValue x hx) (fun _ => h.seq (rel_pushElements xs hxs) (fun _ => h.value _))

theorem rel_pushEntries :
    ∀ entries, (∀ e ∈ pushedEntries entries, Related covered rel eval eval' e) →
    rel (pushEntries crypto program eval entries) (pushEntries crypto program eval' entries)
  | [], _ => h.value _
  | (k, v) :: entries, hexprs => by
    obtain ⟨hkv, hentries⟩ := List.forall_mem_append.mp hexprs
    obtain ⟨hk, hv⟩ := List.forall_mem_append.mp hkv
    exact h.seq (rel_operandAligned crypto h k hk) (fun _ => h.seq (rel_pushValue v hv) (fun _ =>
      h.seq (rel_pushEntries entries hentries) (fun _ => h.value _)))

end

theorem rel_pathKey {o : Operand} (hexprs : ∀ e ∈ alignedExprs o, Related covered rel eval eval' e) :
    rel (pathKey crypto program eval o) (pathKey crypto program eval' o) := by
  unfold pathKey
  split
  · exact h.value _
  · exact h.seq (rel_operandAligned crypto h _ hexprs) (fun _ => h.value _)
  · exact h.seq (rel_operandAligned crypto h _ hexprs) (fun _ => h.value _)
  · exact h.of_fail _

theorem rel_resolveImmediate {o : Operand} (op : OpName)
    (hexprs : ∀ e ∈ alignedExprs o, Related covered rel eval eval' e) :
    rel (resolveImmediate eval op o) (resolveImmediate eval' op o) := by
  unfold resolveImmediate
  split
  · exact rel_ite (fun _ => h.value _) (fun _ => h.of_fail _)
  · rename_i e he
    exact h.seq (hexprs e (reduceOperand_expr o he)).2 (fun _ => h.of_result _)
  · exact h.of_fail _

/-- An operand that is there is the one that is used. -/
theorem rel_operand {α : Type} (i : Instruction) (name : String) {f f' : Operand → Exec vm α}
    (hf : ∀ o, i.arg name = some o → rel (f o) (f' o)) :
    rel (result (operand i name) >>= f) (result (operand i name) >>= f') := by
  unfold operand
  cases ho : i.arg name with
  | none => exact h.of_fail _
  | some o => exact hf o ho

theorem rel_buildOp {i : Instruction}
    (hexprs : ∀ e ∈ instructionExprs i, Related covered rel eval eval' e) :
    rel (buildOp crypto program eval i) (buildOp crypto program eval' i) := by
  cases i with
  | mk op args =>
    have hoperand : ∀ {name o} {f : Operand → List Expr},
        (∀ e ∈ ((Instruction.mk op args).arg name).toList.flatMap f,
          Related covered rel eval eval' e) →
        (Instruction.mk op args).arg name = some o → ∀ e ∈ f o, Related covered rel eval eval' e :=
      fun hall ho e he => hall e (List.mem_flatMap.mpr ⟨_, Option.mem_toList.mpr ho, he⟩)
    have himmediate : (∀ e ∈ ((Instruction.mk op args).arg "immediate").toList.flatMap alignedExprs,
        Related covered rel eval eval' e) → ∀ f : ℕ → Op vm.State, rel (do
          let o ← result (operand (.mk op args) "immediate")
          let n ← resolveImmediate eval op o
          pure (f n) : Exec vm (Op vm.State)) (do
          let o ← result (operand (.mk op args) "immediate")
          let n ← resolveImmediate eval' op o
          pure (f n)) :=
      fun hall f => rel_operand h _ _ (fun o ho =>
        h.seq (rel_resolveImmediate h op (hoperand hall ho)) (fun _ => h.value _))
    cases op with
    | idx =>
      unfold buildOp
      dsimp only [Instruction.op]
      split
      · rename_i path hpath
        refine h.seq (h.each path (fun o ho => ?_)) (fun _ => h.value _)
        refine rel_pathKey crypto h (fun e he => hexprs e ?_)
        simp only [instructionExprs, Instruction.op, hpath]
        exact List.mem_flatMap.mpr ⟨o, ho, he⟩
      · exact h.of_fail _
    | push =>
      exact rel_operand h _ _ (fun o ho =>
        h.seq (rel_pushValue crypto h o (hoperand hexprs ho)) (fun _ => h.value _))
    | addi => exact himmediate hexprs .addi
    | subi => exact himmediate hexprs .subi
    | ins => exact h.seq (h.of_result _) (fun _ => h.value _)
    | noop => exact h.seq (h.of_result _) (fun _ => h.value _)
    | branch => exact h.seq (h.of_result _) (fun _ => h.value _)
    | jmp => exact h.seq (h.of_result _) (fun _ => h.value _)
    | concat => exact h.seq (h.of_result _) (fun _ => h.value _)
    | and => exact h.of_fail _
    | new => exact h.of_fail _
    | or => exact h.of_fail _
    | sub => exact h.of_fail _
    | unknown name => exact h.of_fail _
    | _ => exact h.value _

theorem rel_execLedgerQuery {instructions : List Instruction}
    (hexprs : ∀ e ∈ instructions.flatMap instructionExprs, Related covered rel eval eval' e) :
    rel (execLedgerQuery crypto program eval env instructions)
      (execLedgerQuery crypto program eval' env instructions) :=
  h.seq (h.each instructions (fun i hi => rel_buildOp crypto h
    (fun e he => hexprs e (List.mem_flatMap.mpr ⟨i, hi, he⟩)))) (fun ops => h.query ops)

end Operands

section Steps

variable {c : Codecs} (crypto : Crypto c) {vm : Vm} {program : Program} {env : Env vm}
  {covered : Expr → Prop} {rel : Relation (ExecContext vm) Halt} (h : Respects program env covered rel)
  {eval eval' : Expr → Exec vm Value}
include h

theorem rel_evalSeq {es : List Expr} (hes : ∀ e ∈ es, Related covered rel eval eval' e) :
    ∀ v, rel (evalSeq eval v es) (evalSeq eval' v es) := by
  induction es with
  | nil => exact fun v => h.value v
  | cons e es ih =>
    obtain ⟨he, hes⟩ := List.forall_mem_cons.mp hes
    exact fun _ => h.seq he.2 (fun v => ih hes v)

theorem rel_callCircuit {params : List Argument} {body : Expr} (args : List Value)
    (hbody : rel (eval body) (eval' body)) :
    rel (callCircuit eval params body args) (callCircuit eval' params body args) := by
  rw [callCircuit_eq, callCircuit_eq]
  refine rel_ite (fun _ => h.of_fail _) (fun _ => ?_)
  exact h.seq (h.check_params params) (fun _ =>
    h.scope (h.seq (h.bind_locals (params.zip args)) (fun _ => hbody)))

theorem rel_evalAsInteger {e : Expr} (he : Related covered rel eval eval' e) :
    rel (evalAsInteger eval e) (evalAsInteger eval' e) :=
  h.seq he.2 (fun _ => h.of_result _)

theorem rel_evalIndex {e : Expr} (he : Related covered rel eval eval' e) (what : String) :
    rel (evalIndex eval e what) (evalIndex eval' e what) :=
  h.seq (rel_evalAsInteger h he) (fun _ => h.of_result _)

theorem rel_evalMapArgs {args : List MapArg}
    (hargs : ∀ e ∈ args.map MapArg.expr, Related covered rel eval eval' e) :
    rel (each (evalMapArg eval) args) (each (evalMapArg eval') args) :=
  h.each args (fun a ha => h.seq (hargs a.expr (List.mem_map_of_mem ha)).2 (fun _ => h.value _))

theorem rel_evalTupleArg {a : TupleArg} (ha : Related covered rel eval eval' a.expr) :
    rel (evalTupleArg program eval a) (evalTupleArg program eval' a) := by
  cases a with
  | single e => exact h.seq ha.2 (fun _ => h.value _)
  | spread len e =>
    exact h.seq (h.of_result _) (fun _ => h.seq (h.infer_here e ha.1) (fun _ =>
      h.seq ha.2 (fun _ => h.of_result _)))

theorem rel_evalBindings {bindings : List (Argument × Expr)}
    (hvalues : ∀ b ∈ bindings, Related covered rel eval eval' b.2) :
    rel (evalBindings program eval bindings) (evalBindings program eval' bindings) := by
  induction bindings with
  | nil => exact h.value ()
  | cons binding bindings ih =>
    obtain ⟨hvalue, hvalues⟩ := List.forall_mem_cons.mp hvalues
    exact h.seq (h.infer_here _ hvalue.1) (fun _ => h.seq hvalue.2 (fun _ =>
      h.seq (h.bind_local _ _ _) (fun _ => ih hvalues)))

theorem rel_evalNew {elements : List Expr}
    (helements : ∀ e ∈ elements, Related covered rel eval eval' e) (ty : Ty) :
    rel (evalNew (c := c) eval ty elements) (evalNew (c := c) eval' ty elements) := by
  refine h.seq (h.check ty) (fun _ => ?_)
  split
  · refine rel_ite (fun _ => h.of_fail _) (fun _ => ?_)
    exact h.seq (h.each elements (fun e he => (helements e he).2)) (fun _ => h.of_result _)
  · exact h.of_fail _

theorem rel_evalCastToField {e : Expr} (he : Related covered rel eval eval' e)
    (fieldType : FieldType) (source : Ty) :
    rel (evalCastToField crypto eval fieldType source e)
      (evalCastToField crypto eval' fieldType source e) := by
  refine h.seq (h.check source) (fun _ => h.seq (h.of_result _) (fun _ => ?_))
  have hrest : rel (do
      let v ← eval e
      result (evalCast crypto.elements v source (.field .native)) : Exec vm Value) (do
      let v ← eval' e
      result (evalCast crypto.elements v source (.field .native))) :=
    h.seq he.2 (fun _ => h.of_result _)
  split
  · exact h.seq (h.of_result _) (fun _ => hrest)
  · exact hrest

theorem rel_evalPureCall (id : Ident) (values : List Value) :
    rel (evalPureCall crypto program id values : Exec vm Value)
      (evalPureCall crypto program id values) := by
  unfold evalPureCall
  split
  · exact h.of_result _
  · exact h.of_fail _

variable (hprogram : ∀ circuit ∈ program.circuits, covered circuit.body)
  (heval : ∀ e, covered e → rel (eval e) (eval' e))
include hprogram heval

theorem rel_applyFun {fn : Fun} (hfn : ∀ e ∈ fn.bodies, Related covered rel eval eval' e)
    (args : List Value) :
    rel (applyFun program eval fn args) (applyFun program eval' fn args) := by
  cases fn with
  | ref id =>
    unfold applyFun
    dsimp only
    split
    · rename_i circuit hcircuit
      exact rel_callCircuit h args (heval _ (hprogram circuit (lookupLast_mem hcircuit)))
    · exact h.of_fail _
  | circuit arguments resultType body =>
    exact rel_callCircuit h args (hfn body List.mem_cons_self).2

theorem rel_mapLoop {fn : Fun} (hfn : ∀ e ∈ fn.bodies, Related covered rel eval eval' e)
    (args : List (Value × MapArg)) (n : ℕ) :
    ∀ i, rel (mapLoop program eval fn args i n) (mapLoop program eval' fn args i n) := by
  induction n with
  | zero => exact fun _ => h.value _
  | succ n ih =>
    exact fun i => h.seq (h.of_result _) (fun callArgs =>
      h.seq (rel_applyFun h hprogram heval hfn callArgs) (fun _ =>
        h.seq (ih (i + 1)) (fun _ => h.value _)))

theorem rel_foldLoop {fn : Fun} (hfn : ∀ e ∈ fn.bodies, Related covered rel eval eval' e)
    (args : List (Value × MapArg)) (n : ℕ) :
    ∀ i acc, rel (foldLoop program eval fn args i n acc) (foldLoop program eval' fn args i n acc) := by
  induction n with
  | zero => exact fun _ acc => h.value acc
  | succ n ih =>
    exact fun i acc => h.seq (h.of_result _) (fun callArgs =>
      h.seq (rel_applyFun h hprogram heval hfn (acc :: callArgs)) (fun acc' => ih (i + 1) acc'))

variable {answer answer' : Ident → List Value → Exec vm Value}
  (hanswer : ∀ id values, rel (answer id values) (answer' id values))
include hanswer

theorem rel_evalCallWith (name : Ident) {args : List Expr}
    (hargs : ∀ e ∈ args, Related covered rel eval eval' e) :
    rel (evalCallWith crypto program answer eval name args)
      (evalCallWith crypto program answer' eval' name args) := by
  have hcall : rel (do
      let values ← each eval args
      match program.callee name with
      | .circuit c => callCircuit eval c.arguments c.body values
      | .witness => answer name values
      | .pure => evalPureCall crypto program name values : Exec vm Value) (do
      let values ← each eval' args
      match program.callee name with
      | .circuit c => callCircuit eval' c.arguments c.body values
      | .witness => answer' name values
      | .pure => evalPureCall crypto program name values) := by
    refine h.seq (h.each args (fun e he => (hargs e he).2)) (fun values => ?_)
    split
    · rename_i circuit hcallee
      exact rel_callCircuit h values (heval _ (hprogram circuit (callee_mem hcallee)))
    · exact hanswer name values
    · exact rel_evalPureCall crypto h name values
  unfold evalCallWith
  cases program.resultType name with
  | none => exact hcall
  | some ty => exact h.seq (h.check ty) (fun _ => hcall)

/-- One form is respected, if its parts are. -/
theorem rel_evalNodeWith {e : Expr} (he : covered e) :
    rel (evalNodeWith crypto program env answer eval e)
      (evalNodeWith crypto program env answer' eval' e) := by
  have hparts : ∀ e' ∈ e.children, Related covered rel eval eval' e' :=
    fun e' he' => ⟨h.parts e he e' he', heval e' (h.parts e he e' he')⟩
  cases e with
  | quote literal => exact h.of_result _
  | varRef id =>
    have hread : rel (localValue id >>= readFound id) (localValue id >>= readFound id) := by
      refine h.seq (h.local_value id he) (fun v => ?_)
      cases v with
      | none => exact h.of_fail _
      | some v => exact h.value v
    exact hread
  | default ty => exact h.seq (h.check _) (fun _ => h.of_result _)
  | ite cond thn els =>
    refine h.seq (hparts cond (by simp [Expr.children])).2 (fun b => ?_)
    exact rel_ite (fun _ => (hparts thn (by simp [Expr.children])).2)
      (fun _ => (hparts els (by simp [Expr.children])).2)
  | eltRef e elt index =>
    have he := hparts e List.mem_cons_self
    exact h.seq (h.infer_here e he.1) (fun _ => h.seq he.2 (fun _ => h.of_result _))
  | enumRef ty elt => exact h.seq (h.check ty) (fun _ => h.of_result _)
  | tuple vector args =>
    refine h.seq (h.each args (fun a ha => ?_))
      (fun _ => rel_ite (fun _ => h.value _) (fun _ => h.value _))
    exact rel_evalTupleArg h (hparts a.expr (List.mem_map_of_mem ha))
  | tupleRef e index =>
    have he := hparts e List.mem_cons_self
    exact h.seq (h.of_result _) (fun _ => h.seq (h.infer_here e he.1) (fun _ =>
      h.seq he.2 (fun _ => h.of_result _)))
  | tupleSlice ty e index len =>
    exact h.seq (h.check ty) (fun _ => h.seq (hparts e List.mem_cons_self).2 (fun _ =>
      h.seq (h.of_result _) (fun _ => h.seq (h.of_result _) (fun _ => h.of_result _))))
  | vectorRef ty e index =>
    exact h.seq (hparts e List.mem_cons_self).2 (fun _ =>
      h.seq (rel_evalIndex h (hparts index (by simp [Expr.children])) _) (fun _ => h.of_result _))
  | vectorSlice ty e index len =>
    exact h.seq (h.check ty) (fun _ => h.seq (hparts e List.mem_cons_self).2 (fun _ =>
      h.seq (rel_evalIndex h (hparts index (by simp [Expr.children])) _) (fun _ =>
        h.seq (h.of_result _) (fun _ => h.of_result _))))
  | bytesRef ty e index =>
    exact h.seq (h.check ty) (fun _ => h.seq (hparts e List.mem_cons_self).2 (fun _ =>
      h.seq (rel_evalIndex h (hparts index (by simp [Expr.children])) _) (fun _ => h.of_result _)))
  | bytesSlice ty e index len =>
    exact h.seq (h.check ty) (fun _ => h.seq (hparts e List.mem_cons_self).2 (fun _ =>
      h.seq (rel_evalIndex h (hparts index (by simp [Expr.children])) _) (fun _ => h.of_result _)))
  | arith op ty left right =>
    exact h.seq (h.check ty) (fun _ => h.seq (hparts left List.mem_cons_self).2 (fun _ =>
      h.seq (hparts right (by simp [Expr.children])).2 (fun _ => h.of_result _)))
  | compare op bits left right =>
    exact h.seq (rel_evalAsInteger h (hparts left List.mem_cons_self)) (fun _ =>
      h.seq (rel_evalAsInteger h (hparts right (by simp [Expr.children]))) (fun _ => h.value _))
  | equal negated ty left right =>
    exact h.seq (hparts left List.mem_cons_self).2 (fun _ =>
      h.seq (hparts right (by simp [Expr.children])).2 (fun _ =>
        h.seq (h.of_result _) (fun _ => h.value _)))
  | map len fn args =>
    obtain ⟨hbodies, hargs⟩ := List.forall_mem_append.mp hparts
    exact h.seq (rel_evalMapArgs h hargs) (fun values => h.seq (h.of_result _) (fun n =>
      h.seq (rel_mapLoop h hprogram heval hbodies values n 0) (fun _ => h.value _)))
  | fold len fn init initTy args =>
    obtain ⟨hinit, hrest⟩ := List.forall_mem_cons.mp hparts
    obtain ⟨hbodies, hargs⟩ := List.forall_mem_append.mp hrest
    exact h.seq hinit.2 (fun acc => h.seq (rel_evalMapArgs h hargs) (fun values =>
      h.seq (h.of_result _) (fun n => rel_foldLoop h hprogram heval hbodies values n 0 acc)))
  | call name args => exact rel_evalCallWith crypto h hprogram heval hanswer name hparts
  | new ty elements => exact rel_evalNew h hparts ty
  | seq items => exact rel_evalSeq h hparts .void
  | letStar bindings body =>
    obtain ⟨hbody, hvalues⟩ := List.forall_mem_cons.mp hparts
    exact h.seq (rel_evalBindings h (List.forall_mem_map.mp hvalues)) (fun _ => hbody.2)
  | assert e message =>
    exact h.seq (hparts e List.mem_cons_self).2 (fun _ =>
      rel_ite (fun _ => h.value _) (fun _ => h.of_fail _))
  | fieldToBytes len fieldType e =>
    exact h.seq (hparts e List.mem_cons_self).2 (fun _ => h.of_result _)
  | castFromBytes ty len e =>
    exact h.seq (h.check ty) (fun _ => h.seq (hparts e List.mem_cons_self).2
      (fun _ => h.of_result _))
  | vectorToBytes len e =>
    exact h.seq (hparts e List.mem_cons_self).2 (fun _ => h.seq (h.of_result _) (fun _ =>
      h.seq (h.of_result _) (fun _ => h.of_result _)))
  | bytesToVector len e =>
    exact h.seq (hparts e List.mem_cons_self).2 (fun _ =>
      h.seq (h.of_result _) (fun _ => h.value _))
  | castBetween kind ty source e =>
    exact h.seq (h.check ty) (fun _ => h.seq (h.check source) (fun _ =>
      h.seq (hparts e List.mem_cons_self).2 (fun _ => h.of_result _)))
  | castToField fieldType source e =>
    exact rel_evalCastToField crypto h (hparts e List.mem_cons_self) fieldType source
  | castFromField maxval fieldType e =>
    exact h.seq (h.of_result _) (fun _ => h.seq (hparts e List.mem_cons_self).2
      (fun _ => h.of_result _))
  | downcastUnsigned m n e =>
    exact h.seq (hparts e List.mem_cons_self).2 (fun _ => h.of_result _)
  | contractCall circuit receiver contractType args =>
    exact h.seq (h.check _) (fun _ => h.of_fail _)
  | emit version tag len payload instructions =>
    exact h.seq (rel_execLedgerQuery crypto h hparts) (fun _ => h.value _)
  | publicLedger field opClass path op resultType instructions args =>
    exact h.seq (h.check resultType) (fun _ =>
      rel_ite (fun _ => h.of_fail _) (fun _ => rel_execLedgerQuery crypto h hparts))
  | ret e => exact (hparts e List.mem_cons_self).2

end Steps

section Runs

variable {c : Codecs} (crypto : Crypto c) {vm : Vm} {program : Program} {env : Env vm}
  {covered : Expr → Prop} {rel : Relation (ExecContext vm) Halt} (h : Respects program env covered rel)
  (hprogram : ∀ circuit ∈ program.circuits, covered circuit.body) {answer answer' : Ident → List Value → Exec vm Value}
  (hanswer : ∀ id values, rel (answer id values) (answer' id values))
include h hprogram hanswer

/-- The runs of an expression are related, at any fuel. -/
theorem rel_evalExprWith (fuel : ℕ) : ∀ e, covered e →
    rel (evalExprWith crypto program env answer fuel e)
      (evalExprWith crypto program env answer' fuel e) := by
  induction fuel with
  | zero => exact fun _ _ => h.error .outOfFuel
  | succ fuel ih => exact fun e he => rel_evalNodeWith crypto h hprogram ih hanswer he

end Runs

section Fuel

variable {vm : Vm} (program : Program) (env : Env vm)

theorem approximates_respects :
    Respects program env (fun _ => True) (Approximates Halt.outOfFuel) where
  toCongruence := approximates_congruence
  parts _ _ _ _ := trivial
  local_value _ _ := approximates_refl _
  infer_here _ _ := approximates_refl _
  bind_local _ _ _ := approximates_refl _
  scope hm := approximates_congruence.seq (approximates_refl _) (fun _ =>
    approximates_congruence.seq hm (fun _ => approximates_refl _))
  query _ := approximates_refl _

/-- A run with answers that another run's extend is extended by it. -/
theorem approximates_evalExprWith {c : Codecs} (crypto : Crypto c)
    {answer answer' : Ident → List Value → Exec vm Value}
    (hanswer : ∀ id values, Approximates Halt.outOfFuel (answer id values) (answer' id values))
    (fuel : ℕ) (e : Expr) :
    Approximates Halt.outOfFuel (evalExprWith crypto program env answer fuel e)
      (evalExprWith crypto program env answer' fuel e) :=
  rel_evalExprWith crypto (approximates_respects program env) (fun _ _ => trivial) hanswer fuel e
    trivial

end Fuel

end MidnightRs.Circuits
