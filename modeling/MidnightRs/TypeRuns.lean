import MidnightRs.TypeChecks

/-!
A run of a program whose forms name types of values refuses no type. Inference only
finds such types, the locals keep them, and each step of the evaluator passes the
property on from its parts; the run follows by induction on the fuel.
-/
namespace MidnightRs.Circuits

open MidnightRs.Compact Triples

section Inference

/-- A program whose declarations name types of values. -/
structure ProgramSound (program : Program) : Prop where
  arguments : ∀ c ∈ program.circuits, ∀ a ∈ c.arguments, Executable a.ty
  results : ∀ c ∈ program.circuits, Executable c.resultType
  bodies : ∀ c ∈ program.circuits, Everywhere NamesValues c.body
  nativeArguments : ∀ n ∈ program.natives, ∀ a ∈ n.arguments, Executable a.ty
  nativeResults : ∀ n ∈ program.natives, Executable n.resultType
  witnessResults : ∀ w ∈ program.witnesses, Executable w.resultType

def TypesSound (types : Ident → Option Ty) : Prop := ∀ id ty, types id = some ty → Executable ty

theorem lookupLast_mem {α : Type} {name : α → String} {xs : List α} {key : String} {x : α}
    (h : lookupLast name xs key = some x) : x ∈ xs :=
  List.mem_reverse.mp (List.mem_of_find?_eq_some h)

variable {program : Program}

theorem callee_mem {id : Ident} {circuit : Circuit} (h : program.callee id = .circuit circuit) :
    circuit ∈ program.circuits := by
  unfold Program.callee at h
  split at h
  · rename_i c' hdecl
    cases h
    unfold Program.declaration at hdecl
    split at hdecl
    · rename_i c'' hc
      cases hdecl
      exact lookupLast_mem hc
    · split at hdecl
      · cases hdecl
      · obtain ⟨w, -, hw⟩ := Option.map_eq_some_iff.mp hdecl
        cases hw
  · split at h
    · cases h
    · cases h
  · cases h
  · cases h

variable (hprogram : ProgramSound program)
include hprogram

theorem resultType_executable {id : Ident} {ty : Ty} (h : program.resultType id = some ty) :
    Executable ty := by
  unfold Program.resultType at h
  obtain ⟨decl, hdecl, rfl⟩ := Option.map_eq_some_iff.mp h
  unfold Program.declaration at hdecl
  split at hdecl
  · rename_i c hc
    cases hdecl
    exact hprogram.results c (lookupLast_mem hc)
  · split at hdecl
    · rename_i n hn
      cases hdecl
      exact hprogram.nativeResults n (lookupLast_mem hn)
    · obtain ⟨w, hw, rfl⟩ := Option.map_eq_some_iff.mp hdecl
      exact hprogram.witnessResults w (lookupLast_mem hw)

theorem argumentTypes_executable (id : Ident) :
    ∀ ty ∈ program.argumentTypes id, Executable ty := by
  unfold Program.argumentTypes
  split
  · rename_i n hn
    refine List.forall_mem_map.mpr (hprogram.nativeArguments n ?_)
    unfold Program.declaration at hn
    split at hn
    · cases hn
    · split at hn
      · rename_i n' hn'
        cases hn
        exact lookupLast_mem hn'
      · obtain ⟨w, _, hw⟩ := Option.map_eq_some_iff.mp hn
        cases hw
  · exact List.forall_mem_nil _

omit hprogram

theorem elementTypeFrom_executable {ty : Ty} {i : Option ℕ} {t : Ty} (hty : Executable ty)
    (h : elementTypeFrom ty i = some t) : Executable t := by
  have hresolved := executable_resolved hty
  unfold elementTypeFrom at h
  split at h
  · rename_i heq
    cases h
    rw [heq] at hresolved
    exact hresolved
  · rename_i types heq
    obtain ⟨n, -, hn⟩ := Option.bind_eq_some_iff.mp h
    rw [heq] at hresolved
    exact allExecutable_iff.mp hresolved t (List.mem_of_getElem? hn)
  · cases h

theorem sliceResultType_executable {ty : Ty} {start : Option ℕ} {len : ℕ} {t : Ty}
    (hty : Executable ty) (h : sliceResultType ty start len = some t) : Executable t := by
  have hresolved := executable_resolved hty
  unfold sliceResultType at h
  split at h
  · rename_i heq
    cases h
    rw [heq] at hresolved
    exact hresolved
  · rename_i types heq
    obtain ⟨start, -, h⟩ := Option.bind_eq_some_iff.mp h
    obtain ⟨len, -, h⟩ := Option.bind_eq_some_iff.mp h
    obtain ⟨stop, -, h⟩ := Option.bind_eq_some_iff.mp h
    split at h
    · cases h
      rw [heq] at hresolved
      exact allExecutable_iff.mpr (fun ty' hty' =>
        allExecutable_iff.mp hresolved ty' (List.mem_of_mem_take (List.mem_of_mem_drop hty')))
    · cases h
  · cases h

theorem structField_executable {ty : Ty} {elt : String} {t : Ty} (hty : Executable ty)
    (h : structField ty elt = some t) : Executable t := by
  have hresolved := executable_resolved hty
  unfold structField at h
  split at h
  · rename_i heq
    rw [heq] at hresolved
    obtain ⟨_, _, hfields, -⟩ := List.lookup_eq_some_iff.mp h
    refine fieldsExecutable_iff.mp hresolved (elt, t) ?_
    rw [hfields]
    exact List.mem_append_right _ List.mem_cons_self
  · cases h

theorem spreadTypes_executable {ty : Ty} {len : ℕ} {types : List Ty} (hty : Executable ty)
    (h : spreadTypes ty len = some types) : ∀ t ∈ types, Executable t := by
  unfold spreadTypes at h
  split at h
  · split at h
    · cases h
      exact allExecutable_iff.mp hty
    · cases h
  · split at h
    · obtain ⟨n, -, rfl⟩ := Option.map_eq_some_iff.mp h
      exact fun t ht => List.eq_of_mem_replicate ht ▸ hty
    · cases h
  · cases h

variable {types : Ident → Option Ty}

theorem inferLast_executable {es : List Expr}
    (h : ∀ e ∈ es, ∀ t, infer program types e = some t → Executable t) :
    ∀ t, inferLast program types es = some t → Executable t := by
  induction es with
  | nil => exact fun t ht => by cases ht
  | cons e es ih =>
    obtain ⟨he, hes⟩ := List.forall_mem_cons.mp h
    cases es with
    | nil => exact he
    | cons e' es => exact ih hes

theorem inferArgs_executable {args : List TupleArg}
    (h : ∀ e ∈ args.map TupleArg.expr, ∀ t, infer program types e = some t → Executable t) :
    ∀ ts, inferArgs program types args = some ts → ∀ t ∈ ts, Executable t := by
  induction args with
  | nil =>
    intro ts hts
    cases hts
    exact List.forall_mem_nil _
  | cons a args ih =>
    obtain ⟨ha, hargs⟩ := List.forall_mem_cons.mp h
    intro ts hts
    cases a with
    | single e =>
      obtain ⟨ty, hty, hts⟩ := Option.bind_eq_some_iff.mp hts
      obtain ⟨rest, hrest, rfl⟩ := Option.map_eq_some_iff.mp hts
      exact List.forall_mem_cons.mpr ⟨ha ty hty, ih hargs rest hrest⟩
    | spread len e =>
      obtain ⟨ty, hty, hts⟩ := Option.bind_eq_some_iff.mp hts
      obtain ⟨spread, hspread, hts⟩ := Option.bind_eq_some_iff.mp hts
      obtain ⟨rest, hrest, rfl⟩ := Option.map_eq_some_iff.mp hts
      exact List.forall_mem_append.mpr
        ⟨spreadTypes_executable (ha ty hty) hspread, ih hargs rest hrest⟩

include hprogram

/-- The inferred type of an expression has values. -/
theorem infer_executable (htypes : TypesSound types) {e : Expr} (h : Everywhere NamesValues e) :
    ∀ t, infer program types e = some t → Executable t := by
  induction h with
  | intro e here below ih =>
    intro t ht
    cases e with
    | quote literal =>
      cases literal with
      | _ =>
        cases ht
        trivial
    | varRef id => exact htypes id t ht
    | default ty =>
      cases ht
      exact here _ List.mem_cons_self
    | ite cond thn els => exact ih thn (by simp [Expr.children]) t ht
    | eltRef e elt index =>
      obtain ⟨ty, hty, ht⟩ := Option.bind_eq_some_iff.mp ht
      exact structField_executable (ih e List.mem_cons_self ty hty) ht
    | enumRef ty elt =>
      cases ht
      exact here _ List.mem_cons_self
    | tuple vector args =>
      obtain ⟨ts, hts, rfl⟩ := Option.map_eq_some_iff.mp ht
      exact allExecutable_iff.mpr (inferArgs_executable ih ts hts)
    | tupleRef e index =>
      obtain ⟨ty, hty, ht⟩ := Option.bind_eq_some_iff.mp ht
      exact elementTypeFrom_executable (ih e List.mem_cons_self ty hty) ht
    | tupleSlice ty e index len =>
      exact sliceResultType_executable (here _ List.mem_cons_self) ht
    | vectorRef ty e index =>
      rcases Option.or_eq_some_iff.mp ht with ht | ⟨-, ht⟩
      · exact elementTypeFrom_executable (here _ List.mem_cons_self) ht
      · obtain ⟨ty', hty', ht⟩ := Option.bind_eq_some_iff.mp ht
        exact elementTypeFrom_executable (ih e List.mem_cons_self ty' hty') ht
    | vectorSlice ty e index len =>
      exact sliceResultType_executable (here _ List.mem_cons_self) ht
    | bytesRef ty e index =>
      cases ht
      trivial
    | bytesSlice ty e index len =>
      cases ht
      trivial
    | arith op ty left right =>
      cases ht
      exact here _ List.mem_cons_self
    | compare op bits left right =>
      cases ht
      trivial
    | equal negated ty left right =>
      cases ht
      trivial
    | map len fn args =>
      obtain ⟨ty, hty, rfl⟩ := Option.map_eq_some_iff.mp ht
      change Executable ty
      cases fn with
      | ref id => exact resultType_executable hprogram hty
      | circuit arguments resultType body =>
        cases hty
        exact here _ List.mem_cons_self
    | fold len fn init initTy args => exact ih init List.mem_cons_self t ht
    | call name args => exact resultType_executable hprogram ht
    | new ty elements =>
      cases ht
      exact here _ List.mem_cons_self
    | seq items => exact inferLast_executable ih t ht
    | letStar bindings body => exact ih body List.mem_cons_self t ht
    | assert e message =>
      cases ht
      trivial
    | fieldToBytes len fieldType e =>
      cases ht
      trivial
    | castFromBytes ty len e =>
      cases ht
      exact here _ List.mem_cons_self
    | vectorToBytes len e =>
      cases ht
      trivial
    | bytesToVector len e =>
      cases ht
      trivial
    | castBetween kind ty source e =>
      cases ht
      cases kind with
      | _ => exact here _ List.mem_cons_self
    | castToField fieldType source e =>
      cases ht
      trivial
    | castFromField maxval fieldType e =>
      cases ht
      trivial
    | downcastUnsigned m n e =>
      cases ht
      trivial
    | contractCall circuit receiver contractType args =>
      obtain ⟨_, _, hcircuits, -⟩ := List.lookup_eq_some_iff.mp ht
      refine here t (List.mem_append_right _ (List.mem_map.mpr ⟨(circuit, t), ?_, rfl⟩))
      rw [hcircuits]
      exact List.mem_append_right _ List.mem_cons_self
    | emit version tag len payload instructions =>
      cases ht
      trivial
    | publicLedger field opClass path op resultType instructions args =>
      cases ht
      exact here _ List.mem_cons_self
    | ret e => exact ih e List.mem_cons_self t ht

end Inference

section Safe

variable {vm : Vm} {α β : Type}

/-- A run may be out of fuel, or refuse anything but a type. -/
def Allowed : Halt → Prop
  | .outOfFuel => True
  | .error e => ¬ RefusesType e

/-- The computation keeps the types of the locals, and refuses no type. -/
def Safe (m : Exec vm α) (post : α → Prop) : Prop :=
  Keeps (fun ctx : ExecContext vm => TypesSound ctx.localTypes) Allowed m post

/-- A computation that is safe, whatever it gives. -/
abbrev SafeRun (m : Exec vm α) : Prop := Safe m (fun _ => True)

theorem safe_pure (a : α) : SafeRun (pure a : Exec vm α) := keeps_pure trivial

theorem safe_fail {e : InterpreterError} (h : ¬ RefusesType e) : SafeRun (fail e : Exec vm α) :=
  keeps_stop h

theorem safe_result {r : Result α} (h : Plain r) : SafeRun (result r : Exec vm α) := by
  refine keeps_lift (fun _ _ => trivial) (fun halt hhalt => ?_)
  cases r with
  | ok a => cases hhalt
  | error e =>
    cases hhalt
    exact h e rfl

theorem safe_bind {m : Exec vm α} {f : α → Exec vm β} (hm : SafeRun m)
    (hf : ∀ a, SafeRun (f a)) : SafeRun (m >>= f) :=
  keeps_bind hm (fun a _ => hf a)

theorem safe_each {f : α → Exec vm β} (as : List α) (h : ∀ a ∈ as, SafeRun (f a)) :
    SafeRun (each f as) :=
  (keeps_each as h).mono (fun _ _ => trivial)

theorem safe_modify {f : ExecContext vm → ExecContext vm}
    (h : ∀ ctx, TypesSound ctx.localTypes → TypesSound (f ctx).localTypes) :
    SafeRun (modify f : Exec vm Unit) :=
  keeps_modify trivial h

theorem safe_checkType {ty : Ty} (h : Executable ty) : SafeRun (checkTypeAtRun ty : Exec vm Unit) := by
  have hsupported : unsupportedType ty = none := ((executable_iff ty).mp h).1
  unfold checkTypeAtRun
  rw [hsupported]
  exact safe_pure ()

theorem typesSound_update {types : Ident → Option Ty} (h : TypesSound types) {ty : Ty}
    (hty : Executable ty) (id : Ident) : TypesSound (Function.update types id (some ty)) := by
  intro id' ty' h'
  by_cases hid : id' = id
  · subst hid
    rw [Function.update_self, Option.some.injEq] at h'
    exact h' ▸ hty
  · rw [Function.update_of_ne hid] at h'
    exact h id' ty' h'

theorem safe_bindLocal {ty : Ty} (h : Executable ty) (id : Ident) (v : Value) :
    SafeRun (bindLocal id v ty : Exec vm Unit) :=
  safe_modify (fun _ hctx => typesSound_update hctx h id)

theorem safe_bindLocals {bindings : List (Argument × Value)}
    (h : ∀ b ∈ bindings, Executable b.1.ty) : SafeRun (bindLocals bindings : Exec vm Unit) := by
  induction bindings with
  | nil => exact safe_pure ()
  | cons binding bindings ih =>
    obtain ⟨hty, hrest⟩ := List.forall_mem_cons.mp h
    exact safe_bind (safe_bindLocal hty _ _) (fun _ => ih hrest)

theorem safe_checkParams {params : List Argument} (h : ∀ a ∈ params, Executable a.ty) :
    SafeRun (checkParams params : Exec vm Unit) := by
  induction params with
  | nil => exact safe_pure ()
  | cons param params ih =>
    obtain ⟨hty, hrest⟩ := List.forall_mem_cons.mp h
    exact safe_bind (safe_checkType hty) (fun _ => ih hrest)

theorem safe_inferHere {program : Program} (hprogram : ProgramSound program) {e : Expr}
    (h : Everywhere NamesValues e) :
    Safe (inferHere program e : Exec vm (Option Ty)) (fun ty => ∀ t, ty = some t → Executable t) :=
  keeps_bind (keeps_get (fun _ hctx => hctx))
    (fun _ hctx => keeps_pure (infer_executable hprogram hctx h))

end Safe

section Operands

variable {c : Codecs} (crypto : Crypto c) {vm : Vm} {program : Program}
  (hprogram : ProgramSound program) (eval : Expr → Exec vm Value)

theorem countOperand_plain (op : OpName) (name : String) :
    ∀ o, (∀ ty ∈ operandTypes o, Executable ty) → Plain (countOperand crypto op name o)
  | .int _, _ => plain_ite (plain_ok _) (plain_error not_false)
  | .maxSizeof ty, h => maxSizeof_plain crypto (h ty List.mem_cons_self)
  | .add x y, h => by
    obtain ⟨hx, hy⟩ := List.forall_mem_append.mp h
    exact plain_bind (countOperand_plain op name x hx) (fun _ =>
      plain_bind (countOperand_plain op name y hy) (fun _ =>
        plain_ite (plain_ok _) (plain_error not_false)))
  | .bool _, _ => plain_error not_false
  | .str _, _ => plain_error not_false
  | .align _ _, _ => plain_error not_false
  | .stack, _ => plain_error not_false
  | .void, _ => plain_error not_false
  | .valueToInt _, _ => plain_error not_false
  | .null _, _ => plain_error not_false
  | .leafHash _, _ => plain_error not_false
  | .coinCommit _ _, _ => plain_error not_false
  | .alignedConcat _, _ => plain_error not_false
  | .stateValue _, _ => plain_error not_false
  | .expr _, _ => plain_error not_false
  | .list _, _ => plain_error not_false

theorem arg_types {i : Instruction} (h : ∀ ty ∈ instructionTypes i, Executable ty) {name : String}
    {o : Operand} (ho : i.arg name = some o) : ∀ ty ∈ operandTypes o, Executable ty := by
  obtain ⟨_, _, hargs, -⟩ := List.lookup_eq_some_iff.mp ho
  refine fun ty hty => h ty (List.mem_flatMap.mpr ⟨(name, o), ?_, hty⟩)
  rw [hargs]
  exact List.mem_append_right _ List.mem_cons_self

theorem countArg_plain {i : Instruction} (h : ∀ ty ∈ instructionTypes i, Executable ty)
    (bound : ℕ) (name : String) : Plain (countArg crypto bound i name) := by
  unfold countArg operand
  cases ho : i.arg name with
  | none => exact plain_error not_false
  | some o =>
    change Plain (countOperand crypto i.op name o >>= _)
    exact plain_bind (countOperand_plain crypto i.op name o (arg_types h ho))
      (fun _ => plain_ite (plain_ok _) (plain_error not_false))

theorem operandTypesEach_eq (xs : List Operand) :
    operandTypesEach xs = xs.flatMap operandTypes := by
  induction xs with
  | nil => rfl
  | cons x xs ih => rw [operandTypesEach, ih, List.flatMap_cons]

/-- The evaluator takes the expression. -/
def Ready (e : Expr) : Prop := Everywhere NamesValues e ∧ SafeRun (eval e)

variable {eval}

theorem safe_encodeInferred {e : Expr} (h : Ready eval e) (hprogram : ProgramSound program) :
    SafeRun (do
      let inferred ← inferHere program e
      let v ← eval e
      result (encodeInferred (c := c) v inferred) : Exec vm AlignedValue) :=
  keeps_bind (safe_inferHere hprogram h.1) (fun _ hty =>
    safe_bind h.2 (fun v => safe_result (encodeInferred_plain v hty)))

include hprogram

set_option linter.unusedSectionVars false in
mutual

theorem safe_operandAligned : ∀ o, (∀ ty ∈ operandTypes o, Executable ty) →
    (∀ e ∈ alignedExprs o, Ready eval e) → SafeRun (operandAligned crypto program eval o)
  | .expr e, _, h => safe_encodeInferred (h e List.mem_cons_self) hprogram
  | .valueToInt x, hty, h => safe_operandAligned x hty h
  | .stateValue value, hty, h => safe_stateAligned value hty h
  | .align value bytes, _, _ => safe_result (literalKey_plain value bytes)
  | .int _, _, _ => keeps_ite (fun _ => safe_pure _) (fun _ => safe_fail not_false)
  | .bool _, _, _ => safe_pure _
  | .null ty, hty, _ => by
    have hnull := hty ty List.mem_cons_self
    exact safe_result (plain_bind (defaultValue_plain crypto.elements ty hnull)
      (fun v => encodeTyped_plain ty hnull v))
  | .leafHash x, hty, h => safe_bind (safe_operandAligned x hty h) (fun _ => safe_pure _)
  | .alignedConcat parts, hty, h =>
    safe_bind (safe_operandsAligned parts hty h) (fun _ => safe_pure _)
  | .str _, _, _ => safe_fail not_false
  | .stack, _, _ => safe_fail not_false
  | .void, _, _ => safe_fail not_false
  | .maxSizeof _, _, _ => safe_fail not_false
  | .add _ _, _, _ => safe_fail not_false
  | .coinCommit _ _, _, _ => safe_fail not_false
  | .list _, _, _ => safe_fail not_false

theorem safe_stateAligned : ∀ value, (∀ ty ∈ stateTypes value, Executable ty) →
    (∀ e ∈ stateExprs value, Ready eval e) → SafeRun (stateAligned crypto program eval value)
  | .cell x, hty, h => safe_operandAligned x hty h
  | .adt x _, hty, h => safe_operandAligned x hty h
  | .null, _, _ => safe_fail not_false
  | .array _, _, _ => safe_fail not_false
  | .map _, _, _ => safe_fail not_false
  | .merkleTree _ _, _, _ => safe_fail not_false

theorem safe_operandsAligned : ∀ xs, (∀ ty ∈ operandTypesEach xs, Executable ty) →
    (∀ e ∈ alignedExprsEach xs, Ready eval e) → SafeRun (operandsAligned crypto program eval xs)
  | [], _, _ => safe_pure _
  | x :: xs, hty, h => by
    obtain ⟨htx, htxs⟩ := List.forall_mem_append.mp hty
    obtain ⟨hx, hxs⟩ := List.forall_mem_append.mp h
    exact safe_bind (safe_operandAligned x htx hx) (fun _ =>
      safe_bind (safe_operandsAligned xs htxs hxs) (fun _ => safe_pure _))

end

theorem safe_pushScalar {o : Operand} (hty : ∀ ty ∈ operandTypes o, Executable ty)
    (h : ∀ e ∈ alignedExprs o, Ready eval e) : SafeRun (pushScalar crypto program eval o) := by
  unfold pushScalar
  split
  · exact safe_pure _
  · exact safe_pure _
  · exact safe_bind (safe_operandAligned crypto hprogram o hty h) (fun _ => safe_pure _)

theorem safe_pushAdt {x : Operand} {ty : NamedTy} (hty : ∀ t ∈ operandTypes x, Executable t)
    (h : ∀ e ∈ pushedAdt x ty, Ready eval e) : SafeRun (pushAdt crypto program eval x ty) := by
  unfold pushAdt
  split
  · exact keeps_ite (fun _ => safe_pure _) (fun _ => safe_fail not_false)
  · rename_i hne
    refine safe_pushScalar crypto hprogram hty ?_
    unfold pushedAdt at h
    split at h
    · rename_i d name args
      exact absurd rfl (hne d name args rfl)
    · exact h

set_option linter.unusedSectionVars false in
mutual

theorem safe_pushValue : ∀ o, (∀ ty ∈ operandTypes o, Executable ty) →
    (∀ e ∈ pushedExprs o, Ready eval e) → SafeRun (pushValue crypto program eval o)
  | .stateValue value, hty, h => safe_pushStateValue value hty h
  | .expr _, hty, h => safe_pushScalar crypto hprogram hty h
  | .valueToInt _, hty, h => safe_pushScalar crypto hprogram hty h
  | .align _ _, hty, h => safe_pushScalar crypto hprogram hty h
  | .int _, hty, h => safe_pushScalar crypto hprogram hty h
  | .bool _, hty, h => safe_pushScalar crypto hprogram hty h
  | .null _, hty, h => safe_pushScalar crypto hprogram hty h
  | .leafHash _, hty, h => safe_pushScalar crypto hprogram hty h
  | .alignedConcat _, hty, h => safe_pushScalar crypto hprogram hty h
  | .str _, hty, h => safe_pushScalar crypto hprogram hty h
  | .stack, hty, h => safe_pushScalar crypto hprogram hty h
  | .void, hty, h => safe_pushScalar crypto hprogram hty h
  | .maxSizeof _, hty, h => safe_pushScalar crypto hprogram hty h
  | .add _ _, hty, h => safe_pushScalar crypto hprogram hty h
  | .coinCommit _ _, hty, h => safe_pushScalar crypto hprogram hty h
  | .list _, hty, h => safe_pushScalar crypto hprogram hty h

theorem safe_pushStateValue : ∀ value, (∀ ty ∈ stateTypes value, Executable ty) →
    (∀ e ∈ pushedState value, Ready eval e) → SafeRun (pushStateValue crypto program eval value)
  | .array elements, hty, h =>
    safe_bind (safe_pushElements elements hty h) (fun _ => safe_pure _)
  | .map entries, hty, h => safe_bind (safe_pushEntries entries hty h) (fun _ => safe_pure _)
  | .merkleTree _ _, _, _ =>
    keeps_ite (fun _ => safe_fail not_false)
      (fun _ => keeps_ite (fun _ => safe_pure _) (fun _ => safe_fail not_false))
  | .adt _ _, hty, h => safe_pushAdt crypto hprogram hty h
  | .cell x, hty, h =>
    safe_pushScalar (o := .stateValue (.cell x)) crypto hprogram hty h
  | .null, hty, h => safe_pushScalar (o := .stateValue .null) crypto hprogram hty h

theorem safe_pushElements : ∀ xs, (∀ ty ∈ operandTypesEach xs, Executable ty) →
    (∀ e ∈ pushedExprsEach xs, Ready eval e) → SafeRun (pushElements crypto program eval xs)
  | [], _, _ => safe_pure _
  | x :: xs, hty, h => by
    obtain ⟨htx, htxs⟩ := List.forall_mem_append.mp hty
    obtain ⟨hx, hxs⟩ := List.forall_mem_append.mp h
    exact safe_bind (safe_pushValue x htx hx) (fun _ =>
      safe_bind (safe_pushElements xs htxs hxs) (fun _ => safe_pure _))

theorem safe_pushEntries : ∀ entries, (∀ ty ∈ entryTypes entries, Executable ty) →
    (∀ e ∈ pushedEntries entries, Ready eval e) →
    SafeRun (pushEntries crypto program eval entries)
  | [], _, _ => safe_pure _
  | (k, v) :: entries, hty, h => by
    obtain ⟨htkv, htentries⟩ := List.forall_mem_append.mp hty
    obtain ⟨htk, htv⟩ := List.forall_mem_append.mp htkv
    obtain ⟨hkv, hentries⟩ := List.forall_mem_append.mp h
    obtain ⟨hk, hv⟩ := List.forall_mem_append.mp hkv
    exact safe_bind (safe_operandAligned crypto hprogram k htk hk) (fun _ =>
      safe_bind (safe_pushValue v htv hv) (fun _ =>
        safe_bind (safe_pushEntries entries htentries hentries) (fun _ => safe_pure _)))

end

theorem safe_pathKey {o : Operand} (hty : ∀ ty ∈ operandTypes o, Executable ty)
    (h : ∀ e ∈ alignedExprs o, Ready eval e) : SafeRun (pathKey crypto program eval o) := by
  unfold pathKey
  split
  · exact safe_pure _
  · exact safe_bind (safe_operandAligned crypto hprogram _ hty h) (fun _ => safe_pure _)
  · exact safe_bind (safe_operandAligned crypto hprogram _ hty h) (fun _ => safe_pure _)
  · exact safe_fail not_false

omit hprogram

theorem reduceOperand_expr {e : Expr} : ∀ o, reduceOperand o = .expr e → e ∈ alignedExprs o
  | .expr _, h => by
    cases h
    exact List.mem_cons_self
  | .valueToInt x, h => reduceOperand_expr x h
  | .stateValue (.cell x), h => reduceOperand_expr x h
  | .stateValue (.adt x _), h => reduceOperand_expr x h
  | .stateValue .null, h => by cases h
  | .stateValue (.array _), h => by cases h
  | .stateValue (.map _), h => by cases h
  | .stateValue (.merkleTree _ _), h => by cases h
  | .align _ _, h => by cases h
  | .int _, h => by cases h
  | .bool _, h => by cases h
  | .null _, h => by cases h
  | .leafHash _, h => by cases h
  | .alignedConcat _, h => by cases h
  | .str _, h => by cases h
  | .stack, h => by cases h
  | .void, h => by cases h
  | .maxSizeof _, h => by cases h
  | .add _ _, h => by cases h
  | .coinCommit _ _, h => by cases h
  | .list _, h => by cases h

theorem safe_resolveImmediate {o : Operand} (op : OpName)
    (h : ∀ e ∈ alignedExprs o, Ready eval e) : SafeRun (resolveImmediate eval op o) := by
  unfold resolveImmediate
  split
  · exact keeps_ite (fun _ => safe_pure _) (fun _ => safe_fail not_false)
  · rename_i e he
    exact safe_bind (h e (reduceOperand_expr o he)).2 (fun _ => safe_result (plain_required _ _))
  · exact safe_fail not_false

theorem safe_operand (i : Instruction) (name : String) :
    Safe (result (operand i name) : Exec vm Operand) (fun o => i.arg name = some o) := by
  unfold operand
  cases ho : i.arg name with
  | none => exact keeps_stop (e := Halt.error (.typeError _)) not_false
  | some o => exact keeps_pure rfl

include hprogram

/-- An instruction evaluates what it lists, at the types that it lists. -/
theorem safe_buildOp {i : Instruction} (hty : ∀ ty ∈ instructionTypes i, Executable ty)
    (h : ∀ e ∈ instructionExprs i, Ready eval e) : SafeRun (buildOp crypto program eval i) := by
  have hcount : ∀ bound name, SafeRun (result (countArg crypto bound i name) : Exec vm ℕ) :=
    fun bound name => safe_result (countArg_plain crypto hty bound name)
  cases i with
  | mk op args =>
    have htypes : ∀ {name o}, (Instruction.mk op args).arg name = some o →
        ∀ ty ∈ operandTypes o, Executable ty := fun ho => arg_types hty ho
    have hexprs : ∀ {name o} {f : Operand → List Expr},
        (∀ e ∈ ((Instruction.mk op args).arg name).toList.flatMap f, Ready eval e) →
        (Instruction.mk op args).arg name = some o → ∀ e ∈ f o, Ready eval e :=
      fun hall ho e he => hall e (List.mem_flatMap.mpr ⟨_, Option.mem_toList.mpr ho, he⟩)
    have himmediate : (∀ e ∈ ((Instruction.mk op args).arg "immediate").toList.flatMap alignedExprs,
        Ready eval e) → ∀ f : ℕ → Op vm.State, SafeRun (do
          let o ← result (operand (.mk op args) "immediate")
          let n ← resolveImmediate eval op o
          pure (f n) : Exec vm (Op vm.State)) :=
      fun hall f => keeps_bind (safe_operand _ _) (fun o ho =>
        safe_bind (safe_resolveImmediate op (hexprs hall ho)) (fun _ => safe_pure _))
    cases op with
    | idx =>
      unfold buildOp
      dsimp only [Instruction.op]
      split
      · rename_i path hpath
        refine safe_bind (safe_each path (fun o ho => ?_)) (fun _ => safe_pure _)
        refine safe_pathKey crypto hprogram (fun ty ht => ?_) (fun e he => ?_)
        · have hlist := htypes hpath
          rw [show operandTypes (.list path) = operandTypesEach path from rfl,
            operandTypesEach_eq] at hlist
          exact hlist ty (List.mem_flatMap.mpr ⟨o, ho, ht⟩)
        · refine h e ?_
          simp only [instructionExprs, Instruction.op, hpath]
          exact List.mem_flatMap.mpr ⟨o, ho, he⟩
      · exact safe_fail not_false
    | push =>
      exact keeps_bind (safe_operand _ _) (fun o ho =>
        safe_bind (safe_pushValue crypto hprogram o (htypes ho) (hexprs h ho))
          (fun _ => safe_pure _))
    | addi => exact himmediate h .addi
    | subi => exact himmediate h .subi
    | ins => exact safe_bind (hcount _ _) (fun _ => safe_pure _)
    | noop => exact safe_bind (hcount _ _) (fun _ => safe_pure _)
    | branch => exact safe_bind (hcount _ _) (fun _ => safe_pure _)
    | jmp => exact safe_bind (hcount _ _) (fun _ => safe_pure _)
    | concat => exact safe_bind (hcount _ _) (fun _ => safe_pure _)
    | and => exact safe_fail not_false
    | new => exact safe_fail not_false
    | or => exact safe_fail not_false
    | sub => exact safe_fail not_false
    | unknown name => exact safe_fail not_false
    | _ => exact safe_pure _

variable (env : Env vm)

theorem safe_execLedgerQuery {instructions : List Instruction}
    (hty : ∀ ty ∈ instructions.flatMap instructionTypes, Executable ty)
    (h : ∀ e ∈ instructions.flatMap instructionExprs, Ready eval e) :
    SafeRun (execLedgerQuery crypto program eval env instructions) := by
  refine safe_bind (safe_each instructions (fun i hi => ?_)) (fun ops => ?_)
  · exact safe_buildOp crypto hprogram
      (fun ty ht => hty ty (List.mem_flatMap.mpr ⟨i, hi, ht⟩))
      (fun e he => h e (List.mem_flatMap.mpr ⟨i, hi, he⟩))
  · refine safe_bind (safe_modify (fun _ hctx => hctx)) (fun _ => ?_)
    refine safe_bind (keeps_get (fun _ _ => trivial)) (fun ctx => ?_)
    refine safe_bind (safe_result ?_) (fun answer => ?_)
    · cases vm.query env.callContext ctx.state ops with
      | error message => exact plain_error not_false
      | ok answer => exact plain_ok _
    · refine safe_bind (safe_modify (fun _ hctx => hctx)) (fun _ => ?_)
      split
      · exact safe_pure _
      · exact safe_pure _

end Operands

section Steps

variable {c : Codecs} (crypto : Crypto c) {vm : Vm} {program : Program}
  (hprogram : ProgramSound program) (env : Env vm) {eval : Expr → Exec vm Value}

theorem safe_evalSeq {es : List Expr} (h : ∀ e ∈ es, Ready eval e) :
    ∀ v, SafeRun (evalSeq eval v es) := by
  induction es with
  | nil => exact fun v => safe_pure v
  | cons e es ih =>
    obtain ⟨he, hes⟩ := List.forall_mem_cons.mp h
    exact fun _ => safe_bind he.2 (fun v => ih hes v)

/-- A call gives back the locals that were there before it. -/
theorem safe_callCircuit {params : List Argument} {body : Expr} (args : List Value)
    (hparams : ∀ a ∈ params, Executable a.ty) (hbody : SafeRun (eval body)) :
    SafeRun (callCircuit eval params body args) := by
  refine keeps_ite (fun _ => safe_fail not_false) (fun _ => ?_)
  refine safe_bind (safe_checkParams hparams) (fun _ => ?_)
  refine keeps_bind (keeps_get (fun _ hctx => hctx)) (fun saved hsaved => ?_)
  refine safe_bind (safe_bindLocals ?_) (fun _ => safe_bind hbody (fun v => ?_))
  · exact fun b hb => hparams b.1 (List.of_mem_zip hb).1
  · exact safe_bind (safe_modify (fun _ _ => hsaved)) (fun _ => safe_pure v)

theorem safe_evalAsInteger {e : Expr} (h : Ready eval e) : SafeRun (evalAsInteger eval e) :=
  safe_bind h.2 (fun _ => safe_result (plain_required _ _))

theorem safe_evalIndex {e : Expr} (h : Ready eval e) (what : String) :
    SafeRun (evalIndex eval e what) :=
  safe_bind (safe_evalAsInteger h) (fun _ => safe_result (plain_required _ _))

theorem loopArgs_plain (i : ℕ) (args : List (Value × MapArg)) : Plain (loopArgs i args) := by
  induction args with
  | nil => exact plain_ok _
  | cons a args ih =>
    exact plain_bind (indexedElement_plain _ _ _ _) (fun _ => plain_bind ih (fun _ => plain_ok _))

theorem safe_evalMapArgs {args : List MapArg} (h : ∀ e ∈ args.map MapArg.expr, Ready eval e) :
    SafeRun (each (evalMapArg eval) args) :=
  safe_each args (fun a ha =>
    safe_bind (h a.expr (List.mem_map_of_mem ha)).2 (fun _ => safe_pure _))

theorem safe_evalNew {ty : Ty} {elements : List Expr} (hty : Executable ty)
    (h : ∀ e ∈ elements, Ready eval e) : SafeRun (evalNew (c := c) eval ty elements) := by
  refine safe_bind (safe_checkType hty) (fun _ => ?_)
  split
  · refine keeps_ite (fun _ => safe_fail not_false) (fun _ => ?_)
    exact safe_bind (safe_each elements (fun e he => (h e he).2))
      (fun values => safe_result (plain_map (encodeTyped_plain _ hty _) _))
  · exact safe_fail not_false

theorem safe_evalCastToField {source : Ty} {e : Expr} (fieldType : FieldType)
    (hsource : Executable source) (h : Ready eval e) :
    SafeRun (evalCastToField crypto eval fieldType source e) := by
  refine safe_bind (safe_checkType hsource) (fun _ => ?_)
  refine safe_bind (safe_result (refuseForeignCast_plain _)) (fun _ => ?_)
  have hrest : SafeRun (do
      let v ← eval e
      result (evalCast crypto.elements v source (.field .native)) : Exec vm Value) :=
    safe_bind h.2 (fun v => safe_result (evalCast_plain _ v _ _))
  split
  · exact safe_bind (safe_result (refuseForeignCast_plain _)) (fun _ => hrest)
  · exact hrest

theorem safe_evalWitnessCall (id : Ident) (values : List Value) :
    SafeRun (evalWitnessCall program env id values) := by
  unfold evalWitnessCall
  dsimp only
  split
  · split
    · exact safe_bind (safe_modify (fun _ hctx => hctx)) (fun _ => safe_pure _)
    · exact safe_fail not_false
  · split
    · exact safe_bind (safe_modify (fun _ hctx => hctx)) (fun _ => safe_pure _)
    · exact safe_fail not_false
  · split
    · exact safe_fail not_false
    · exact safe_bind (safe_modify (fun _ hctx => hctx)) (fun _ => safe_pure _)
  · refine safe_bind (keeps_get (fun _ _ => trivial)) (fun ctx => ?_)
    refine safe_bind (safe_result ?_) (fun answer => ?_)
    · cases env.callWitness ctx.privateState _ values with
      | error e => exact plain_error not_false
      | ok answer => exact plain_ok _
    · refine safe_bind (safe_modify (fun _ hctx => hctx)) (fun _ => ?_)
      split
      · exact safe_fail not_false
      · exact safe_bind (safe_result (tryToAlignedValue_plain _))
          (fun _ => safe_bind (safe_modify (fun _ hctx => hctx)) (fun _ => safe_pure _))

include hprogram

theorem safe_evalTupleArg {a : TupleArg} (h : Ready eval a.expr) :
    SafeRun (evalTupleArg program eval a) := by
  cases a with
  | single e => exact safe_bind h.2 (fun _ => safe_pure _)
  | spread len e =>
    exact safe_bind (safe_result (irLength_plain _)) (fun _ =>
      keeps_bind (safe_inferHere hprogram h.1) (fun _ _ =>
        safe_bind h.2 (fun _ => safe_result (spliceSpread_plain _ _ _))))

/-- A binder's type is the inferred one, or the declared one. -/
theorem safe_evalBindings {bindings : List (Argument × Expr)}
    (hty : ∀ b ∈ bindings, Executable b.1.ty) (h : ∀ b ∈ bindings, Ready eval b.2) :
    SafeRun (evalBindings program eval bindings) := by
  induction bindings with
  | nil => exact safe_pure ()
  | cons binding bindings ih =>
    obtain ⟨hbinder, htypes⟩ := List.forall_mem_cons.mp hty
    obtain ⟨hvalue, hvalues⟩ := List.forall_mem_cons.mp h
    refine keeps_bind (safe_inferHere hprogram hvalue.1) (fun inferred hinferred => ?_)
    refine safe_bind hvalue.2 (fun v => ?_)
    refine safe_bind (safe_bindLocal ?_ _ _) (fun _ => ih htypes hvalues)
    cases inferred with
    | none => exact hbinder
    | some ty => exact hinferred ty rfl

theorem safe_evalPureCall (id : Ident) (values : List Value) :
    SafeRun (evalPureCall crypto program id values : Exec vm Value) := by
  unfold evalPureCall
  split
  · rename_i r hr
    exact safe_result (plain_map
      (builtin_plain crypto (argumentTypes_executable hprogram id) _ _ hr) _)
  · exact safe_fail not_false

variable (heval : ∀ e, Everywhere NamesValues e → SafeRun (eval e))
include heval

theorem safe_applyFun {fn : Fun} (hty : ∀ ty ∈ fn.types, Executable ty)
    (h : ∀ e ∈ fn.bodies, Ready eval e) (args : List Value) :
    SafeRun (applyFun program eval fn args) := by
  cases fn with
  | ref id =>
    unfold applyFun
    dsimp only
    split
    · rename_i circuit hcircuit
      have hmem := lookupLast_mem hcircuit
      exact safe_callCircuit args (hprogram.arguments circuit hmem)
        (heval _ (hprogram.bodies circuit hmem))
    · exact safe_fail not_false
  | circuit arguments resultType body =>
    obtain ⟨-, harguments⟩ := List.forall_mem_cons.mp hty
    exact safe_callCircuit args (List.forall_mem_map.mp harguments) (h body List.mem_cons_self).2

theorem safe_mapLoop {fn : Fun} (hty : ∀ ty ∈ fn.types, Executable ty)
    (h : ∀ e ∈ fn.bodies, Ready eval e) (args : List (Value × MapArg)) (n : ℕ) :
    ∀ i, SafeRun (mapLoop program eval fn args i n) := by
  induction n with
  | zero => exact fun _ => safe_pure _
  | succ n ih =>
    exact fun i => safe_bind (safe_result (loopArgs_plain i args)) (fun callArgs =>
      safe_bind (safe_applyFun hprogram heval hty h callArgs) (fun _ =>
        safe_bind (ih (i + 1)) (fun _ => safe_pure _)))

theorem safe_foldLoop {fn : Fun} (hty : ∀ ty ∈ fn.types, Executable ty)
    (h : ∀ e ∈ fn.bodies, Ready eval e) (args : List (Value × MapArg)) (n : ℕ) :
    ∀ i acc, SafeRun (foldLoop program eval fn args i n acc) := by
  induction n with
  | zero => exact fun _ acc => safe_pure acc
  | succ n ih =>
    exact fun i acc => safe_bind (safe_result (loopArgs_plain i args)) (fun callArgs =>
      safe_bind (safe_applyFun hprogram heval hty h (acc :: callArgs)) (fun acc' =>
        ih (i + 1) acc'))

theorem safe_evalCall (name : Ident) {args : List Expr} (h : ∀ e ∈ args, Ready eval e) :
    SafeRun (evalCall crypto program env eval name args) := by
  unfold evalCall
  cases hty : program.resultType name
  case' some ty =>
    refine safe_bind (safe_checkType (resultType_executable hprogram hty)) (fun _ => ?_)
  all_goals
    refine safe_bind (safe_each args (fun e he => (h e he).2)) (fun values => ?_)
    split
    · rename_i circuit hcallee
      have hmem := callee_mem hcallee
      exact safe_callCircuit values (hprogram.arguments circuit hmem)
        (heval _ (hprogram.bodies circuit hmem))
    · exact safe_evalWitnessCall env name values
    · exact safe_evalPureCall crypto hprogram name values

/-- One form refuses no type, if its parts do not. -/
theorem safe_evalNode {e : Expr} (h : Everywhere NamesValues e) :
    SafeRun (evalNode crypto program env eval e) := by
  have hready : ∀ e' ∈ e.children, Ready eval e' :=
    fun e' he' => ⟨h.children e' he', heval e' (h.children e' he')⟩
  have hall := List.forall_mem_append.mp h.here
  have htypes : ∀ ty ∈ e.loadedTypes, Executable ty := hall.1
  cases e with
  | quote literal => exact safe_result (evalLiteral_plain crypto literal)
  | varRef id =>
    refine safe_bind (keeps_get (fun _ _ => trivial)) (fun ctx => ?_)
    split
    · exact safe_pure _
    · exact safe_fail not_false
  | default ty =>
    have hty := htypes _ List.mem_cons_self
    exact safe_bind (safe_checkType hty)
      (fun _ => safe_result (defaultValue_plain crypto.elements _ hty))
  | ite cond thn els =>
    refine safe_bind (hready cond (by simp [Expr.children])).2 (fun b => ?_)
    exact keeps_ite (fun _ => (hready thn (by simp [Expr.children])).2)
      (fun _ => (hready els (by simp [Expr.children])).2)
  | eltRef e elt index =>
    have he := hready e List.mem_cons_self
    exact keeps_bind (safe_inferHere hprogram he.1) (fun ty _ =>
      safe_bind he.2 (fun v => safe_result (fieldOf_plain v ty elt)))
  | enumRef ty elt =>
    exact safe_bind (safe_checkType (htypes _ List.mem_cons_self))
      (fun _ => safe_result (enumMember_plain ty elt))
  | tuple vector args =>
    refine safe_bind (safe_each args (fun a ha => ?_)) (fun parts =>
      keeps_ite (fun _ => safe_pure _) (fun _ => safe_pure _))
    exact safe_evalTupleArg hprogram (hready a.expr (List.mem_map_of_mem ha))
  | tupleRef e index =>
    have he := hready e List.mem_cons_self
    exact safe_bind (safe_result (irLength_plain index)) (fun i =>
      keeps_bind (safe_inferHere hprogram he.1) (fun ty _ =>
        safe_bind he.2 (fun v => safe_result (indexedElement_plain v ty i _))))
  | tupleSlice ty e index len =>
    exact safe_bind (safe_checkType (htypes _ List.mem_cons_self)) (fun _ =>
      safe_bind (hready e List.mem_cons_self).2 (fun v =>
        safe_bind (safe_result (irLength_plain index)) (fun start =>
          safe_bind (safe_result (irLength_plain len)) (fun n =>
            safe_result (sliceElements_plain v ty start n)))))
  | vectorRef ty e index =>
    exact safe_bind (hready e List.mem_cons_self).2 (fun v =>
      safe_bind (safe_evalIndex (hready index (by simp [Expr.children])) _) (fun i =>
        safe_result (indexedElement_plain v _ i _)))
  | vectorSlice ty e index len =>
    exact safe_bind (safe_checkType (htypes _ List.mem_cons_self)) (fun _ =>
      safe_bind (hready e List.mem_cons_self).2 (fun v =>
        safe_bind (safe_evalIndex (hready index (by simp [Expr.children])) _) (fun start =>
          safe_bind (safe_result (irLength_plain len)) (fun n =>
            safe_result (sliceElements_plain v ty start n)))))
  | bytesRef ty e index =>
    exact safe_bind (safe_checkType (htypes _ List.mem_cons_self)) (fun _ =>
      safe_bind (hready e List.mem_cons_self).2 (fun v =>
        safe_bind (safe_evalIndex (hready index (by simp [Expr.children])) _) (fun i =>
          safe_result (byteRef_plain v ty i))))
  | bytesSlice ty e index len =>
    exact safe_bind (safe_checkType (htypes _ List.mem_cons_self)) (fun _ =>
      safe_bind (hready e List.mem_cons_self).2 (fun v =>
        safe_bind (safe_evalIndex (hready index (by simp [Expr.children])) _) (fun start =>
          safe_result (bytesSlice_plain v ty start len))))
  | arith op ty left right =>
    exact safe_bind (safe_checkType (htypes _ List.mem_cons_self)) (fun _ =>
      safe_bind (hready left List.mem_cons_self).2 (fun l =>
        safe_bind (hready right (by simp [Expr.children])).2 (fun r =>
          safe_result (arithValues_plain crypto op ty l r))))
  | compare op bits left right =>
    exact safe_bind (safe_evalAsInteger (hready left List.mem_cons_self)) (fun l =>
      safe_bind (safe_evalAsInteger (hready right (by simp [Expr.children]))) (fun r =>
        safe_pure _))
  | equal negated ty left right =>
    exact safe_bind (hready left List.mem_cons_self).2 (fun l =>
      safe_bind (hready right (by simp [Expr.children])).2 (fun r =>
        safe_bind (safe_result (valuesEqual_plain (htypes _ List.mem_cons_self) l r))
          (fun _ => safe_pure _)))
  | map len fn args =>
    obtain ⟨hbodies, hargs⟩ := List.forall_mem_append.mp hready
    exact safe_bind (safe_evalMapArgs hargs) (fun values =>
      safe_bind (safe_result (irLength_plain len)) (fun n =>
        safe_bind (safe_mapLoop hprogram heval htypes hbodies values n 0) (fun _ => safe_pure _)))
  | fold len fn init initTy args =>
    obtain ⟨hinit, hrest⟩ := List.forall_mem_cons.mp hready
    obtain ⟨hbodies, hargs⟩ := List.forall_mem_append.mp hrest
    exact safe_bind hinit.2 (fun acc => safe_bind (safe_evalMapArgs hargs) (fun values =>
      safe_bind (safe_result (irLength_plain len)) (fun n =>
        safe_foldLoop hprogram heval htypes hbodies values n 0 acc)))
  | call name args => exact safe_evalCall crypto hprogram env heval name hready
  | new ty elements => exact safe_evalNew (htypes _ List.mem_cons_self) hready
  | seq items => exact safe_evalSeq hready .void
  | letStar bindings body =>
    obtain ⟨hbody, hvalues⟩ := List.forall_mem_cons.mp hready
    exact safe_bind (safe_evalBindings hprogram (List.forall_mem_map.mp htypes)
      (List.forall_mem_map.mp hvalues)) (fun _ => hbody.2)
  | assert e message =>
    exact safe_bind (hready e List.mem_cons_self).2 (fun _ =>
      keeps_ite (fun _ => safe_pure _) (fun _ => safe_fail not_false))
  | fieldToBytes len fieldType e =>
    exact safe_bind (hready e List.mem_cons_self).2
      (fun v => safe_result (fieldToBytes_plain crypto len fieldType v))
  | castFromBytes ty len e =>
    exact safe_bind (safe_checkType (htypes _ List.mem_cons_self)) (fun _ =>
      safe_bind (hready e List.mem_cons_self).2 (fun v =>
        safe_result (evalCast_plain _ v _ _)))
  | vectorToBytes len e =>
    exact safe_bind (hready e List.mem_cons_self).2 (fun v =>
      safe_bind (safe_result (irLength_plain len)) (fun n =>
        safe_bind (safe_result (vectorValueToBytes_plain v n)) (fun bytes =>
          safe_result (plain_map (bytesAlignedValue_plain _ _) _))))
  | bytesToVector len e =>
    exact safe_bind (hready e List.mem_cons_self).2 (fun v =>
      safe_bind (safe_result (plain_bind (irLength_plain len) (fun n => paddedBytes_plain v n)))
        (fun _ => safe_pure _))
  | castBetween kind ty source e =>
    have hsource : Executable ty ∧ Executable source := by
      cases kind with
      | _ => exact ⟨h.here ty (by simp [Expr.loadedTypes]),
          h.here source (by simp [Expr.loadedTypes, Expr.uncheckedTypes])⟩
    exact safe_bind (safe_checkType hsource.1) (fun _ =>
      safe_bind (safe_checkType hsource.2) (fun _ =>
        safe_bind (hready e List.mem_cons_self).2 (fun v =>
          safe_result (evalCast_plain _ v _ _))))
  | castToField fieldType source e =>
    exact safe_evalCastToField crypto fieldType (htypes _ List.mem_cons_self)
      (hready e List.mem_cons_self)
  | castFromField maxval fieldType e =>
    exact safe_bind (safe_result (refuseForeignCast_plain fieldType)) (fun _ =>
      safe_bind (hready e List.mem_cons_self).2 (fun v =>
        safe_result (evalCast_plain _ v _ _)))
  | downcastUnsigned m n e =>
    exact safe_bind (hready e List.mem_cons_self).2 (fun v =>
      safe_result (evalCast_plain _ v _ _))
  | contractCall circuit receiver contractType args =>
    exact safe_bind (safe_checkType (htypes _ List.mem_cons_self)) (fun _ => safe_fail not_false)
  | emit version tag len payload instructions =>
    exact safe_bind (safe_execLedgerQuery crypto hprogram env htypes hready) (fun _ => safe_pure _)
  | publicLedger field opClass path op resultType instructions args =>
    obtain ⟨hresult, hoperands⟩ := List.forall_mem_cons.mp htypes
    exact safe_bind (safe_checkType hresult) (fun _ =>
      keeps_ite (fun _ => safe_fail not_false)
        (fun _ => safe_execLedgerQuery crypto hprogram env hoperands hready))
  | ret e => exact (hready e List.mem_cons_self).2

end Steps

section Runs

variable {c : Codecs} (crypto : Crypto c) {vm : Vm} {program : Program}
  (hprogram : ProgramSound program) (env : Env vm)
include hprogram

theorem safe_evalExpr (fuel : ℕ) :
    ∀ e, Everywhere NamesValues e → SafeRun (evalExpr crypto program env fuel e) := by
  induction fuel with
  | zero => exact fun _ _ => keeps_stop trivial
  | succ fuel ih => exact fun e h => safe_evalNode crypto hprogram env ih h

theorem safe_runCircuit (fuel : ℕ) {circuit : Circuit} (hmem : circuit ∈ program.circuits)
    (args : List (String × Value)) : SafeRun (runCircuit crypto program env fuel circuit args) := by
  have hbind : ∀ arguments : List Argument, (∀ a ∈ arguments, Executable a.ty) →
      SafeRun (bindArguments args arguments : Exec vm Unit) := by
    intro arguments
    induction arguments with
    | nil => exact fun _ => safe_pure ()
    | cons a arguments ih =>
      intro h
      obtain ⟨ha, harguments⟩ := List.forall_mem_cons.mp h
      exact safe_bind (safe_checkType ha) (fun _ =>
        safe_bind (safe_modify (fun _ hctx => typesSound_update hctx ha _))
          (fun _ => ih harguments))
  refine safe_bind (hbind _ (hprogram.arguments circuit hmem)) (fun _ => ?_)
  refine safe_bind (safe_checkType (hprogram.results circuit hmem)) (fun _ => ?_)
  refine safe_bind (safe_evalExpr crypto hprogram env fuel _ (hprogram.bodies circuit hmem))
    (fun v => ?_)
  split
  · exact safe_pure _
  · exact safe_bind (safe_result (encodeTyped_plain _ (hprogram.results circuit hmem) _))
      (fun _ => safe_pure _)

theorem execute_allowed (fuel : ℕ) {circuit : Circuit} (hmem : circuit ∈ program.circuits)
    (state : vm.State) (privateState : Bytes) (args : List (String × Value)) {halt : Halt}
    (h : execute crypto program env fuel circuit state privateState args = .error halt) :
    Allowed halt := by
  unfold execute at h
  split at h
  · rename_i halt' hrun
    cases h
    exact (safe_runCircuit crypto hprogram env fuel hmem args).of_stops
      (fun _ _ hnone => by cases hnone) hrun
  · cases h

end Runs

section Load

theorem exportedCircuits_mem {artifact : AnalyzedIr} {exports : List (String × Ident)}
    {circuits : List (String × Circuit)}
    (h : exportedCircuits artifact exports = .ok circuits) :
    ∀ p ∈ circuits, p.2 ∈ artifact.circuits := by
  induction exports generalizing circuits with
  | nil =>
    cases h
    exact List.forall_mem_nil _
  | cons p exports ih =>
    unfold exportedCircuits at h
    split at h
    · exact ih h
    · rename_i c hc
      cases hcheck : checkCircuit c with
      | error e =>
        rw [hcheck] at h
        cases h
      | ok _ =>
        cases hrest : exportedCircuits artifact exports with
        | error e =>
          rw [hcheck, hrest] at h
          cases h
        | ok rest =>
          rw [hcheck, hrest] at h
          cases h
          exact List.forall_mem_cons.mpr ⟨lookupLast_mem hc, ih hrest⟩

theorem checkCircuits_ok {circuits : List Circuit} :
    checkCircuits circuits = .ok () ↔ ∀ c ∈ circuits, checkCircuit c = .ok () := by
  induction circuits with
  | nil => simp [checkCircuits]
  | cons c circuits ih => simp only [checkCircuits, check_seq, ih, List.forall_mem_cons]

theorem checkCircuit_ok {c : Circuit} :
    checkCircuit c = .ok () ↔ (∀ a ∈ c.arguments, Supported a.ty) ∧ Supported c.resultType ∧
      checkExpr c.body = .ok () := by
  simp only [checkCircuit, check_seq, checkArguments_ok, checkType_ok]

theorem checkNatives_ok {natives : List Native} :
    checkNatives natives = .ok () ↔ ∀ n ∈ natives, Supported n.resultType := by
  induction natives with
  | nil => simp [checkNatives]
  | cons n natives ih => simp only [checkNatives, check_seq, checkType_ok, ih, List.forall_mem_cons]

theorem checkWitnesses_ok {witnesses : List Witness} (h : checkWitnesses witnesses = .ok ()) :
    ∀ w ∈ witnesses, Supported w.resultType := by
  induction witnesses with
  | nil => exact List.forall_mem_nil _
  | cons w witnesses ih =>
    simp only [checkWitnesses, check_seq, checkType_ok] at h
    exact List.forall_mem_cons.mpr ⟨h.2.1, ih h.2.2⟩

/-- What an accepted artifact passed. -/
structure Accepted (artifact : AnalyzedIr) (info : ContractInfo) : Prop where
  circuits : ∀ c ∈ artifact.circuits, checkCircuit c = .ok ()
  natives : ∀ n ∈ artifact.natives, Supported n.resultType
  witnesses : ∀ w ∈ artifact.witnesses, Supported w.resultType
  exported : ∀ p ∈ info.circuits, p.2 ∈ artifact.circuits
  program : info.program = ⟨artifact.circuits, artifact.witnesses, artifact.natives⟩

theorem fromProgram_accepted {artifact : AnalyzedIr} {info : ContractInfo}
    (h : fromProgram artifact = .ok info) : Accepted artifact info := by
  unfold fromProgram at h
  cases hexports : exportedCircuits artifact artifact.exports with
  | error e =>
    rw [hexports] at h
    cases h
  | ok circuits =>
    rw [hexports] at h
    cases hcircuits : checkCircuits artifact.circuits with
    | error e =>
      rw [hcircuits] at h
      cases h
    | ok _ =>
      rw [hcircuits] at h
      cases hnatives : checkNatives artifact.natives with
      | error e =>
        rw [hnatives] at h
        cases h
      | ok _ =>
        rw [hnatives] at h
        cases hwitnesses : checkWitnesses artifact.witnesses with
        | error e =>
          rw [hwitnesses] at h
          cases h
        | ok _ =>
          rw [hwitnesses] at h
          cases h
          exact ⟨checkCircuits_ok.mp hcircuits, checkNatives_ok.mp hnatives,
            checkWitnesses_ok hwitnesses, exportedCircuits_mem hexports, rfl⟩

/-- What the loader does not look at, and a run then refuses: no type is unknown, the
source of a safe cast, the result of a contract's circuit and a native's parameter
have no ledger type or type variable, and no operand evaluates the default of a
ledger type. -/
structure NamesNoStray (artifact : AnalyzedIr) : Prop where
  bodies : ∀ c ∈ artifact.circuits, Everywhere Sound c.body
  arguments : ∀ c ∈ artifact.circuits, ∀ a ∈ c.arguments, holdsUnknown a.ty = false
  results : ∀ c ∈ artifact.circuits, holdsUnknown c.resultType = false
  nativeArguments : ∀ n ∈ artifact.natives, ∀ a ∈ n.arguments,
    Supported a.ty ∧ holdsUnknown a.ty = false
  nativeResults : ∀ n ∈ artifact.natives, holdsUnknown n.resultType = false
  witnessResults : ∀ w ∈ artifact.witnesses, holdsUnknown w.resultType = false

theorem programSound_of_accepted {artifact : AnalyzedIr} {info : ContractInfo}
    (haccepted : Accepted artifact info) (hnames : NamesNoStray artifact) :
    ProgramSound info.program := by
  rw [haccepted.program]
  refine ⟨fun c hc a ha => ?_, fun c hc => ?_, fun c hc => ?_, fun n hn a ha => ?_, fun n hn => ?_,
    fun w hw => ?_⟩
  · exact (executable_iff _).mpr
      ⟨(checkCircuit_ok.mp (haccepted.circuits c hc)).1 a ha, hnames.arguments c hc a ha⟩
  · exact (executable_iff _).mpr
      ⟨(checkCircuit_ok.mp (haccepted.circuits c hc)).2.1, hnames.results c hc⟩
  · exact checkExpr_namesValues (hnames.bodies c hc)
      (checkCircuit_ok.mp (haccepted.circuits c hc)).2.2
  · exact (executable_iff _).mpr (hnames.nativeArguments n hn a ha)
  · exact (executable_iff _).mpr ⟨haccepted.natives n hn, hnames.nativeResults n hn⟩
  · exact (executable_iff _).mpr ⟨haccepted.witnesses w hw, hnames.witnessResults w hw⟩

/-- A run of an exported circuit of an accepted artifact refuses no type, if the
artifact holds nothing that the loader does not look at. -/
theorem load_subsumes_run {c : Codecs} (crypto : Crypto c) {vm : Vm} (env : Env vm)
    {artifact : AnalyzedIr} {info : ContractInfo} (hload : fromProgram artifact = .ok info)
    (hnames : NamesNoStray artifact) {p : String × Circuit} (hp : p ∈ info.circuits) (fuel : ℕ)
    (state : vm.State) (privateState : Bytes) (args : List (String × Value)) (e : InterpreterError)
    (hrefused : execute crypto info.program env fuel p.2 state privateState args =
      Except.error (Halt.error e)) : ¬ RefusesType e := by
  have haccepted := fromProgram_accepted hload
  have hmem : p.2 ∈ info.program.circuits := by
    rw [haccepted.program]
    exact haccepted.exported p hp
  exact execute_allowed crypto (programSound_of_accepted haccepted hnames) env fuel hmem state
    privateState args hrefused

end Load

section Stray

/-- Libraries that compute nothing of interest, over plain codecs. -/
def plainCrypto : Crypto plainCodecs where
  elements := plainElements
  Fr := ℕ
  frOfNat n := n
  frOfAtoms atoms := atoms.head?.map ofLeBytes
  frLeBytes n := toLeBytes 32 n
  frAligned n := .single (trim (toLeBytes 32 n)) .field
  frArith op a b := match op with
    | .add => a + b
    | .sub => a - b
    | .mul => a * b
  foreignArith _ _ a _ := a
  foreignLeBytes _ _ := []
  leafHash av := av
  maxAlignedSize segments := segments.length
  Point := ℕ
  pointOfAtoms _ := none
  hashOfAtoms atoms := atoms.head?
  binaryRepr av := av.value.flatten
  fieldVec av := av.value.map ofLeBytes
  persistentCommit av _ := av
  transientCommit av _ := av
  persistentHash bytes := .single bytes (.bytes 32)
  keccak256 bytes := .single bytes (.bytes 32)
  sha512 bytes := .single bytes (.bytes 64)
  transientHash _ := .single [] .field
  hashToCurve av := av
  ecMulGenerator n := .single (trim (toLeBytes 32 n)) .field
  ecMul _ n := .single (trim (toLeBytes 32 n)) .field
  ecAdd n _ := .single (trim (toLeBytes 32 n)) .field
  ecNeg n := .single (trim (toLeBytes 32 n)) .field
  jubjubPointX n := .single (trim (toLeBytes 32 n)) .field
  jubjubPointY n := .single (trim (toLeBytes 32 n)) .field
  constructJubjubPoint _ _ := none
  degradeToTransient bytes := .single bytes .field
  upgradeFromTransient n := .single (trim (toLeBytes 32 n)) (.bytes 32)
  foreignNative _ _ := none

/-- A machine without a state. -/
def plainVm : Vm where
  State := Unit
  Log := Unit
  CallContext := Unit
  null := ()
  cell _ := ()
  array _ := ()
  map _ := ()
  blankMerkleTree _ := ()
  query _ _ _ := .ok ([], ())

def plainEnv : Env plainVm where
  callWitness state _ _ := .ok (none, state)
  callContext := ()
  hasAddress := true
  coinPublicKey := none

def booleanCircuit (name : Ident) (body : Expr) : Circuit :=
  { name := name
    exported := true
    pure := true
    proof := true
    arguments := []
    resultType := .boolean
    body := body }

/-- A default and a cast, whose types a run checks, under an assertion that fails. -/
def abortArtifact : AnalyzedIr :=
  { exports := [("abort", "%abort.1")]
    circuits := [booleanCircuit "%abort.1"
      (.assert (.castBetween .safe .boolean .boolean (.default (.value .boolean))) "stop")]
    natives := []
    witnesses := []
    constructor := none }

theorem abortArtifact_namesNoStray : NamesNoStray abortArtifact := by
  refine ⟨fun c hc => ?_, fun c hc a ha => ?_, fun c hc => ?_, fun n hn => ?_, fun n hn => ?_,
    fun w hw => ?_⟩
  · obtain rfl := List.mem_singleton.mp hc
    refine .intro _ ⟨?_, ?_, ?_⟩ fun e he => ?_
    · simp [booleanCircuit, Expr.uncheckedTypes]
    · simp [booleanCircuit, Expr.uncheckedTypes, Expr.loadedTypes]
    · simp [booleanCircuit, Expr.children]
    obtain rfl := List.mem_singleton.mp he
    refine .intro _ ⟨?_, ?_, ?_⟩ fun e he => ?_
    · simp [Expr.uncheckedTypes, Supported, unsupportedType]
    · simp [Expr.uncheckedTypes, Expr.loadedTypes, holdsUnknown]
    · simp [Expr.children]
    obtain rfl := List.mem_singleton.mp he
    refine .intro _ ⟨?_, ?_, ?_⟩ ?_ <;>
      simp [Expr.uncheckedTypes, Expr.loadedTypes, Expr.children, NamedTy.ty, holdsUnknown]
  · obtain rfl := List.mem_singleton.mp hc
    cases ha
  · obtain rfl := List.mem_singleton.mp hc
    rfl
  · cases hn
  · cases hn
  · cases hw

theorem load_subsumes_run_abort : ∃ info, fromProgram abortArtifact = .ok info ∧
    ∃ p ∈ info.circuits, execute plainCrypto info.program plainEnv 10 p.2 () [] [] =
        Except.error (Halt.error (.assertionFailed "stop")) ∧
      ¬ RefusesType (.assertionFailed "stop") := by
  refine ⟨_, rfl, _, List.mem_singleton_self _, rfl, ?_⟩
  exact load_subsumes_run plainCrypto plainEnv (rfl : fromProgram abortArtifact = .ok _)
    abortArtifact_namesNoStray (List.mem_singleton_self _) 10 () [] []
    _ rfl

/-- A cast of true from a type, and the default of an unknown type. -/
def strayArtifact (source : Ty) : AnalyzedIr :=
  { exports := [("cast", "%cast.1"), ("fresh", "%fresh.2")]
    circuits :=
      [booleanCircuit "%cast.1" (.castBetween .safe .boolean source (.quote (.bool true))),
        booleanCircuit "%fresh.2" (.default (.value .unknown))]
    natives := []
    witnesses := []
    constructor := none }

/-- Both are accepted, and refused in the middle of a call. -/
theorem stray_types_refused : ∃ info, fromProgram (strayArtifact (.typeVar "T")) = .ok info ∧
    info.circuits.map (fun p => execute plainCrypto info.program plainEnv 10 p.2 () [] []) =
      [Except.error (Halt.error (.unsupportedType "type variable T")),
        Except.error (Halt.error (.noValue .unknown))] :=
  ⟨_, rfl, rfl⟩

end Stray

end MidnightRs.Circuits
