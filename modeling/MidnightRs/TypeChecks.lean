import MidnightRs.Refusals

/-!
The check at load against the checks at run time. What a run can reach of an
expression, and the types it meets there, are listed form by form; a condition that
holds of every form below an expression is kept by the evaluation of its parts. The
loader leaves out the source of a safe cast, the arguments of natives, what the
circuits of a contract type return, the unknown type, and the default of a ledger
type in an operand that is not pushed.
-/
namespace MidnightRs.Circuits

open MidnightRs.Compact Triples

section Reach

mutual

/-- The expressions that the aligned value of an operand evaluates. -/
def alignedExprs : Operand → List Expr
  | .expr e => [e]
  | .valueToInt x => alignedExprs x
  | .leafHash x => alignedExprs x
  | .alignedConcat parts => alignedExprsEach parts
  | .stateValue value => stateExprs value
  | _ => []

def stateExprs : StateValue → List Expr
  | .cell x => alignedExprs x
  | .adt x _ => alignedExprs x
  | _ => []

def alignedExprsEach : List Operand → List Expr
  | [] => []
  | x :: xs => alignedExprs x ++ alignedExprsEach xs

end

/-- The default of a container is not evaluated where it is pushed. -/
def pushedAdt : Operand → NamedTy → List Expr
  | .expr (.default _), .adt _ _ => []
  | x, _ => alignedExprs x

mutual

/-- The expressions that a push evaluates. -/
def pushedExprs : Operand → List Expr
  | .stateValue value => pushedState value
  | o => alignedExprs o

def pushedState : StateValue → List Expr
  | .array elements => pushedExprsEach elements
  | .map entries => pushedEntries entries
  | .merkleTree _ _ => []
  | .adt x ty => pushedAdt x ty
  | .cell x => alignedExprs x
  | .null => []

def pushedExprsEach : List Operand → List Expr
  | [] => []
  | x :: xs => pushedExprs x ++ pushedExprsEach xs

def pushedEntries : List (Operand × Operand) → List Expr
  | [] => []
  | (k, v) :: entries => alignedExprs k ++ pushedExprs v ++ pushedEntries entries

end

mutual

/-- The types of the operands, whose defaults are encoded or measured. -/
def operandTypes : Operand → List Ty
  | .null ty => [ty]
  | .maxSizeof ty => [ty]
  | .valueToInt x => operandTypes x
  | .leafHash x => operandTypes x
  | .add x y => operandTypes x ++ operandTypes y
  | .alignedConcat parts => operandTypesEach parts
  | .list items => operandTypesEach items
  | .stateValue value => stateTypes value
  | _ => []

def stateTypes : StateValue → List Ty
  | .cell x => operandTypes x
  | .adt x _ => operandTypes x
  | .array elements => operandTypesEach elements
  | .map entries => entryTypes entries
  | _ => []

def operandTypesEach : List Operand → List Ty
  | [] => []
  | x :: xs => operandTypes x ++ operandTypesEach xs

def entryTypes : List (Operand × Operand) → List Ty
  | [] => []
  | (k, v) :: entries => operandTypes k ++ operandTypes v ++ entryTypes entries

end

def instructionExprs (i : Instruction) : List Expr :=
  match i.op with
  | .idx =>
    match i.arg "path" with
    | some (.list path) => path.flatMap alignedExprs
    | _ => []
  | .push => (i.arg "value").toList.flatMap pushedExprs
  | .addi => (i.arg "immediate").toList.flatMap alignedExprs
  | .subi => (i.arg "immediate").toList.flatMap alignedExprs
  | _ => []

def instructionTypes (i : Instruction) : List Ty := i.args.flatMap (fun a => operandTypes a.2)

def TupleArg.expr : TupleArg → Expr
  | .single e => e
  | .spread _ e => e

def Fun.bodies : Fun → List Expr
  | .ref _ => []
  | .circuit _ _ body => [body]

def Fun.types : Fun → List Ty
  | .ref _ => []
  | .circuit arguments resultType _ => resultType :: arguments.map Argument.ty

/-- The parts that a run of the form evaluates. -/
def Expr.children : Expr → List Expr
  | .ite cond thn els => [cond, thn, els]
  | .eltRef e _ _ => [e]
  | .tuple _ args => args.map TupleArg.expr
  | .tupleRef e _ => [e]
  | .tupleSlice _ e _ _ => [e]
  | .vectorRef _ e index => [e, index]
  | .vectorSlice _ e index _ => [e, index]
  | .bytesRef _ e index => [e, index]
  | .bytesSlice _ e index _ => [e, index]
  | .arith _ _ left right => [left, right]
  | .compare _ _ left right => [left, right]
  | .equal _ _ left right => [left, right]
  | .map _ fn args => fn.bodies ++ args.map MapArg.expr
  | .fold _ fn init _ args => init :: (fn.bodies ++ args.map MapArg.expr)
  | .call _ args => args
  | .new _ elements => elements
  | .seq items => items
  | .letStar bindings body => body :: bindings.map Prod.snd
  | .assert e _ => [e]
  | .fieldToBytes _ _ e => [e]
  | .castFromBytes _ _ e => [e]
  | .vectorToBytes _ e => [e]
  | .bytesToVector _ e => [e]
  | .castBetween _ _ _ e => [e]
  | .castToField _ _ e => [e]
  | .castFromField _ _ e => [e]
  | .downcastUnsigned _ _ e => [e]
  | .emit _ _ _ _ instructions => instructions.flatMap instructionExprs
  | .publicLedger _ _ _ _ _ instructions _ => instructions.flatMap instructionExprs
  | .ret e => [e]
  | _ => []

/-- The types of the form that the loader checks. -/
def Expr.loadedTypes : Expr → List Ty
  | .default ty => [ty.ty]
  | .enumRef ty _ => [ty]
  | .tupleSlice ty _ _ _ => [ty]
  | .vectorRef ty _ _ => [ty]
  | .vectorSlice ty _ _ _ => [ty]
  | .bytesRef ty _ _ => [ty]
  | .bytesSlice ty _ _ _ => [ty]
  | .arith _ ty _ _ => [ty]
  | .equal _ ty _ _ => [ty]
  | .map _ fn _ => fn.types
  | .fold _ fn _ _ _ => fn.types
  | .new ty _ => [ty]
  | .letStar bindings _ => bindings.map (fun b => b.1.ty)
  | .castFromBytes ty _ _ => [ty]
  | .castBetween .safe ty _ _ => [ty]
  | .castBetween _ ty source _ => [ty, source]
  | .castToField _ source _ => [source]
  | .contractCall _ _ contractType _ => [contractType.ty]
  | .emit _ _ _ _ instructions => instructions.flatMap instructionTypes
  | .publicLedger _ _ _ _ resultType instructions _ =>
    resultType :: instructions.flatMap instructionTypes
  | _ => []

/-- The types of the form that the loader does not look at. -/
def Expr.uncheckedTypes : Expr → List Ty
  | .castBetween .safe _ source _ => [source]
  | .contractCall _ _ contractType _ => contractType.resolved.circuits.map Prod.snd
  | _ => []

/-- A condition holds of an expression and of everything that a run reaches below. -/
inductive Everywhere (P : Expr → Prop) : Expr → Prop where
  | intro (e : Expr) (here : P e) (below : ∀ e' ∈ e.children, Everywhere P e') : Everywhere P e

variable {P Q : Expr → Prop}

theorem Everywhere.here {e : Expr} (h : Everywhere P e) : P e := by
  cases h with
  | intro e here _ => exact here

theorem Everywhere.children {e : Expr} (h : Everywhere P e) :
    ∀ e' ∈ e.children, Everywhere P e' := by
  cases h with
  | intro e _ below => exact below

/-- A check that passes on to the parts, under a condition that holds everywhere. -/
theorem Everywhere.of_check (check : Expr → Prop)
    (hstep : ∀ e, check e → P e → Q e ∧ ∀ e' ∈ e.children, check e')
    {e : Expr} (h : Everywhere P e) (hcheck : check e) : Everywhere Q e := by
  induction h with
  | intro e here _ ih =>
    obtain ⟨hq, hchildren⟩ := hstep e hcheck here
    exact .intro e hq (fun e' he' => ih e' he' (hchildren e' he'))

end Reach

section Loaded

/-- What has to hold of a form beyond the check at load: no unknown type, the
unchecked types are those of values, and no default of a ledger type is evaluated. -/
structure Sound (e : Expr) : Prop where
  unchecked : ∀ ty ∈ e.uncheckedTypes, Supported ty
  known : ∀ ty ∈ e.loadedTypes ++ e.uncheckedTypes, holdsUnknown ty = false
  pushed : ∀ name args, .default (.adt name args) ∉ e.children

/-- A form whose types all have values. -/
def NamesValues (e : Expr) : Prop := ∀ ty ∈ e.loadedTypes ++ e.uncheckedTypes, Executable ty

theorem check_seq {a b : Check} :
    ((a >>= fun _ => b) = .ok ()) ↔ a = .ok () ∧ b = .ok () := by
  cases a with
  | error e => exact ⟨fun h => (by cases h), fun h => (by cases h.1)⟩
  | ok u => exact ⟨fun h => ⟨rfl, h⟩, fun h => h.2⟩

theorem checkType_ok {ty : Ty} : checkType ty = .ok () ↔ Supported ty := by
  unfold checkType Supported
  cases unsupportedType ty with
  | none => simp
  | some what => simp [unsupported]

theorem checkArguments_ok {arguments : List Argument} :
    checkArguments arguments = .ok () ↔ ∀ a ∈ arguments, Supported a.ty := by
  induction arguments with
  | nil => simp [checkArguments]
  | cons a arguments ih => simp only [checkArguments, check_seq, checkType_ok, ih,
      List.forall_mem_cons]

theorem checkEach_ok {es : List Expr} :
    checkEach es = .ok () ↔ ∀ e ∈ es, checkExpr e = .ok () := by
  induction es with
  | nil => simp [checkEach]
  | cons e es ih => simp only [checkEach, check_seq, ih, List.forall_mem_cons]

theorem checkTupleArgs_ok {args : List TupleArg} :
    checkTupleArgs args = .ok () ↔ ∀ e ∈ args.map TupleArg.expr, checkExpr e = .ok () := by
  induction args with
  | nil => simp [checkTupleArgs]
  | cons a args ih =>
    cases a with
    | single e =>
      simp only [checkTupleArgs, check_seq, ih, List.map_cons, TupleArg.expr, List.forall_mem_cons]
    | spread len e =>
      simp only [checkTupleArgs, check_seq, ih, List.map_cons, TupleArg.expr, List.forall_mem_cons]

theorem checkMapArgs_ok {args : List MapArg} :
    checkMapArgs args = .ok () ↔ ∀ e ∈ args.map MapArg.expr, checkExpr e = .ok () := by
  induction args with
  | nil => simp [checkMapArgs]
  | cons a args ih =>
    cases a with
    | mk e ty elementTy =>
      simp only [checkMapArgs, check_seq, ih, List.map_cons, MapArg.expr, List.forall_mem_cons]

theorem checkFun_ok {fn : Fun} (h : checkFun fn = .ok ()) :
    (∀ ty ∈ fn.types, Supported ty) ∧ ∀ e ∈ fn.bodies, checkExpr e = .ok () := by
  cases fn with
  | ref id => exact ⟨List.forall_mem_nil _, List.forall_mem_nil _⟩
  | circuit arguments resultType body =>
    simp only [checkFun, check_seq, checkType_ok, checkArguments_ok] at h
    obtain ⟨harguments, hresult, hbody⟩ := h
    exact ⟨List.forall_mem_cons.mpr ⟨hresult, List.forall_mem_map.mpr harguments⟩,
      List.forall_mem_singleton.mpr hbody⟩

theorem checkBindings_ok {bindings : List (Argument × Expr)}
    (h : checkBindings bindings = .ok ()) :
    (∀ ty ∈ bindings.map (fun b => b.1.ty), Supported ty) ∧
      ∀ e ∈ bindings.map Prod.snd, checkExpr e = .ok () := by
  induction bindings with
  | nil => exact ⟨List.forall_mem_nil _, List.forall_mem_nil _⟩
  | cons binding bindings ih =>
    simp only [checkBindings, check_seq, checkType_ok] at h
    obtain ⟨hty, hvalue, hrest⟩ := h
    exact ⟨List.forall_mem_cons.mpr ⟨hty, (ih hrest).1⟩,
      List.forall_mem_cons.mpr ⟨hvalue, (ih hrest).2⟩⟩

/-- The default of a ledger type, which the check lets pass in some operands. -/
def LedgerDefault (e : Expr) : Prop := ∃ name args, e = .default (.adt name args)

def Checked (e : Expr) : Prop := checkExpr e = .ok () ∨ LedgerDefault e

/-- What the check of operands says of their types and expressions. -/
structure OperandsChecked (types : List Ty) (aligned pushed : List Expr) : Prop where
  types : ∀ ty ∈ types, Supported ty
  aligned : ∀ e ∈ aligned, Checked e
  pushed : ∀ e ∈ pushed, Checked e

theorem operandsChecked_nil : OperandsChecked [] [] [] :=
  ⟨List.forall_mem_nil _, List.forall_mem_nil _, List.forall_mem_nil _⟩

theorem OperandsChecked.append {types types' : List Ty} {aligned aligned' pushed pushed' : List Expr}
    (h : OperandsChecked types aligned pushed) (h' : OperandsChecked types' aligned' pushed') :
    OperandsChecked (types ++ types') (aligned ++ aligned') (pushed ++ pushed') :=
  ⟨List.forall_mem_append.mpr ⟨h.types, h'.types⟩,
    List.forall_mem_append.mpr ⟨h.aligned, h'.aligned⟩,
    List.forall_mem_append.mpr ⟨h.pushed, h'.pushed⟩⟩

/-- An operand that is not a container is pushed by its aligned value. -/
theorem OperandsChecked.scalar {types : List Ty} {aligned pushed : List Expr}
    (h : OperandsChecked types aligned pushed) : OperandsChecked types aligned aligned :=
  ⟨h.types, h.aligned, h.aligned⟩

theorem pushedAdt_eq {x : Operand} {ty : NamedTy} (h : ∀ name args, ty ≠ .adt name args) :
    pushedAdt x ty = alignedExprs x := by
  unfold pushedAdt
  split
  · exact absurd rfl (h _ _)
  · rfl

theorem OperandsChecked.wrapped {types : List Ty} {aligned pushed pushed' : List Expr}
    (h : OperandsChecked types aligned pushed) (heq : pushed' = aligned) :
    OperandsChecked types aligned pushed' :=
  ⟨h.types, h.aligned, heq ▸ h.aligned⟩

theorem sameNamed_adt {d : NamedTy} {name : String} {args : List AdtArg}
    (h : sameNamed d (.adt name args) = true) : ∃ name' args', d = .adt name' args' := by
  cases d with
  | adt name' args' => exact ⟨name', args', rfl⟩
  | _ => cases h

mutual

theorem checkOperand_parts : ∀ o, checkOperand o = .ok () →
    OperandsChecked (operandTypes o) (alignedExprs o) (pushedExprs o)
  | .expr e, h => by
    have hmem : ∀ e' ∈ [e], Checked e' := List.forall_mem_singleton.mpr (.inl h)
    exact ⟨List.forall_mem_nil _, hmem, hmem⟩
  | .valueToInt x, h => (checkOperand_parts x h).scalar
  | .leafHash x, h => (checkOperand_parts x h).scalar
  | .null ty, h =>
    ⟨List.forall_mem_singleton.mpr (checkType_ok.mp h), List.forall_mem_nil _,
      List.forall_mem_nil _⟩
  | .maxSizeof ty, h =>
    ⟨List.forall_mem_singleton.mpr (checkType_ok.mp h), List.forall_mem_nil _,
      List.forall_mem_nil _⟩
  | .coinCommit _ _, _ => operandsChecked_nil
  | .add x y, h => by
    simp only [checkOperand, check_seq] at h
    have hx := checkOperand_parts x h.1
    have hy := checkOperand_parts y h.2
    exact ⟨(hx.append hy).types, List.forall_mem_nil _, List.forall_mem_nil _⟩
  | .alignedConcat parts, h => (checkOperands_parts parts h).scalar
  | .list items, h => ⟨(checkOperands_parts items h).types, List.forall_mem_nil _,
      List.forall_mem_nil _⟩
  | .stateValue value, h => checkStateValue_parts value h
  | .int _, _ => operandsChecked_nil
  | .bool _, _ => operandsChecked_nil
  | .str _, _ => operandsChecked_nil
  | .align _ _, _ => operandsChecked_nil
  | .stack, _ => operandsChecked_nil
  | .void, _ => operandsChecked_nil

theorem checkStateValue_parts : ∀ value, checkStateValue value = .ok () →
    OperandsChecked (stateTypes value) (stateExprs value) (pushedState value)
  | .null, _ => operandsChecked_nil
  | .cell x, h => (checkOperand_parts x h).scalar
  | .adt x ty, h => by
    cases ty with
    | adt name args =>
      unfold checkStateValue at h
      split at h
      · rename_i d
        split at h
        · rename_i hsame
          obtain ⟨name', args', rfl⟩ := sameNamed_adt hsame
          exact ⟨List.forall_mem_nil _,
            List.forall_mem_singleton.mpr (.inr ⟨name', args', rfl⟩), List.forall_mem_nil _⟩
        · cases h
      · cases h
    | value ty =>
      simp only [checkStateValue, check_seq] at h
      exact (checkOperand_parts x h.1).wrapped (pushedAdt_eq (fun _ _ h => by cases h))
    | contract name circuits =>
      simp only [checkStateValue, check_seq] at h
      exact (checkOperand_parts x h.1).wrapped (pushedAdt_eq (fun _ _ h => by cases h))
    | aliasOf nominal name ty =>
      simp only [checkStateValue, check_seq] at h
      exact (checkOperand_parts x h.1).wrapped (pushedAdt_eq (fun _ _ h => by cases h))
  | .array elements, h =>
    ⟨(checkOperands_parts elements h).types, List.forall_mem_nil _,
      (checkOperands_parts elements h).pushed⟩
  | .map entries, h => checkEntries_parts entries h
  | .merkleTree _ _, _ => operandsChecked_nil

theorem checkOperands_parts : ∀ xs, checkOperands xs = .ok () →
    OperandsChecked (operandTypesEach xs) (alignedExprsEach xs) (pushedExprsEach xs)
  | [], _ => operandsChecked_nil
  | x :: xs, h => by
    simp only [checkOperands, check_seq] at h
    exact (checkOperand_parts x h.1).append (checkOperands_parts xs h.2)

theorem checkEntries_parts : ∀ entries, checkEntries entries = .ok () →
    OperandsChecked (entryTypes entries) [] (pushedEntries entries)
  | [], _ => operandsChecked_nil
  | (k, v) :: entries, h => by
    simp only [checkEntries, check_seq] at h
    have hk := checkOperand_parts k h.1
    have hv := checkOperand_parts v h.2.1
    have hrest := checkEntries_parts entries h.2.2
    exact ⟨((hk.append hv).append hrest).types, List.forall_mem_nil _,
      ((hk.scalar.append hv).append hrest).pushed⟩

end

theorem alignedExprsEach_eq (xs : List Operand) :
    alignedExprsEach xs = xs.flatMap alignedExprs := by
  induction xs with
  | nil => rfl
  | cons x xs ih => rw [alignedExprsEach, ih, List.flatMap_cons]

theorem instruction_parts {i : Instruction} (h : ∀ a ∈ i.args, checkOperand a.2 = .ok ()) :
    (∀ ty ∈ instructionTypes i, Supported ty) ∧ ∀ e ∈ instructionExprs i, Checked e := by
  have harg : ∀ {name o}, i.arg name = some o → checkOperand o = .ok () := by
    intro name o ho
    obtain ⟨_, _, heq, -⟩ := List.lookup_eq_some_iff.mp ho
    exact h (name, o) (by rw [heq]; exact List.mem_append_right _ List.mem_cons_self)
  have hexprs : ∀ {name} {f : Operand → List Expr},
      (∀ o, checkOperand o = .ok () → ∀ e ∈ f o, Checked e) →
      ∀ e ∈ (i.arg name).toList.flatMap f, Checked e := by
    intro name f hf e he
    obtain ⟨o, ho, he⟩ := List.mem_flatMap.mp he
    exact hf o (harg (Option.mem_toList.mp ho)) e he
  refine ⟨fun ty hty => ?_, ?_⟩
  · obtain ⟨a, ha, hty⟩ := List.mem_flatMap.mp hty
    exact (checkOperand_parts a.2 (h a ha)).types ty hty
  · unfold instructionExprs
    split
    · split
      · rename_i path hpath
        have hlist : checkOperands path = .ok () := harg hpath
        intro e he
        obtain ⟨o, ho, he⟩ := List.mem_flatMap.mp he
        refine (checkOperands_parts path hlist).aligned e ?_
        rw [alignedExprsEach_eq]
        exact List.mem_flatMap.mpr ⟨o, ho, he⟩
      · exact List.forall_mem_nil _
    · exact hexprs (fun o ho => (checkOperand_parts o ho).pushed)
    · exact hexprs (fun o ho => (checkOperand_parts o ho).aligned)
    · exact hexprs (fun o ho => (checkOperand_parts o ho).aligned)
    · exact List.forall_mem_nil _

theorem checkInstructions_ok {instructions : List Instruction}
    (h : checkInstructions instructions = .ok ()) :
    (∀ ty ∈ instructions.flatMap instructionTypes, Supported ty) ∧
      ∀ e ∈ instructions.flatMap instructionExprs, Checked e := by
  have hargs : ∀ args, checkInstructionArgs args = .ok () →
      ∀ a ∈ args, checkOperand a.2 = .ok () := by
    intro args
    induction args with
    | nil => exact fun _ => List.forall_mem_nil _
    | cons a args ih =>
      intro h
      simp only [checkInstructionArgs, check_seq] at h
      exact List.forall_mem_cons.mpr ⟨h.1, ih h.2⟩
  induction instructions with
  | nil => exact ⟨List.forall_mem_nil _, List.forall_mem_nil _⟩
  | cons i instructions ih =>
    cases i with
    | mk op args =>
      simp only [checkInstructions, check_seq] at h
      have hhead := instruction_parts (i := .mk op args) (hargs args h.1)
      exact ⟨List.forall_mem_append.mpr ⟨hhead.1, (ih h.2).1⟩,
        List.forall_mem_append.mpr ⟨hhead.2, (ih h.2).2⟩⟩

/-- What the loader's check of a form says of its types and of the parts that a run
evaluates. -/
theorem checkExpr_parts {e : Expr} (h : checkExpr e = .ok ()) :
    (∀ ty ∈ e.loadedTypes, Supported ty) ∧ ∀ e' ∈ e.children, Checked e' := by
  have hnone : ∀ ty ∈ ([] : List Ty), Supported ty := List.forall_mem_nil _
  have hall : ∀ {es : List Expr}, (∀ e' ∈ es, checkExpr e' = .ok ()) → ∀ e' ∈ es, Checked e' :=
    fun hes e' he' => .inl (hes e' he')
  cases e with
  | quote literal => exact ⟨hnone, List.forall_mem_nil _⟩
  | varRef id => exact ⟨hnone, List.forall_mem_nil _⟩
  | default ty => exact ⟨List.forall_mem_singleton.mpr (checkType_ok.mp h), List.forall_mem_nil _⟩
  | enumRef ty elt =>
    exact ⟨List.forall_mem_singleton.mpr (checkType_ok.mp h), List.forall_mem_nil _⟩
  | ite cond thn els =>
    simp only [checkExpr, check_seq] at h
    exact ⟨hnone, hall (by simp [Expr.children, h])⟩
  | eltRef e elt index => exact ⟨hnone, hall (List.forall_mem_singleton.mpr h)⟩
  | tuple vector args => exact ⟨hnone, hall (checkTupleArgs_ok.mp h)⟩
  | tupleRef e index => exact ⟨hnone, hall (List.forall_mem_singleton.mpr h)⟩
  | tupleSlice ty e index len =>
    simp only [checkExpr, check_seq, checkType_ok] at h
    exact ⟨List.forall_mem_singleton.mpr h.1, hall (List.forall_mem_singleton.mpr h.2)⟩
  | vectorRef ty e index =>
    simp only [checkExpr, check_seq, checkType_ok] at h
    exact ⟨List.forall_mem_singleton.mpr h.1, hall (by simp [Expr.children, h])⟩
  | vectorSlice ty e index len =>
    simp only [checkExpr, check_seq, checkType_ok] at h
    exact ⟨List.forall_mem_singleton.mpr h.1, hall (by simp [Expr.children, h])⟩
  | bytesRef ty e index =>
    simp only [checkExpr, check_seq, checkType_ok] at h
    exact ⟨List.forall_mem_singleton.mpr h.1, hall (by simp [Expr.children, h])⟩
  | bytesSlice ty e index len =>
    simp only [checkExpr, check_seq, checkType_ok] at h
    exact ⟨List.forall_mem_singleton.mpr h.1, hall (by simp [Expr.children, h])⟩
  | arith op ty left right =>
    simp only [checkExpr, check_seq, checkType_ok] at h
    exact ⟨List.forall_mem_singleton.mpr h.1, hall (by simp [Expr.children, h])⟩
  | compare op bits left right =>
    simp only [checkExpr, check_seq] at h
    exact ⟨hnone, hall (by simp [Expr.children, h])⟩
  | equal negated ty left right =>
    simp only [checkExpr, check_seq, checkType_ok] at h
    exact ⟨List.forall_mem_singleton.mpr h.1, hall (by simp [Expr.children, h])⟩
  | map len fn args =>
    simp only [checkExpr, check_seq] at h
    obtain ⟨htypes, hbodies⟩ := checkFun_ok h.1
    exact ⟨htypes, hall (List.forall_mem_append.mpr ⟨hbodies, checkMapArgs_ok.mp h.2⟩)⟩
  | fold len fn init initTy args =>
    simp only [checkExpr, check_seq] at h
    obtain ⟨htypes, hbodies⟩ := checkFun_ok h.1
    exact ⟨htypes, hall (List.forall_mem_cons.mpr ⟨h.2.1,
      List.forall_mem_append.mpr ⟨hbodies, checkMapArgs_ok.mp h.2.2⟩⟩)⟩
  | call name args => exact ⟨hnone, hall (checkEach_ok.mp h)⟩
  | new ty elements =>
    simp only [checkExpr, check_seq, checkType_ok] at h
    exact ⟨List.forall_mem_singleton.mpr h.1, hall (checkEach_ok.mp h.2)⟩
  | seq items => exact ⟨hnone, hall (checkEach_ok.mp h)⟩
  | letStar bindings body =>
    simp only [checkExpr, check_seq] at h
    obtain ⟨htypes, hvalues⟩ := checkBindings_ok h.1
    exact ⟨htypes, hall (List.forall_mem_cons.mpr ⟨h.2, hvalues⟩)⟩
  | assert e message => exact ⟨hnone, hall (List.forall_mem_singleton.mpr h)⟩
  | fieldToBytes len fieldType e => exact ⟨hnone, hall (List.forall_mem_singleton.mpr h)⟩
  | castFromBytes ty len e =>
    simp only [checkExpr, check_seq, checkType_ok] at h
    exact ⟨List.forall_mem_singleton.mpr h.1, hall (List.forall_mem_singleton.mpr h.2)⟩
  | vectorToBytes len e => exact ⟨hnone, hall (List.forall_mem_singleton.mpr h)⟩
  | bytesToVector len e => exact ⟨hnone, hall (List.forall_mem_singleton.mpr h)⟩
  | castBetween kind ty source e =>
    simp only [checkExpr, check_seq, checkType_ok] at h
    cases kind with
    | safe => exact ⟨List.forall_mem_singleton.mpr h.1, hall (List.forall_mem_singleton.mpr h.2)⟩
    | fromEnum =>
      obtain ⟨hty, hsource, he⟩ := And.imp_right check_seq.mp h
      exact ⟨by simp [Expr.loadedTypes, hty, checkType_ok.mp hsource],
        hall (List.forall_mem_singleton.mpr he)⟩
    | toEnum =>
      obtain ⟨hty, hsource, he⟩ := And.imp_right check_seq.mp h
      exact ⟨by simp [Expr.loadedTypes, hty, checkType_ok.mp hsource],
        hall (List.forall_mem_singleton.mpr he)⟩
  | castToField fieldType source e =>
    simp only [checkExpr, check_seq, checkType_ok] at h
    exact ⟨List.forall_mem_singleton.mpr h.1, hall (List.forall_mem_singleton.mpr h.2)⟩
  | castFromField maxval fieldType e => exact ⟨hnone, hall (List.forall_mem_singleton.mpr h)⟩
  | downcastUnsigned m n e => exact ⟨hnone, hall (List.forall_mem_singleton.mpr h)⟩
  | contractCall circuit receiver contractType args =>
    simp only [checkExpr, check_seq, checkType_ok] at h
    exact ⟨List.forall_mem_singleton.mpr h.1, List.forall_mem_nil _⟩
  | emit version tag len payload instructions =>
    simp only [checkExpr, check_seq] at h
    exact checkInstructions_ok h.2
  | publicLedger field opClass path op resultType instructions args =>
    cases opClass with
    | coinCheck name coin recipient => cases h
    | plain name =>
      simp only [checkExpr, check_seq, checkType_ok] at h
      obtain ⟨hresult, -, -, hinstructions⟩ := h
      obtain ⟨htypes, hexprs⟩ := checkInstructions_ok hinstructions
      exact ⟨List.forall_mem_cons.mpr ⟨hresult, htypes⟩, hexprs⟩
  | ret e => exact ⟨hnone, hall (List.forall_mem_singleton.mpr h)⟩

/-- What the loader accepts names types of values everywhere, but for what it does
not look at. -/
theorem checkExpr_namesValues {e : Expr} (h : Everywhere Sound e) (hcheck : checkExpr e = .ok ()) :
    Everywhere NamesValues e := by
  refine h.of_check (fun e => checkExpr e = .ok ()) (fun e hcheck hsound => ?_) hcheck
  obtain ⟨hloaded, hchildren⟩ := checkExpr_parts hcheck
  refine ⟨fun ty hty => (executable_iff ty).mpr ⟨?_, hsound.known ty hty⟩, fun e' he' => ?_⟩
  · rcases List.mem_append.mp hty with hty | hty
    · exact hloaded ty hty
    · exact hsound.unchecked ty hty
  · rcases hchildren e' he' with hok | ⟨name, args, rfl⟩
    · exact hok
    · exact absurd he' (hsound.pushed name args)

end Loaded

end MidnightRs.Circuits
