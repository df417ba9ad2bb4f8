import MidnightRs.Congruences

/-!
The locals of a run. A run reads the locals whose names occur in the expression or in
a circuit of the program, so two environments that agree on these give one outcome;
and a call gives the caller's locals back, also when its body fails. A name that only
a called circuit binds is among the names that are read: the type of a let* is
inferred before its bindings are there.
-/
namespace MidnightRs.Circuits

open MidnightRs.Compact Triples Pairs

section Names

/-- The names that a form binds. -/
def Expr.binders : Expr → List Ident
  | .letStar bindings _ => bindings.map (fun b => b.1.name)
  | .map _ (.circuit arguments _ _) _ => arguments.map Argument.name
  | .fold _ (.circuit arguments _ _) _ _ _ => arguments.map Argument.name
  | _ => []

/-- The name is read somewhere in the expression. -/
inductive Occurs (id : Ident) : Expr → Prop where
  | varRef : Occurs id (.varRef id)
  | part (e e' : Expr) (h : e' ∈ e.children) (hoccurs : Occurs id e') : Occurs id e

/-- The name is read where no form of the expression binds it. -/
inductive Free (id : Ident) : Expr → Prop where
  | varRef : Free id (.varRef id)
  | part (e e' : Expr) (h : e' ∈ e.children) (hscope : id ∉ e.binders) (hfree : Free id e') :
      Free id e

inductive Binds (id : Ident) : Expr → Prop where
  | here (e : Expr) (h : id ∈ e.binders) : Binds id e
  | part (e e' : Expr) (h : e' ∈ e.children) (hbinds : Binds id e') : Binds id e

theorem Occurs.free_or_binds {id : Ident} {e : Expr} (h : Occurs id e) : Free id e ∨ Binds id e := by
  induction h with
  | varRef => exact .inl .varRef
  | part e e' hmem _ ih =>
    by_cases hscope : id ∈ e.binders
    · exact .inr (.here e hscope)
    · rcases ih with hfree | hbinds
      · exact .inl (.part e e' hmem hscope hfree)
      · exact .inr (.part e e' hmem hbinds)

/-- The expression reads names of the set only. -/
def NamesIn (names : Set Ident) (e : Expr) : Prop := ∀ id, Occurs id e → id ∈ names

theorem NamesIn.parts {names : Set Ident} {e : Expr} (h : NamesIn names e) :
    ∀ e' ∈ e.children, NamesIn names e' :=
  fun e' he' id hid => h id (.part e e' he' hid)

end Names

section Inference

variable (program : Program) {names : Set Ident} {types types' : Ident → Option Ty}
  (htypes : ∀ id ∈ names, types id = types' id)
include htypes

set_option linter.unusedSectionVars false in
mutual

/-- Inference looks at the types of the names that occur. -/
theorem infer_congr : ∀ e, NamesIn names e → infer program types e = infer program types' e
  | .varRef id, h => htypes id (h id .varRef)
  | .quote (.bool _), _ => rfl
  | .quote (.int _), _ => rfl
  | .quote (.bytes _), _ => rfl
  | .call _ _, _ => rfl
  | .publicLedger _ _ _ _ _ _ _, _ => rfl
  | .new _ _, _ => rfl
  | .default _, _ => rfl
  | .equal _ _ _ _, _ => rfl
  | .compare _ _ _ _, _ => rfl
  | .arith _ _ _ _, _ => rfl
  | .ite _ thn _, h => infer_congr thn (h.parts thn (by simp [Expr.children]))
  | .letStar _ body, h => infer_congr body (h.parts body List.mem_cons_self)
  | .seq items, h => inferLast_congr items h.parts
  | .ret e, h => infer_congr e (h.parts e List.mem_cons_self)
  | .tuple _ args, h => by
    rw [infer, infer, inferArgs_congr args h.parts]
  | .tupleRef e _, h => by
    rw [infer, infer, infer_congr e (h.parts e List.mem_cons_self)]
  | .vectorRef _ e _, h => by
    rw [infer, infer, infer_congr e (h.parts e List.mem_cons_self)]
  | .eltRef e _ _, h => by
    rw [infer, infer, infer_congr e (h.parts e List.mem_cons_self)]
  | .assert _ _, _ => rfl
  | .emit _ _ _ _ _, _ => rfl
  | .fieldToBytes _ _ _, _ => rfl
  | .vectorToBytes _ _, _ => rfl
  | .bytesToVector _ _, _ => rfl
  | .castFromBytes _ _ _, _ => rfl
  | .castBetween _ _ _ _, _ => rfl
  | .castToField _ _ _, _ => rfl
  | .castFromField _ _ _, _ => rfl
  | .downcastUnsigned _ _ _, _ => rfl
  | .enumRef _ _, _ => rfl
  | .tupleSlice _ _ _ _, _ => rfl
  | .vectorSlice _ _ _ _, _ => rfl
  | .bytesSlice _ _ _ _, _ => rfl
  | .bytesRef _ _ _, _ => rfl
  | .fold _ _ init _ _, h => infer_congr init (h.parts init List.mem_cons_self)
  | .map _ _ _, _ => rfl
  | .contractCall _ _ _ _, _ => rfl

theorem inferLast_congr : ∀ es, (∀ e ∈ es, NamesIn names e) →
    inferLast program types es = inferLast program types' es
  | [], _ => rfl
  | [e], h => infer_congr e (h e List.mem_cons_self)
  | _ :: e :: es, h => inferLast_congr (e :: es) (List.forall_mem_cons.mp h).2

theorem inferArgs_congr : ∀ args, (∀ e ∈ args.map TupleArg.expr, NamesIn names e) →
    inferArgs program types args = inferArgs program types' args
  | [], _ => rfl
  | .single e :: args, h => by
    obtain ⟨he, hargs⟩ := List.forall_mem_cons.mp h
    rw [inferArgs, inferArgs, infer_congr e he, inferArgs_congr args hargs]
  | .spread _ e :: args, h => by
    obtain ⟨he, hargs⟩ := List.forall_mem_cons.mp h
    rw [inferArgs, inferArgs, infer_congr e he, inferArgs_congr args hargs]

end

end Inference

section Agreement

variable {vm : Vm}

/-- The same but for the locals. -/
def SameBut (ctx ctx' : ExecContext vm) : Prop :=
  ∃ locals localTypes, ctx = { ctx' with locals := locals, localTypes := localTypes }

/-- The same but for the locals of other names. -/
structure AgreeOn (names : Set Ident) (ctx ctx' : ExecContext vm) : Prop where
  locals : ∀ id ∈ names, ctx.locals id = ctx'.locals id
  localTypes : ∀ id ∈ names, ctx.localTypes id = ctx'.localTypes id
  rest : SameBut ctx ctx'

variable {names : Set Ident}

theorem paired_sameBut {α : Type} {x x' : Except Halt (α × ExecContext vm)}
    (h : Paired (AgreeOn names) x x') : Paired SameBut x x' := by
  match x, x', h with
  | .ok (_, _), .ok (_, _), ⟨ha, hctx⟩ => exact ⟨ha, hctx.rest⟩
  | .error _, .error _, he => exact he

/-- An update of the other fields keeps the agreement. -/
theorem inStep_update {f : ExecContext vm → ExecContext vm}
    (hlocals : ∀ ctx, (f ctx).locals = ctx.locals)
    (htypes : ∀ ctx, (f ctx).localTypes = ctx.localTypes)
    (hrest : ∀ ctx locals localTypes, SameBut
      (f { ctx with locals := locals, localTypes := localTypes }) (f ctx)) :
    InStep (AgreeOn names) (modify f : Exec vm Unit) (modify f) := by
  refine inStep_modify (fun ctx ctx' h => ⟨fun id hid => ?_, fun id hid => ?_, ?_⟩)
  · rw [hlocals, hlocals]
    exact h.locals id hid
  · rw [htypes, htypes]
    exact h.localTypes id hid
  · obtain ⟨locals, localTypes, rfl⟩ := h.rest
    exact hrest ctx' locals localTypes

variable {program : Program} {env : Env vm}

theorem inStep_bindLocal (id : Ident) (v : Value) (ty : Ty) :
    InStep (AgreeOn names) (bindLocal id v ty : Exec vm Unit) (bindLocal id v ty) := by
  refine inStep_modify (fun ctx ctx' h => ⟨fun id' hid' => ?_, fun id' hid' => ?_, ?_⟩)
  · simp only [Function.update_apply, h.locals id' hid']
  · simp only [Function.update_apply, h.localTypes id' hid']
  · obtain ⟨locals, localTypes, rfl⟩ := h.rest
    exact ⟨_, _, rfl⟩

theorem enclosed_run {α : Type} (m : Exec vm α) (ctx : ExecContext vm) :
    (enclosed m).run ctx = (m.run ctx).map (fun r =>
      (r.1, { r.2 with locals := ctx.locals, localTypes := ctx.localTypes })) := by
  change (m.run ctx >>= fun r => (Except.ok _ : Except Halt (α × ExecContext vm))) = _
  cases m.run ctx <;> rfl

theorem inStep_enclosed {α : Type} {m m' : Exec vm α} (h : InStep (AgreeOn names) m m') :
    InStep (AgreeOn names) (enclosed m) (enclosed m') := by
  intro ctx ctx' hctx
  have hpair := h ctx ctx' hctx
  rw [enclosed_run, enclosed_run]
  match m.run ctx, m'.run ctx', hpair with
  | .error _, .error _, he => exact he
  | .ok (a, t), .ok (_, t'), ⟨ha, ht⟩ =>
    obtain ⟨locals, localTypes, hrest⟩ := ht.rest
    exact ⟨ha, hctx.locals, hctx.localTypes, ctx.locals, ctx.localTypes, by rw [hrest]⟩

theorem inStep_runQuery (ops : List (Op vm.State)) :
    InStep (AgreeOn names) (runQuery env ops) (runQuery env ops) := by
  refine inStep_congruence.seq (inStep_update (fun _ => rfl) (fun _ => rfl)
    (fun _ _ _ => ⟨_, _, rfl⟩)) (fun _ => inStep_get (fun ctx ctx' h => ?_))
  obtain ⟨locals, localTypes, hctx⟩ := h.rest
  have hstate : ctx.state = ctx'.state := by rw [hctx]
  rw [hstate]
  refine inStep_congruence.seq (inStep_congruence.of_lift _) (fun answer => ?_) ctx ctx' h
  refine inStep_congruence.seq (inStep_update (fun _ => rfl) (fun _ => rfl)
    (fun _ _ _ => ⟨_, _, rfl⟩)) (fun _ => ?_)
  split
  · exact inStep_congruence.value _
  · exact inStep_congruence.value _

theorem inStep_respects :
    Respects program env (NamesIn names) (InStep (AgreeOn names)) where
  toCongruence := inStep_congruence
  parts _ h := h.parts
  local_value id h := inStep_get (fun _ _ hctx => ⟨hctx.locals id (h id .varRef), hctx⟩)
  infer_here e h := inStep_get (fun _ _ hctx =>
    ⟨infer_congr program hctx.localTypes e h, hctx⟩)
  bind_local := inStep_bindLocal
  scope := inStep_enclosed
  query := inStep_runQuery

variable (program env) in
theorem inStep_evalWitnessCall (id : Ident) (values : List Value) :
    InStep (AgreeOn names) (evalWitnessCall program env id values)
      (evalWitnessCall program env id values) := by
  have hupdate : ∀ {f : ExecContext vm → ExecContext vm} (v : Value),
      (∀ ctx, (f ctx).locals = ctx.locals) → (∀ ctx, (f ctx).localTypes = ctx.localTypes) →
      (∀ ctx locals localTypes, SameBut
        (f { ctx with locals := locals, localTypes := localTypes }) (f ctx)) →
      InStep (AgreeOn names) (modify f >>= fun _ => pure v : Exec vm Value)
        (modify f >>= fun _ => pure v) := fun v hlocals htypes hrest =>
    inStep_congruence.seq (inStep_update hlocals htypes hrest) (fun _ => inStep_congruence.value v)
  unfold evalWitnessCall
  dsimp only
  split
  · split
    · exact hupdate _ (fun _ => rfl) (fun _ => rfl) (fun _ _ _ => ⟨_, _, rfl⟩)
    · exact inStep_congruence.error _
  · split
    · exact hupdate _ (fun _ => rfl) (fun _ => rfl) (fun _ _ _ => ⟨_, _, rfl⟩)
    · exact inStep_congruence.error _
  · split
    · exact inStep_congruence.error _
    · exact hupdate _ (fun _ => rfl) (fun _ => rfl) (fun _ _ _ => ⟨_, _, rfl⟩)
  · refine inStep_get (fun ctx ctx' h => ?_)
    have hprivate : ctx.privateState = ctx'.privateState := by
      obtain ⟨locals, localTypes, hctx⟩ := h.rest
      rw [hctx]
    rw [hprivate]
    refine inStep_congruence.seq (inStep_congruence.of_lift _) (fun answer => ?_) ctx ctx' h
    refine inStep_congruence.seq (inStep_update (fun _ => rfl) (fun _ => rfl)
      (fun _ _ _ => ⟨_, _, rfl⟩)) (fun _ => ?_)
    split
    · exact inStep_congruence.error _
    · exact inStep_congruence.seq (inStep_congruence.of_lift _) (fun _ =>
        hupdate _ (fun _ => rfl) (fun _ => rfl) (fun _ _ _ => ⟨_, _, rfl⟩))

end Agreement

section Calls

variable {vm : Vm} (eval : Expr → Exec vm Value)

/-- A computation that keeps its context when it fails, as a mutable one does. -/
abbrev Kept (vm : Vm) (α : Type) : Type := ExecContext vm → Except Halt α × ExecContext vm

/-- What the caller of a computation sees, if it stops at the first failure. -/
def Kept.drop {α : Type} (m : Kept vm α) : Exec vm α := fun ctx =>
  match m ctx with
  | (.ok a, ctx') => .ok (a, ctx')
  | (.error halt, _) => .error halt

/-- A call on a mutable context: the parameters are bound, the body runs, and the
locals come back whatever the body ended in. -/
def callCircuitKept (run : Expr → Kept vm Value) (params : List Argument) (body : Expr)
    (args : List Value) : Kept vm Value := fun ctx =>
  if params.length ≠ args.length then
    (.error (.error
      (.typeError s!"callee takes {params.length} parameters but got {args.length} arguments")), ctx)
  else
    match (do checkParams params; bindLocals (params.zip args) : Exec vm Unit).run ctx with
    | .error halt => (.error halt, ctx)
    | .ok (_, bound) =>
      let (outcome, after) := run body bound
      (outcome, { after with locals := ctx.locals, localTypes := ctx.localTypes })

/-- A call leaves the caller's locals as they were, whether it succeeds or fails. -/
theorem callCircuitKept_locals (run : Expr → Kept vm Value) (params : List Argument) (body : Expr)
    (args : List Value) (ctx : ExecContext vm) :
    (callCircuitKept run params body args ctx).2.locals = ctx.locals ∧
      (callCircuitKept run params body args ctx).2.localTypes = ctx.localTypes := by
  unfold callCircuitKept
  split
  · exact ⟨rfl, rfl⟩
  · split
    · exact ⟨rfl, rfl⟩
    · exact ⟨rfl, rfl⟩

/-- The checks of the parameters do not touch the context. -/
theorem checkParams_run (params : List Argument) (ctx : ExecContext vm) :
    (∃ halt, (checkParams params).run ctx = .error halt) ∨
      (checkParams params).run ctx = .ok ((), ctx) := by
  induction params with
  | nil => exact .inr rfl
  | cons param params ih =>
    unfold checkParams checkTypeAtRun
    cases unsupportedType param.ty with
    | none => exact ih
    | some what => exact .inl ⟨_, rfl⟩

variable {eval}

theorem callCircuitKept_drop {run : Expr → Kept vm Value} (hrun : ∀ e, (run e).drop = eval e)
    (params : List Argument) (body : Expr) (args : List Value) :
    Kept.drop (callCircuitKept run params body args) = callCircuit eval params body args := by
  funext ctx
  unfold Kept.drop callCircuitKept
  rw [callCircuit_eq]
  by_cases hlen : params.length ≠ args.length
  · rw [if_pos hlen, if_pos hlen]
    rfl
  · rw [if_neg hlen, if_neg hlen]
    have hcall : (do
        checkParams params
        enclosed (do
          bindLocals (params.zip args)
          eval body) : Exec vm Value) ctx =
        match (do checkParams params; bindLocals (params.zip args) : Exec vm Unit).run ctx with
        | .error halt => .error halt
        | .ok (_, bound) => ((eval body).run bound).map (fun r =>
          (r.1, { r.2 with locals := ctx.locals, localTypes := ctx.localTypes })) := by
      change ((checkParams params).run ctx >>= fun r => (enclosed (do
          bindLocals (params.zip args)
          eval body)).run r.2) =
        match (checkParams params).run ctx >>= fun r => (bindLocals (params.zip args)).run r.2 with
        | .error halt => .error halt
        | .ok (_, bound) => _
      rcases checkParams_run params ctx with ⟨halt, hfails⟩ | hpasses
      · rw [hfails]
        rfl
      · rw [hpasses]
        change (enclosed _).run ctx = match (bindLocals (params.zip args)).run ctx with
          | .error halt => .error halt
          | .ok (_, bound) => _
        rw [enclosed_run, StateT.run_bind]
        cases (bindLocals (params.zip args)).run ctx <;> rfl
    rw [hcall]
    cases (do checkParams params; bindLocals (params.zip args) : Exec vm Unit).run ctx with
    | error halt => rfl
    | ok r =>
      rw [← hrun]
      dsimp only [Kept.drop, StateT.run]
      cases run body r.2 with
      | mk outcome after => cases outcome <;> rfl

end Calls

section Leaks

/-- The name is free in the expression, or in a circuit of the program. -/
def ReadFree (program : Program) (e : Expr) (id : Ident) : Prop :=
  Free id e ∨ ∃ circuit ∈ program.circuits,
    Free id circuit.body ∧ id ∉ circuit.arguments.map Argument.name

/-- The expression or a circuit of the program binds the name. -/
def BoundWithin (program : Program) (e : Expr) (id : Ident) : Prop :=
  Binds id e ∨ ∃ circuit ∈ program.circuits,
    id ∈ circuit.arguments.map Argument.name ∨ Binds id circuit.body

/-- What a run of the expression may read. -/
def readNames (program : Program) (e : Expr) : Set Ident :=
  {id | Occurs id e ∨ ∃ circuit ∈ program.circuits, Occurs id circuit.body}

def Unbound {vm : Vm} (ctx : ExecContext vm) (id : Ident) : Prop :=
  ctx.locals id = none ∧ ctx.localTypes id = none

theorem readFree_or_bound {program : Program} {e : Expr} {id : Ident}
    (h : id ∈ readNames program e) : ReadFree program e id ∨ BoundWithin program e id := by
  rcases h with h | ⟨circuit, hmem, h⟩
  · exact h.free_or_binds.imp .inl .inl
  · by_cases hparam : id ∈ circuit.arguments.map Argument.name
    · exact .inr (.inr ⟨circuit, hmem, .inl hparam⟩)
    · exact h.free_or_binds.imp (fun hfree => .inr ⟨circuit, hmem, hfree, hparam⟩)
        (fun hbinds => .inr ⟨circuit, hmem, .inr hbinds⟩)

/-- Two contexts that agree on the free names of the expression and the circuits, and
bind none of the names bound there, give one outcome; and a call gives the locals
back, failing or not. -/
theorem bindings_stay_local {c : Codecs} (crypto : Crypto c) {vm : Vm} (program : Program)
    (env : Env vm) (fuel : ℕ) (e : Expr) (ctx ctx' : ExecContext vm)
    (hfree : ∀ id, ReadFree program e id →
      ctx.locals id = ctx'.locals id ∧ ctx.localTypes id = ctx'.localTypes id)
    (hbound : ∀ id, BoundWithin program e id → Unbound ctx id ∧ Unbound ctx' id)
    (hrest : SameBut ctx ctx') :
    Paired SameBut ((evalExpr crypto program env fuel e).run ctx)
        ((evalExpr crypto program env fuel e).run ctx') ∧
      (∀ (run : Expr → Kept vm Value) params body args ctx,
        (callCircuitKept run params body args ctx).2.locals = ctx.locals ∧
          (callCircuitKept run params body args ctx).2.localTypes = ctx.localTypes) ∧
      ∀ (run : Expr → Kept vm Value) params body args,
        Kept.drop (callCircuitKept run params body args) =
          callCircuit (fun e => (run e).drop) params body args := by
  refine ⟨?_, callCircuitKept_locals, fun run => callCircuitKept_drop (fun _ => rfl)⟩
  have hagree : ∀ id ∈ readNames program e,
      ctx.locals id = ctx'.locals id ∧ ctx.localTypes id = ctx'.localTypes id := by
    intro id hid
    rcases readFree_or_bound hid with hread | hbinds
    · exact hfree id hread
    · obtain ⟨⟨hlocal, htype⟩, hlocal', htype'⟩ := hbound id hbinds
      exact ⟨hlocal.trans hlocal'.symm, htype.trans htype'.symm⟩
  have hctx : AgreeOn (readNames program e) ctx ctx' :=
    ⟨fun id hid => (hagree id hid).1, fun id hid => (hagree id hid).2, hrest⟩
  have hbodies : ∀ circuit ∈ program.circuits, NamesIn (readNames program e) circuit.body :=
    fun circuit hmem _ hid => Or.inr ⟨circuit, hmem, hid⟩
  have hrun := rel_evalExprWith crypto (inStep_respects : Respects program env _ _) hbodies
    (inStep_evalWitnessCall program env) fuel e (fun _ hid => Or.inl hid)
  rw [evalExprWith_eq] at hrun
  exact paired_sameBut (hrun ctx ctx' hctx)

/-- A name that only a called circuit binds, bound around the call. -/
def boundAround (id : Ident) (v : Value) (ty : Ty) : ExecContext plainVm :=
  { initialContext () [] with
    locals := Function.update (fun _ => none) id (some v)
    localTypes := Function.update (fun _ => none) id (some ty) }

theorem free_varRef {id id' : Ident} (h : Free id (.varRef id')) : id = id' := by
  cases h with
  | varRef => rfl
  | part _ e' hmem => cases hmem

theorem not_binds_varRef {id id' : Ident} : ¬ Binds id (.varRef id') := by
  intro h
  cases h with
  | here _ hmem => cases hmem
  | part _ e' hmem => cases hmem

theorem not_free_quote {id : Ident} {q : Literal} : ¬ Free id (.quote q) := by
  intro h
  cases h with
  | part _ e' hmem => cases hmem

theorem not_binds_quote {id : Ident} {q : Literal} : ¬ Binds id (.quote q) := by
  intro h
  cases h with
  | here _ hmem => cases hmem
  | part _ e' hmem => cases hmem

/-- A circuit that gives its argument a second name. -/
def echoBoolean : Circuit :=
  { booleanCircuit "%echo.1" (.letStar [({ name := "%x.3", ty := .boolean }, .varRef "%b.2")]
      (.varRef "%x.3")) with
    arguments := [⟨"%b.2", .boolean⟩] }

theorem free_echoBoolean {id : Ident} (h : Free id echoBoolean.body) : id = "%b.2" := by
  cases h with
  | part _ e' hmem hscope hfree =>
    rcases List.mem_cons.mp hmem with rfl | hmem
    · exact absurd (List.mem_singleton.mpr (free_varRef hfree)) hscope
    · obtain rfl := List.mem_singleton.mp hmem
      exact free_varRef hfree

theorem binds_echoBoolean {id : Ident} (h : Binds id echoBoolean.body) : id = "%x.3" := by
  cases h with
  | here _ hmem => exact List.mem_singleton.mp hmem
  | part _ e' hmem hbinds =>
    rcases List.mem_cons.mp hmem with rfl | hmem
    · exact absurd hbinds not_binds_varRef
    · obtain rfl := List.mem_singleton.mp hmem
      exact absurd hbinds not_binds_varRef

/-- A local that neither the call nor the circuit names makes no difference to them. -/
theorem bindings_stay_local_unnamed :
    Paired SameBut
        ((evalExpr plainCrypto ⟨[echoBoolean], [], []⟩ plainEnv 5
          (.call "%echo.1" [.quote (.bool true)])).run (boundAround "%z.4" .void .boolean))
        ((evalExpr plainCrypto ⟨[echoBoolean], [], []⟩ plainEnv 5
          (.call "%echo.1" [.quote (.bool true)])).run (initialContext () [])) ∧
      ((evalExpr plainCrypto ⟨[echoBoolean], [], []⟩ plainEnv 5
        (.call "%echo.1" [.quote (.bool true)])).run (boundAround "%z.4" .void .boolean)).isOk =
          true := by
  refine ⟨(bindings_stay_local plainCrypto ⟨[echoBoolean], [], []⟩ plainEnv 5
    (.call "%echo.1" [.quote (.bool true)]) (boundAround "%z.4" .void .boolean)
    (initialContext () []) ?_ ?_ ⟨_, _, rfl⟩).1, by decide +kernel⟩
  · rintro id (hfree | ⟨circuit, hmem, hfree, hparam⟩)
    · cases hfree with
      | part _ e' hmem _ hfree =>
        obtain rfl := List.mem_singleton.mp hmem
        exact absurd hfree not_free_quote
    · obtain rfl := List.mem_singleton.mp hmem
      exact absurd (List.mem_singleton.mpr (free_echoBoolean hfree)) hparam
  · have hbound : ∀ id, BoundWithin ⟨[echoBoolean], [], []⟩
        (.call "%echo.1" [.quote (.bool true)]) id → id = "%b.2" ∨ id = "%x.3" := by
      rintro id (hbinds | ⟨circuit, hmem, hbinds⟩)
      · cases hbinds with
        | here _ hmem => cases hmem
        | part _ e' hmem hbinds =>
          obtain rfl := List.mem_singleton.mp hmem
          exact absurd hbinds not_binds_quote
      · obtain rfl := List.mem_singleton.mp hmem
        exact hbinds.imp List.mem_singleton.mp binds_echoBoolean
    intro id hid
    rcases hbound id hid with rfl | rfl <;> exact ⟨⟨rfl, rfl⟩, rfl, rfl⟩

def flagPair : Ty := .struct "Pair" [("left", .boolean), ("right", .boolean)]

/-- A circuit that reads a field of a fresh pair. -/
def firstCircuit : Circuit :=
  booleanCircuit "%first.1" (.eltRef (.letStar [({ name := "%x.2", ty := flagPair },
    .default (.value flagPair))] (.varRef "%x.2")) "left" 0)

/-- The call names no local at all, and yet fails or not by a local of the caller
that has the name of a local of the circuit. -/
theorem callee_names_leak :
    (∀ id, ¬ Free id (.call "%first.1" []) ∧ ¬ Binds id (.call "%first.1" [])) ∧
      SameBut (boundAround "%x.2" .void flagPair) (initialContext () [] : ExecContext plainVm) ∧
      ¬ Paired SameBut
        ((evalExpr plainCrypto ⟨[firstCircuit], [], []⟩ plainEnv 5 (.call "%first.1" [])).run
          (boundAround "%x.2" .void flagPair))
        ((evalExpr plainCrypto ⟨[firstCircuit], [], []⟩ plainEnv 5 (.call "%first.1" [])).run
          (initialContext () [])) := by
  refine ⟨fun id => ⟨fun h => ?_, fun h => ?_⟩, ⟨_, _, rfl⟩, fun h => ?_⟩
  · cases h with
    | part _ e' hmem => cases hmem
  · cases h with
    | here _ hmem => cases hmem
    | part _ e' hmem => cases hmem
  · have hok : ((evalExpr plainCrypto ⟨[firstCircuit], [], []⟩ plainEnv 5
        (.call "%first.1" [])).run (boundAround "%x.2" .void flagPair)).isOk = true := by
      decide +kernel
    have hfails : ((evalExpr plainCrypto ⟨[firstCircuit], [], []⟩ plainEnv 5
        (.call "%first.1" [])).run (initialContext () [])).isOk = false := by
      decide +kernel
    rw [h.isOk_eq, hfails] at hok
    cases hok

end Leaks

end MidnightRs.Circuits
