import MidnightRs.InstructionForms

/-!
What a run leaves behind. A body reaches outside itself by ledger queries, by calls of
witnesses and by the two natives that move coins; replaying these requests in order
gives the whole record of the run, and nothing else of the body shows in it.
-/
namespace MidnightRs.Circuits

open MidnightRs.Compact Triples Pairs Results

section Requests

/-- The part of a context that outlives the run: all but the locals. -/
structure Record (vm : Vm) where
  state : vm.State
  reads : List AlignedValue
  gatherOps : List (Op vm.State)
  privateTranscriptOutputs : List AlignedValue
  zswapOutputs : List (Value × Value)
  zswapInputs : List Value
  logs : List vm.Log
  privateState : Bytes

def ExecContext.record {vm : Vm} (ctx : ExecContext vm) : Record vm where
  state := ctx.state
  reads := ctx.reads
  gatherOps := ctx.gatherOps
  privateTranscriptOutputs := ctx.privateTranscriptOutputs
  zswapOutputs := ctx.zswapOutputs
  zswapInputs := ctx.zswapInputs
  logs := ctx.logs
  privateState := ctx.privateState

/-- What a body asks of its surroundings. -/
inductive Request (vm : Vm) where
  | query (ops : List (Op vm.State))
  | ownKey
  | witness (name : String) (values : List Value)
  | zswapOutput (coin recipient : Value)
  | zswapInput (coin : Value)

variable {vm : Vm}

def Record.queried (r : Record vm) (ops : List (Op vm.State))
    (answer : List (GatherEvent vm.Log) × vm.State) : Record vm :=
  { r with
    state := answer.2
    reads := r.reads ++ readsOf answer.1
    gatherOps := r.gatherOps ++ ops
    logs := r.logs ++ logsOf answer.1 }

def Record.recorded (r : Record vm) (av : AlignedValue) : Record vm :=
  { r with privateTranscriptOutputs := r.privateTranscriptOutputs ++ [av] }

/-- The record after a request is answered, or nothing where the answer ends the run. -/
def answered (env : Env vm) (r : Record vm) : Request vm → Option (Record vm)
  | .query ops => (vm.query env.callContext r.state ops).toOption.map (r.queried ops)
  | .ownKey => env.coinPublicKey.map fun key => r.recorded (.single (trim key) (.bytes 32))
  | .witness name values =>
    (env.callWitness r.privateState name values).toOption.bind fun answer =>
      answer.1.bind fun v => (tryToAlignedValue v).toOption.map fun av =>
        { r.recorded av with privateState := answer.2 }
  | .zswapOutput coin recipient =>
    some { r with zswapOutputs := r.zswapOutputs ++ [(coin, recipient)] }
  | .zswapInput coin => some { r with zswapInputs := r.zswapInputs ++ [coin] }

def replay (env : Env vm) (requests : List (Request vm)) (r : Record vm) : Option (Record vm) :=
  requests.foldlM (answered env) r

theorem replay_append (env : Env vm) (requests requests' : List (Request vm)) (r : Record vm) :
    replay env (requests ++ requests') r = replay env requests r >>= replay env requests' :=
  List.foldlM_append

/-- Every run of the computation is a replay of some requests. -/
def Replays (env : Env vm) {α : Type} (m : Exec vm α) : Prop :=
  ∀ s a t, Runs m s a t → ∃ requests, replay env requests s.record = some t.record

end Requests

section Rules

variable {vm : Vm} {env : Env vm} {α β : Type}

theorem replays_pure (a : α) : Replays env (pure a : Exec vm α) := by
  intro s b t h
  obtain ⟨-, rfl⟩ := runs_pure_iff.mp h
  exact ⟨[], rfl⟩

theorem replays_stop (e : Halt) : Replays env (stop e : Exec vm α) :=
  fun _ _ _ h => absurd h not_runs_stop

theorem Replays.bind {m : Exec vm α} {f : α → Exec vm β} (hm : Replays env m)
    (hf : ∀ a, Replays env (f a)) : Replays env (m >>= f) := by
  intro s b t h
  obtain ⟨a, u, hrun, hrest⟩ := runs_bind_iff.mp h
  obtain ⟨requests, hfirst⟩ := hm s a u hrun
  obtain ⟨requests', hsecond⟩ := hf a u b t hrest
  refine ⟨requests ++ requests', ?_⟩
  rw [replay_append, hfirst]
  exact hsecond

/-- A computation that reads the context, and goes on from there. -/
theorem replays_get {f : ExecContext vm → Exec vm α} (hf : ∀ ctx, Replays env (f ctx)) :
    Replays env (get >>= f) := by
  intro s a t h
  exact hf s s a t h

/-- An update that leaves the record as it is. -/
theorem replays_locals {f : ExecContext vm → ExecContext vm}
    (hf : ∀ ctx, (f ctx).record = ctx.record) : Replays env (modify f : Exec vm Unit) := by
  intro s a t h
  have ht : t = f s := by
    cases h
    rfl
  rw [ht, hf]
  exact ⟨[], rfl⟩

/-- A computation with one request, whose answer says how it ends. -/
theorem replays_request {m : Exec vm α} (request : Request vm)
    (h : ∀ s a t, Runs m s a t → answered env s.record request = some t.record) :
    Replays env m := by
  intro s a t hrun
  refine ⟨[request], ?_⟩
  rw [replay, List.foldlM_cons, h s a t hrun]
  rfl

/-- The first of two computations is a replay. -/
abbrev Replayed {vm : Vm} (env : Env vm) : Relation (ExecContext vm) Halt :=
  fun _ m _ => Replays env m

theorem replays_congruence : Congruence (Replayed env) where
  value := replays_pure
  error := replays_stop
  seq := Replays.bind

end Rules

section Forms

variable {vm : Vm} {program : Program} {env : Env vm}

/-- An update ends in the updated state. -/
theorem runs_modify {f : ExecContext vm → ExecContext vm} {s t : ExecContext vm} {a : Unit}
    (h : Runs (modify f : Exec vm Unit) s a t) : t = f s := by
  cases h
  rfl

theorem runs_get {s t ctx : ExecContext vm} (h : Runs (get : Exec vm (ExecContext vm)) s ctx t) :
    ctx = s ∧ t = s := by
  cases h
  exact ⟨rfl, rfl⟩

/-- A query runs its operations at once, on the state so far. -/
theorem runs_runQuery {ops : List (Op vm.State)} {s t : ExecContext vm} {v : Value}
    (h : Runs (runQuery env ops) s v t) : ∃ answer,
      vm.query env.callContext s.state ops = .ok answer ∧
        t.record = s.record.queried ops answer := by
  obtain ⟨_, s₁, hops, h⟩ := runs_bind_iff.mp h
  obtain ⟨ctx, s₂, hctx, h⟩ := runs_bind_iff.mp h
  obtain ⟨answer, s₃, hanswer, h⟩ := runs_bind_iff.mp h
  obtain ⟨_, s₄, hstate, h⟩ := runs_bind_iff.mp h
  obtain rfl := runs_modify hops
  obtain ⟨rfl, rfl⟩ := runs_get hctx
  obtain ⟨hquery, rfl⟩ := runs_result_iff.mp hanswer
  obtain rfl := runs_modify hstate
  refine ⟨answer, mapError_ok hquery, ?_⟩
  cases hlast : (readsOf answer.1).getLast? with
  | none =>
    rw [hlast] at h
    obtain ⟨-, rfl⟩ := runs_pure_iff.mp h
    rfl
  | some av =>
    rw [hlast] at h
    obtain ⟨-, rfl⟩ := runs_pure_iff.mp h
    rfl

theorem replays_runQuery (ops : List (Op vm.State)) : Replays env (runQuery env ops) := by
  refine replays_request (.query ops) fun s a t h => ?_
  obtain ⟨answer, hquery, ht⟩ := runs_runQuery h
  rw [ht]
  exact congrArg (fun r => r.toOption.map (s.record.queried ops)) hquery

theorem replays_enclosed {α : Type} {m : Exec vm α} (h : Replays env m) :
    Replays env (enclosed m) := by
  refine replays_get fun saved => h.bind fun a => Replays.bind ?_ fun _ => replays_pure a
  exact replays_locals fun _ => rfl

theorem replays_respects :
    Respects program env (fun _ => True) (Replayed env) where
  toCongruence := replays_congruence
  parts _ _ _ _ := trivial
  local_value _ _ := replays_get fun _ => replays_pure _
  infer_here _ _ := replays_get fun _ => replays_pure _
  bind_local _ _ _ := replays_locals fun _ => rfl
  scope := replays_enclosed
  query := replays_runQuery

end Forms

section Answers

variable {vm : Vm} (program : Program) {env : Env vm}

theorem runs_providerAnswer {name : String} {values : List Value} {s t : ExecContext vm}
    {v : Value} (h : Runs (providerAnswer env name values) s v t) : ∃ privateState,
      env.callWitness s.privateState name values = .ok (some v, privateState) ∧
      t = { s with privateState := privateState } := by
  obtain ⟨ctx, s₁, hctx, h⟩ := runs_bind_iff.mp h
  obtain ⟨answer, s₂, hanswer, h⟩ := runs_bind_iff.mp h
  obtain ⟨_, s₃, hstate, h⟩ := runs_bind_iff.mp h
  obtain ⟨rfl, rfl⟩ := runs_get hctx
  obtain ⟨hcall, rfl⟩ := runs_result_iff.mp hanswer
  obtain rfl := runs_modify hstate
  obtain ⟨found, privateState⟩ := answer
  cases found with
  | none => exact absurd h not_runs_stop
  | some found =>
    obtain ⟨rfl, rfl⟩ := runs_pure_iff.mp h
    exact ⟨privateState, mapError_ok hcall, rfl⟩

theorem runs_record {encode : Value → Result AlignedValue} {v w : Value} {s t : ExecContext vm}
    (h : Runs (record encode v) s w t) : ∃ av, encode v = .ok av ∧
      t.record = s.record.recorded av := by
  obtain ⟨av, s₁, hav, h⟩ := runs_bind_iff.mp h
  obtain ⟨_, s₂, hstate, h⟩ := runs_bind_iff.mp h
  obtain ⟨hencode, rfl⟩ := runs_result_iff.mp hav
  obtain rfl := runs_modify hstate
  obtain ⟨-, rfl⟩ := runs_pure_iff.mp h
  exact ⟨av, hencode, rfl⟩

/-- The provider's answer and its entry in the private transcript are one request. -/
theorem replays_providerAnswer (name : String) (values : List Value) :
    Replays env (providerAnswer env name values >>= record tryToAlignedValue) := by
  refine replays_request (.witness name values) fun s a t h => ?_
  obtain ⟨v, s', hprovider, hrecord⟩ := runs_bind_iff.mp h
  obtain ⟨privateState, hcall, rfl⟩ := runs_providerAnswer hprovider
  obtain ⟨av, hencode, ht⟩ := runs_record hrecord
  have hcall' : env.callWitness s.record.privateState name values = .ok (some v, privateState) :=
    hcall
  rw [answered, hcall', ht]
  show (tryToAlignedValue v).toOption.map _ = _
  rw [hencode]
  rfl

theorem replays_ownKey : Replays env (ownKey env >>= record tryToAlignedValue) := by
  refine replays_request .ownKey fun s a t h => ?_
  obtain ⟨v, s', hkey, hrecord⟩ := runs_bind_iff.mp h
  obtain ⟨av, hencode, ht⟩ := runs_record hrecord
  unfold ownKey at hkey
  rw [answered, ht]
  cases hown : env.coinPublicKey with
  | none =>
    rw [hown] at hkey
    exact absurd hkey not_runs_stop
  | some key =>
    rw [hown] at hkey
    obtain ⟨rfl, rfl⟩ := runs_pure_iff.mp hkey
    cases hencode
    rfl

/-- An update, and the void value. -/
theorem replays_moved (request : Request vm) {f : ExecContext vm → ExecContext vm}
    (hf : ∀ ctx, answered env ctx.record request = some (f ctx).record) :
    Replays env (do modify f; pure .void : Exec vm Value) := by
  refine replays_request request fun s a t h => ?_
  obtain ⟨_, s₁, hmoved, h⟩ := runs_bind_iff.mp h
  obtain rfl := runs_modify hmoved
  obtain ⟨-, rfl⟩ := runs_pure_iff.mp h
  exact hf s

theorem replays_zswapOutput {id : Ident} {values : List Value}
    (h : program.runtimeName id = "createZswapOutput") :
    Replays env (evalWitnessCall program env id values) := by
  unfold evalWitnessCall
  rw [h]
  cases values with
  | nil => exact replays_stop _
  | cons coin values =>
    cases values with
    | nil => exact replays_stop _
    | cons recipient values => exact replays_moved (.zswapOutput coin recipient) fun _ => rfl

theorem replays_zswapInput {id : Ident} {values : List Value}
    (h : program.runtimeName id = "createZswapInput") :
    Replays env (evalWitnessCall program env id values) := by
  unfold evalWitnessCall
  rw [h]
  cases values with
  | nil => exact replays_stop _
  | cons coin values => exact replays_moved (.zswapInput coin) fun _ => rfl

/-- A witness call is one request. -/
theorem replays_evalWitnessCall (id : Ident) (values : List Value) :
    Replays env (evalWitnessCall program env id values) := by
  cases hrecords : recordsAnswer (program.runtimeName id) with
  | true =>
    rw [evalWitnessCall_eq program env id values hrecords]
    unfold witnessAnswer
    split
    · exact replays_ownKey
    · exact replays_providerAnswer (program.runtimeName id) values
  | false =>
    have hname : program.runtimeName id = "createZswapOutput" ∨
        program.runtimeName id = "createZswapInput" := by
      by_contra hnot
      rw [not_or] at hnot
      exact absurd (decide_eq_true hnot) (ne_true_of_eq_false hrecords)
    rcases hname with hname | hname
    · exact replays_zswapOutput program hname
    · exact replays_zswapInput program hname

end Answers

section Runs

variable {c : Codecs} (crypto : Crypto c) {vm : Vm} (program : Program) (env : Env vm)

theorem replays_evalExpr (fuel : ℕ) (e : Expr) :
    Replays env (evalExpr crypto program env fuel e) := by
  have hrun : Replayed env (evalExprWith crypto program env (evalWitnessCall program env) fuel e)
      (evalExprWith crypto program env (evalWitnessCall program env) fuel e) :=
    rel_evalExprWith crypto replays_respects (fun _ _ => trivial)
      (fun id values => replays_evalWitnessCall program id values) fuel e trivial
  rwa [evalExprWith_eq] at hrun

variable {env}

theorem replays_checkType (ty : Ty) : Replays env (checkTypeAtRun ty : Exec vm Unit) := by
  unfold checkTypeAtRun
  split
  · exact replays_stop _
  · exact replays_pure ()

theorem replays_result {α : Type} (r : Result α) : Replays env (result r : Exec vm α) :=
  replays_congruence.of_lift (r.mapError .error)

theorem replays_bindArguments (args : List (String × Value)) (arguments : List Argument) :
    Replays env (bindArguments args arguments : Exec vm Unit) := by
  induction arguments with
  | nil => exact replays_pure ()
  | cons argument arguments ih =>
    refine (replays_checkType argument.ty).bind fun _ => Replays.bind ?_ fun _ => ih
    exact replays_locals fun _ => rfl

theorem replays_runCircuit (fuel : ℕ) (circuit : Circuit) (args : List (String × Value)) :
    Replays env (runCircuit crypto program env fuel circuit args) := by
  refine (replays_bindArguments args circuit.arguments).bind fun _ => ?_
  refine (replays_checkType circuit.resultType).bind fun _ => ?_
  refine (replays_evalExpr crypto program env fuel circuit.body).bind fun v => ?_
  split
  · exact replays_pure _
  · exact (replays_result _).bind fun av => replays_pure _

end Runs

section Public

variable {vm : Vm} (env : Env vm)

def queryOps : Request vm → Option (List (Op vm.State))
  | .query ops => some ops
  | _ => none

/-- The queries of a list of requests, each with its operations. -/
def queriesOf (requests : List (Request vm)) : List (List (Op vm.State)) :=
  requests.filterMap queryOps

/-- The queries one after the other, with what they gather. -/
def runQueries (callContext : vm.CallContext) : List (List (Op vm.State)) → vm.State →
    Except String (List (GatherEvent vm.Log) × vm.State)
  | [], state => .ok ([], state)
  | ops :: queries, state => do
    let (events, state) ← vm.query callContext state ops
    let (events', state) ← runQueries callContext queries state
    pure (events ++ events', state)

theorem readsOf_append (events events' : List (GatherEvent vm.Log)) :
    readsOf (events ++ events') = readsOf events ++ readsOf events' := by
  induction events with
  | nil => rfl
  | cons event events ih =>
    cases event with
    | read av => exact congrArg (av :: ·) ih
    | log item => exact ih

theorem logsOf_append (events events' : List (GatherEvent vm.Log)) :
    logsOf (events ++ events') = logsOf events ++ logsOf events' := by
  induction events with
  | nil => rfl
  | cons event events ih =>
    cases event with
    | read av => exact ih
    | log item => exact congrArg (item :: ·) ih

variable {env}

/-- A request that is no query leaves the public part of the record alone. -/
theorem answered_public {r r' : Record vm} {request : Request vm}
    (h : answered env r request = some r') (hquery : queryOps request = none) :
    r'.state = r.state ∧ r'.reads = r.reads ∧ r'.gatherOps = r.gatherOps ∧ r'.logs = r.logs := by
  cases request with
  | query ops => cases hquery
  | ownKey =>
    obtain ⟨key, -, rfl⟩ := Option.map_eq_some_iff.mp h
    exact ⟨rfl, rfl, rfl, rfl⟩
  | witness name values =>
    obtain ⟨answer, -, h⟩ := Option.bind_eq_some_iff.mp h
    obtain ⟨v, -, h⟩ := Option.bind_eq_some_iff.mp h
    obtain ⟨av, -, rfl⟩ := Option.map_eq_some_iff.mp h
    exact ⟨rfl, rfl, rfl, rfl⟩
  | zswapOutput coin recipient =>
    obtain rfl := Option.some.inj h
    exact ⟨rfl, rfl, rfl, rfl⟩
  | zswapInput coin =>
    obtain rfl := Option.some.inj h
    exact ⟨rfl, rfl, rfl, rfl⟩

theorem toOption_eq_some {α ε : Type} {r : Except ε α} {a : α} (h : r.toOption = some a) :
    r = .ok a := by
  cases r with
  | error e => cases h
  | ok b => exact congrArg Except.ok (Option.some.inj h)

/-- The public part of a replay is the queries alone. -/
theorem replay_public {requests : List (Request vm)} {r r' : Record vm}
    (h : replay env requests r = some r') : ∃ events,
      runQueries env.callContext (queriesOf requests) r.state = .ok (events, r'.state) ∧
      r'.gatherOps = r.gatherOps ++ (queriesOf requests).flatten ∧
      r'.reads = r.reads ++ readsOf events ∧ r'.logs = r.logs ++ logsOf events := by
  induction requests generalizing r with
  | nil =>
    obtain rfl := Option.some.inj h
    exact ⟨[], rfl, (List.append_nil _).symm, (List.append_nil _).symm, (List.append_nil _).symm⟩
  | cons request requests ih =>
    rw [replay, List.foldlM_cons] at h
    obtain ⟨r₁, hfirst, hrest⟩ := Option.bind_eq_some_iff.mp h
    obtain ⟨events, hruns, hops, hreads, hlogs⟩ := ih hrest
    cases hquery : queryOps request with
    | none =>
      obtain ⟨hstate, hreads₁, hops₁, hlogs₁⟩ := answered_public hfirst hquery
      have hqueries : queriesOf (request :: requests) = queriesOf requests :=
        List.filterMap_cons_none hquery
      rw [hqueries, ← hstate, ← hreads₁, ← hops₁, ← hlogs₁]
      exact ⟨events, hruns, hops, hreads, hlogs⟩
    | some ops =>
      have hrequest : request = .query ops := by
        cases request with
        | query ops' => exact congrArg Request.query (Option.some.inj hquery)
        | ownKey => cases hquery
        | witness name values => cases hquery
        | zswapOutput coin recipient => cases hquery
        | zswapInput coin => cases hquery
      obtain ⟨answer, hanswer, rfl⟩ := Option.map_eq_some_iff.mp (hrequest ▸ hfirst)
      have hqueries : queriesOf (request :: requests) = ops :: queriesOf requests :=
        List.filterMap_cons_some hquery
      refine ⟨answer.1 ++ events, ?_, ?_, ?_, ?_⟩
      · rw [hqueries, runQueries, toOption_eq_some hanswer]
        show (runQueries env.callContext (queriesOf requests) answer.2 >>= _) = _
        exact congrArg (fun x => x >>= fun p => Except.ok (answer.1 ++ p.1, p.2)) hruns
      · rw [hops, hqueries, List.flatten_cons, ← List.append_assoc]
        rfl
      · rw [hreads, readsOf_append, ← List.append_assoc]
        rfl
      · rw [hlogs, logsOf_append, ← List.append_assoc]
        rfl

end Public

section Executions

variable {c : Codecs} (crypto : Crypto c) {vm : Vm} (program : Program) (env : Env vm)

/-- An execution is, for all that outlives it, the replay of its requests on the states
it began with. Its public transcript is its queries, and running them again one by one
gives the reads, the logs and the contract state. -/
theorem execute_replays {fuel : ℕ} {circuit : Circuit} {state : vm.State} {privateState : Bytes}
    {args : List (String × Value)} {ran : ExecutionResult vm}
    (h : execute crypto program env fuel circuit state privateState args = .ok ran) :
    ∃ requests events,
      replay env requests (initialContext state privateState).record = some ran.context.record ∧
      runQueries env.callContext (queriesOf requests) state = .ok (events, ran.context.state) ∧
      ran.context.gatherOps = (queriesOf requests).flatten ∧
      ran.context.reads = readsOf events ∧ ran.context.logs = logsOf events := by
  unfold execute at h
  cases hrun : (runCircuit crypto program env fuel circuit args).run
      (initialContext state privateState) with
  | error halt =>
    rw [hrun] at h
    cases h
  | ok r =>
    obtain ⟨a, t⟩ := r
    rw [hrun] at h
    cases h
    obtain ⟨requests, hreplay⟩ := replays_runCircuit crypto program fuel circuit args _ _ _ hrun
    obtain ⟨events, hruns, hops, hreads, hlogs⟩ := replay_public hreplay
    exact ⟨requests, events, hreplay, hruns, hops, hreads, hlogs⟩

end Executions

section Samples

/-- A ledger of one number, which a query adds to and reads. -/
def addingVm : Vm where
  State := ℕ
  Log := Unit
  CallContext := Unit
  null := 0
  cell av := ofLeBytes (av.value.headD [])
  array _ := 0
  map _ := 0
  blankMerkleTree height := height
  query _ state ops := ops.foldlM (fun (done : List (GatherEvent Unit) × ℕ) op =>
    match op with
    | .addi n => .ok (done.1, done.2 + n)
    | .popeq _ => .ok (done.1 ++ [.read (.single (trim (toLeBytes 8 done.2)) (.bytes 8))], done.2)
    | _ => .error "no such operation") ([], state)

def addingEnv : Env addingVm where
  callWitness privateState _ _ := .ok (some (.integer 5), 1 :: privateState)
  callContext := ()
  hasAddress := true
  coinPublicKey := none

def addInstructions : List Instruction :=
  [.mk .addi [("immediate", .int 2)], .mk .popeq []]

/-- Adds two to the ledger, reads it, and returns the answer of its witness. -/
def addCircuit : Circuit :=
  { booleanCircuit "%add.2" (.seq [.publicLedger "%total.0" (.plain "update") [] "count" (.bytes 8)
      addInstructions [], .call "%private$counter.1" []]) with resultType := .unsigned 255 }

theorem execute_replays_counter :
    ∃ ran, execute plainCrypto (counterProgram (.unsigned 255)) addingEnv 4 addCircuit (7 : ℕ)
        [] [] = .ok ran ∧
      ran.context.state = (9 : ℕ) ∧ ran.context.reads.length = 1 ∧
      ran.context.privateTranscriptOutputs.length = 1 ∧
      ∃ requests events,
        replay addingEnv requests (initialContext (7 : ℕ) [] : ExecContext addingVm).record =
          some ran.context.record ∧
        runQueries addingEnv.callContext (queriesOf requests) (7 : ℕ) =
          .ok (events, ran.context.state) ∧
        ran.context.gatherOps = (queriesOf requests).flatten ∧
        ran.context.reads = readsOf events ∧ ran.context.logs = logsOf events := by
  refine ⟨_, rfl, rfl, rfl, rfl, ?_⟩
  exact execute_replays plainCrypto (counterProgram (.unsigned 255)) addingEnv
    (rfl : execute plainCrypto (counterProgram (.unsigned 255)) addingEnv 4 addCircuit (7 : ℕ)
      [] [] = .ok _)

end Samples

end MidnightRs.Circuits
