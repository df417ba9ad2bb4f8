import MidnightRs.ArtifactChecks
import MidnightRs.Natives
import MidnightRs.Triples

/-!
The interpreter of a circuit body. One step evaluates a form with an evaluator for
its parts, and a run ties the steps together with a fuel; a ledger operation turns
its instructions into the operations of the machine and queries it at once. The
machine, the libraries and the witnesses are parameters.
-/
namespace MidnightRs.Circuits

open MidnightRs.Compact Triples

section Types

structure Program where
  circuits : List Circuit
  witnesses : List Witness
  natives : List Native

inductive Decl where
  | circuit (c : Circuit)
  | native (n : Native)
  | witness (w : Witness)

/-- What a call resolves to. -/
inductive Callee where
  | circuit (c : Circuit)
  | witness
  | pure

def runtimeModule : String := "__compactRuntime."

namespace Program

variable (program : Program)

def circuit (id : Ident) : Option Circuit := lookupLast Circuit.name program.circuits id

/-- A circuit wins over a native, and a native over a witness. -/
def declaration (id : Ident) : Option Decl :=
  match program.circuit id with
  | some c => some (.circuit c)
  | none =>
    match lookupLast Native.name program.natives id with
    | some n => some (.native n)
    | none =>
      (lookupLast (fun w => Ident.name w.name) program.witnesses (Ident.name id)).map .witness

def callee (id : Ident) : Callee :=
  match program.declaration id with
  | some (.circuit c) => .circuit c
  | some (.native n) => if n.kind = "witness" then .witness else .pure
  | some (.witness _) => .witness
  | none => .pure

def runtimeName (id : Ident) : String :=
  match program.declaration id with
  | some (.native n) =>
    if n.entry.startsWith runtimeModule then (n.entry.drop runtimeModule.length).toString
    else n.entry
  | _ => Ident.name id

def argumentTypes (id : Ident) : List Ty :=
  match program.declaration id with
  | some (.native n) => n.arguments.map Argument.ty
  | _ => []

def resultType (id : Ident) : Option Ty :=
  (program.declaration id).map (fun decl =>
    match decl with
    | .circuit c => c.resultType
    | .native n => n.resultType
    | .witness w => w.resultType)

end Program

def constIndex : Expr → Option ℕ
  | .quote (.int n) => if 0 ≤ n then toUsize n.toNat else none
  | _ => none

/-- A tuple needs the index, a vector does not. -/
def elementTypeFrom (ty : Ty) (i : Option ℕ) : Option Ty :=
  match ty.resolved with
  | .vector _ ty => some ty
  | .tuple types => i.bind (fun i => types[i]?)
  | _ => none

def sliceResultType (ty : Ty) (start : Option ℕ) (len : ℕ) : Option Ty :=
  match ty.resolved with
  | .vector _ ty => some (.vector len ty)
  | .tuple types =>
    start.bind (fun start => (toUsize len).bind (fun len => (checkedAdd start len).bind (fun stop =>
      if stop ≤ types.length then some (.tuple ((types.take stop).drop start)) else none)))
  | _ => none

def structField (ty : Ty) (elt : String) : Option Ty :=
  match ty.resolved with
  | .struct _ fields => fields.lookup elt
  | _ => none

/-- The element types that a spread contributes. -/
def spreadTypes (ty : Ty) (len : ℕ) : Option (List Ty) :=
  match ty with
  | .tuple inner => if inner.length = len then some inner else none
  | .vector n ty => if n = len then (toUsize n).map (fun n => List.replicate n ty) else none
  | _ => none

def byteType : Ty := .unsigned 255

def funResult (program : Program) : Fun → Option Ty
  | .circuit _ resultType _ => some resultType
  | .ref id => program.resultType id

variable (program : Program) (types : Ident → Option Ty)

mutual

/-- The static type of an expression, where it can be told. An integer literal is
typed as a field element. -/
def infer : Expr → Option Ty
  | .varRef id => types id
  | .quote (.bool _) => some .boolean
  | .quote (.int _) => some (.field .native)
  | .quote (.bytes bytes) => some (.bytes bytes.length)
  | .call name _ => program.resultType name
  | .publicLedger _ _ _ _ resultType _ _ => some resultType
  | .new ty _ => some ty
  | .default ty => some ty.ty
  | .equal _ _ _ _ => some .boolean
  | .compare _ _ _ _ => some .boolean
  | .arith _ ty _ _ => some ty
  | .ite _ thn _ => infer thn
  | .letStar _ body => infer body
  | .seq items => inferLast items
  | .ret expr => infer expr
  | .tuple _ args => (inferArgs args).map .tuple
  | .tupleRef expr index => (infer expr).bind (fun ty => elementTypeFrom ty (toUsize index))
  | .vectorRef ty expr index =>
    (elementTypeFrom ty (constIndex index)).or
      ((infer expr).bind (fun ty => elementTypeFrom ty (constIndex index)))
  | .eltRef expr elt _ => (infer expr).bind (fun ty => structField ty elt)
  | .assert _ _ => some (.tuple [])
  | .emit _ _ _ _ _ => some (.tuple [])
  | .fieldToBytes len _ _ => some (.bytes len)
  | .vectorToBytes len _ => some (.bytes len)
  | .bytesToVector len _ => some (.vector len byteType)
  | .castFromBytes ty _ _ => some ty
  | .castBetween _ ty _ _ => some ty
  | .castToField _ _ _ => some (.field .native)
  | .castFromField maxval _ _ => some (.unsigned maxval)
  | .downcastUnsigned _ toMaxval _ => some (.unsigned toMaxval)
  | .enumRef ty _ => some ty
  | .tupleSlice ty _ index len => sliceResultType ty (toUsize index) len
  | .vectorSlice ty _ index len => sliceResultType ty (constIndex index) len
  | .bytesSlice _ _ _ len => some (.bytes len)
  | .bytesRef _ _ _ => some byteType
  | .fold _ _ init _ _ => infer init
  | .map len fn _ => (funResult program fn).map (.vector len)
  | .contractCall circuit _ contractType _ => contractType.resolved.circuits.lookup circuit

def inferLast : List Expr → Option Ty
  | [] => none
  | [e] => infer e
  | _ :: es => inferLast es

def inferArgs : List TupleArg → Option (List Ty)
  | [] => some []
  | .single e :: args =>
    (infer e).bind (fun ty => (inferArgs args).map (ty :: ·))
  | .spread len e :: args =>
    (infer e).bind (fun ty => (spreadTypes ty len).bind (fun types =>
      (inferArgs args).map (types ++ ·)))

end

end Types

section Machine

/-- An entry of the path of an `idx` operation. -/
inductive Key where
  | stack
  | value (av : AlignedValue)
deriving DecidableEq, Repr

/-- The operations of the ledger machine, over its state values. -/
inductive Op (State : Type) where
  | idx (cached pushPath : Bool) (path : List Key)
  | push (storage : Bool) (value : State)
  | addi (immediate : ℕ)
  | subi (immediate : ℕ)
  | ins (cached : Bool) (n : ℕ)
  | dup (n : ℕ)
  | swap (n : ℕ)
  | popeq (cached : Bool)
  | rem (cached : Bool)
  | noop (n : ℕ)
  | branch (skip : ℕ)
  | jmp (skip : ℕ)
  | concat (cached : Bool) (n : ℕ)
  | member
  | root
  | eq
  | lt
  | ckpt
  | neg
  | add
  | pop
  | size
  | type
  | log
deriving DecidableEq, Repr

inductive GatherEvent (Log : Type) where
  | read (av : AlignedValue)
  | log (item : Log)

/-- The ledger machine: its state values and what a query gives. -/
structure Vm where
  State : Type
  Log : Type
  CallContext : Type
  null : State
  cell : AlignedValue → State
  array : List State → State
  map : List (AlignedValue × State) → State
  blankMerkleTree : ℕ → State
  query : CallContext → State → List (Op State) → Except String (List (GatherEvent Log) × State)

/-- What a run has from outside: the witnesses over the private state, the context of
a ledger operation and the caller's key. -/
structure Env (vm : Vm) where
  callWitness : Bytes → String → List Value → Result (Option Value × Bytes)
  callContext : vm.CallContext
  hasAddress : Bool
  coinPublicKey : Option Bytes

structure ExecContext (vm : Vm) where
  state : vm.State
  locals : Ident → Option Value
  localTypes : Ident → Option Ty
  reads : List AlignedValue
  gatherOps : List (Op vm.State)
  privateTranscriptOutputs : List AlignedValue
  zswapOutputs : List (Value × Value)
  zswapInputs : List Value
  logs : List vm.Log
  privateState : Bytes

/-- A run ends without a value when its fuel is out or the interpreter refuses. -/
inductive Halt where
  | outOfFuel
  | error (e : InterpreterError)

abbrev Exec (vm : Vm) (α : Type) : Type := Comp (ExecContext vm) Halt α

variable {vm : Vm}

def fail {α : Type} (e : InterpreterError) : Exec vm α := stop (.error e)

def result {α : Type} (r : Result α) : Exec vm α := lift (r.mapError .error)

/-- Refuses a type that cannot be executed. -/
def checkTypeAtRun (ty : Ty) : Exec vm Unit :=
  match unsupportedType ty with
  | some what => fail (.unsupportedType what)
  | none => pure ()

def bindLocal (id : Ident) (v : Value) (ty : Ty) : Exec vm Unit :=
  modify (fun ctx => { ctx with
    locals := Function.update ctx.locals id (some v)
    localTypes := Function.update ctx.localTypes id (some ty) })

def bindLocals : List (Argument × Value) → Exec vm Unit
  | [] => pure ()
  | (param, v) :: bindings => do
    bindLocal param.name v param.ty
    bindLocals bindings

def checkParams : List Argument → Exec vm Unit
  | [] => pure ()
  | param :: params => do
    checkTypeAtRun param.ty
    checkParams params

end Machine

section Operands

variable {c : Codecs} (crypto : Crypto c) {vm : Vm} (program : Program)
  (eval : Expr → Exec vm Value)

/-- The type that inference gives at this point of the run. -/
def inferHere (e : Expr) : Exec vm (Option Ty) := do
  let ctx ← get
  pure (infer program ctx.localTypes e)

def flag (i : Instruction) (name : String) : Bool :=
  match i.arg name with
  | some (.bool true) => true
  | _ => false

def operand (i : Instruction) (name : String) : Result Operand :=
  required (i.arg name) s!"{i.op.asStr}: missing operand {name}"

/-- An operand that counts stack slots or bytes. -/
def countOperand (op : OpName) (name : String) : Operand → Result ℕ
  | .int n =>
    if 0 ≤ n ∧ n < 2 ^ 64 then .ok n.toNat
    else .error (.typeError s!"{op.asStr}: {name} out of range")
  | .maxSizeof ty => maxSizeof crypto ty
  | .add left right => do
    let l ← countOperand op name left
    let r ← countOperand op name right
    if l + r < 2 ^ 64 then pure (l + r)
    else .error (.typeError s!"{op.asStr}: {name} out of range")
  | _ => .error (.typeError s!"{op.asStr}: {name} is not a count")

/-- A count below a bound. -/
def countArg (bound : ℕ) (i : Instruction) (name : String) : Result ℕ := do
  let o ← operand i name
  let n ← countOperand crypto i.op name o
  if n < bound then pure n
  else .error (.typeError s!"{i.op.asStr}: {name} out of range")

def u8Arg (i : Instruction) (name : String) : Result ℕ := countArg crypto (2 ^ 8) i name

def u32Arg (i : Instruction) (name : String) : Result ℕ := countArg crypto (2 ^ 32) i name

/-- A count that is zero where it cannot be told. -/
def u8ArgOrZero (i : Instruction) (name : String) : ℕ :=
  match u8Arg crypto i name with
  | .ok n => n
  | .error _ => 0

/-- An operand without the wrappers that carry no width of their own. -/
def reduceOperand : Operand → Operand
  | .valueToInt x => reduceOperand x
  | .stateValue (.cell x) => reduceOperand x
  | .stateValue (.adt x _) => reduceOperand x
  | .stateValue .null => .void
  | o => o

def maxForBytes (bytes : ℕ) : ℕ := 2 ^ (8 * bytes) - 1

def literalKey (value bytes : ℕ) : Result AlignedValue :=
  if value < u128Bound then encodeTyped c (.integer value) (.unsigned (maxForBytes bytes))
  else .error (.typeError s!"invalid integer path literal {value}")

/-- The encoding of a value at its inferred type, or without one. -/
def encodeInferred (v : Value) (ty : Option Ty) : Result AlignedValue :=
  match v, ty with
  | .integer _, some ty => encodeTyped c v ty
  | .struct _, some ty => encodeTyped c v ty
  | .tuple _, some ty => encodeTyped c v ty
  | .tuple _, none => .error (.unsupported "aligned encoding of a value without a declared type")
  | _, _ => tryToAlignedValue v

mutual

/-- The aligned value of an operand. The type is inferred before the expression
runs. -/
def operandAligned : Operand → Exec vm AlignedValue
  | .valueToInt x => operandAligned x
  | .stateValue value => stateAligned value
  | .expr e => do
    let inferred ← inferHere program e
    let v ← eval e
    result (encodeInferred (c := c) v inferred)
  | .align value bytes => result (literalKey (c := c) value bytes)
  | .int n =>
    if 0 ≤ n ∧ n < 2 ^ 64 then pure (.single (trim (toLeBytes u128Bytes n.toNat)) (.bytes 8))
    else fail (.typeError s!"push integer {n} out of u64 range")
  | .bool b => pure (ofBool b)
  | .null ty => result (do
    let v ← defaultValue crypto.elements ty
    encodeTyped c v ty)
  | .leafHash x => do
    let av ← operandAligned x
    pure (crypto.leafHash av)
  | .alignedConcat parts => do
    let encoded ← operandsAligned parts
    pure (.concat encoded)
  | _ => fail (.unsupported "push of an operand of another kind")

/-- A cell and a ledger type around a value leave it as it is. -/
def stateAligned : StateValue → Exec vm AlignedValue
  | .cell x => operandAligned x
  | .adt x _ => operandAligned x
  | _ => fail (.unsupported "push of an operand of another kind")

def operandsAligned : List Operand → Exec vm (List AlignedValue)
  | [] => pure []
  | x :: xs => do
    let av ← operandAligned x
    let avs ← operandsAligned xs
    pure (av :: avs)

end

def pathKey : Operand → Exec vm Key
  | .stack => pure .stack
  | .align value bytes => do
    let av ← operandAligned crypto program eval (.align value bytes)
    pure (.value av)
  | .expr e => do
    let av ← operandAligned crypto program eval (.expr e)
    pure (.value av)
  | _ => fail (.unsupported "path element")

/-- An operand that is pushed as it is, and not as a container. -/
def pushScalar (o : Operand) : Exec vm vm.State :=
  match reduceOperand o with
  | .void => pure vm.null
  | .stack => pure vm.null
  | _ => do
    let av ← operandAligned crypto program eval o
    pure (vm.cell av)

/-- The default of a ledger type is an empty map. -/
def pushAdt : Operand → NamedTy → Exec vm vm.State
  | .expr (.default _), .adt name _ =>
    if name = "Map" then pure (vm.map [])
    else fail (.unsupported s!"push of the default of ADT {name}")
  | x, ty => pushScalar crypto program eval (.stateValue (.adt x ty))

mutual

/-- The state value of a push. Containers nest. -/
def pushValue : Operand → Exec vm vm.State
  | .stateValue value => pushStateValue value
  | o => pushScalar crypto program eval o

def pushStateValue : StateValue → Exec vm vm.State
  | .array elements => do
    let elements ← pushElements elements
    pure (vm.array elements)
  | .map entries => do
    let entries ← pushEntries entries
    pure (vm.map entries)
  | .merkleTree depth entries =>
    if entries.isEmpty = false then
      fail (.unsupported "push of a Merkle tree carrying initial entries")
    else if depth < 2 ^ 8 then pure (vm.blankMerkleTree depth)
    else fail (.typeError s!"Merkle tree depth {depth} exceeds a u8")
  | .adt x ty => pushAdt crypto program eval x ty
  | .cell x => pushScalar crypto program eval (.stateValue (.cell x))
  | .null => pushScalar crypto program eval (.stateValue .null)

def pushElements : List Operand → Exec vm (List vm.State)
  | [] => pure []
  | x :: xs => do
    let s ← pushValue x
    let states ← pushElements xs
    pure (s :: states)

def pushEntries : List (Operand × Operand) → Exec vm (List (AlignedValue × vm.State))
  | [] => pure []
  | (k, v) :: entries => do
    let key ← operandAligned crypto program eval k
    let s ← pushValue v
    let states ← pushEntries entries
    pure ((key, s) :: states)

end

def asU32Value : Value → Option ℕ
  | .integer n => if n < 2 ^ 32 then some n else none
  | _ => none

def resolveImmediate (op : OpName) (o : Operand) : Exec vm ℕ :=
  match reduceOperand o with
  | .int n =>
    if 0 ≤ n ∧ n < 2 ^ 32 then pure n.toNat
    else fail (.typeError s!"{op.asStr} immediate {n} out of u32 range")
  | .expr e => do
    let v ← eval e
    result (required (asU32Value v) s!"{op.asStr} immediate is not u32")
  | _ => fail (.typeError s!"cannot resolve the {op.asStr} immediate")

/-- An instruction as the operation that the machine runs. -/
def buildOp (i : Instruction) : Exec vm (Op vm.State) :=
  match i.op with
  | .idx =>
    match i.arg "path" with
    | some (.list path) => do
      let keys ← each (pathKey crypto program eval) path
      pure (.idx (flag i "cached") (flag i "pushPath") keys)
    | _ => fail (.unsupported "idx without a path list")
  | .push => do
    let o ← result (operand i "value")
    let value ← pushValue crypto program eval o
    pure (.push (flag i "storage") value)
  | .addi => do
    let o ← result (operand i "immediate")
    let n ← resolveImmediate eval i.op o
    pure (.addi n)
  | .subi => do
    let o ← result (operand i "immediate")
    let n ← resolveImmediate eval i.op o
    pure (.subi n)
  | .ins => do
    let n ← result (u8Arg crypto i "n")
    pure (.ins (flag i "cached") n)
  | .dup => pure (.dup (u8ArgOrZero crypto i "n"))
  | .swap => pure (.swap (u8ArgOrZero crypto i "n"))
  | .popeq => pure (.popeq (flag i "cached"))
  | .rem => pure (.rem (flag i "cached"))
  | .noop => do
    let n ← result (u32Arg crypto i "n")
    pure (.noop n)
  | .branch => do
    let skip ← result (u32Arg crypto i "skip")
    pure (.branch skip)
  | .jmp => do
    let skip ← result (u32Arg crypto i "skip")
    pure (.jmp skip)
  | .concat => do
    let n ← result (u32Arg crypto i "n")
    pure (.concat (flag i "cached") n)
  | .member => pure .member
  | .root => pure .root
  | .eq => pure .eq
  | .lt => pure .lt
  | .ckpt => pure .ckpt
  | .neg => pure .neg
  | .add => pure .add
  | .pop => pure .pop
  | .size => pure .size
  | .type => pure .type
  | .log => pure .log
  | _ => fail (.unsupported s!"VM instruction {i.op.asStr}")

def readsOf : List (GatherEvent vm.Log) → List AlignedValue
  | [] => []
  | .read av :: events => av :: readsOf events
  | .log _ :: events => readsOf events

def logsOf : List (GatherEvent vm.Log) → List vm.Log
  | [] => []
  | .read _ :: events => logsOf events
  | .log item :: events => item :: logsOf events

variable (env : Env vm)

/-- Builds the operations and runs them on the contract state. The value is the last
one read. -/
def execLedgerQuery (instructions : List Instruction) : Exec vm Value := do
  let ops ← each (buildOp crypto program eval) instructions
  modify (fun ctx => { ctx with gatherOps := ctx.gatherOps ++ ops })
  let ctx ← get
  let (events, state) ← result
    ((vm.query env.callContext ctx.state ops).mapError .ledgerQueryFailed)
  modify (fun ctx => { ctx with
    logs := ctx.logs ++ logsOf events
    state := state
    reads := ctx.reads ++ readsOf events })
  match (readsOf events).getLast? with
  | some av => pure (.alignedValue av)
  | none => pure .void

end Operands

section Steps

variable {c : Codecs} (crypto : Crypto c) {vm : Vm} (program : Program) (env : Env vm)
  (eval : Expr → Exec vm Value)

def evalTupleArg : TupleArg → Exec vm (List Value)
  | .single e => do
    let v ← eval e
    pure [v]
  | .spread len e => do
    let expected ← result (irLength len)
    let ty ← inferHere program e
    let inner ← eval e
    result (spliceSpread inner ty expected)

/-- A binder takes the inferred type, or else the declared one. -/
def evalBindings : List (Argument × Expr) → Exec vm Unit
  | [] => pure ()
  | (binder, value) :: bindings => do
    let inferred ← inferHere program value
    let v ← eval value
    bindLocal binder.name v (inferred.getD binder.ty)
    evalBindings bindings

def evalSeq : Value → List Expr → Exec vm Value
  | last, [] => pure last
  | _, e :: es => do
    let v ← eval e
    evalSeq v es

/-- Runs a body with its parameters bound, and gives the caller's locals back. -/
def callCircuit (params : List Argument) (body : Expr) (args : List Value) : Exec vm Value := do
  if params.length ≠ args.length then
    fail (.typeError s!"callee takes {params.length} parameters but got {args.length} arguments")
  else do
    checkParams params
    let saved ← get
    bindLocals (params.zip args)
    let v ← eval body
    modify (fun ctx => { ctx with locals := saved.locals, localTypes := saved.localTypes })
    pure v

def applyFun (fn : Fun) (args : List Value) : Exec vm Value :=
  match fn with
  | .ref id =>
    match program.circuit id with
    | some c => callCircuit eval c.arguments c.body args
    | none => fail (.typeError s!"loop calls {id}, which is not a circuit in the program")
  | .circuit arguments _ body => callCircuit eval arguments body args

def evalPureCall (id : Ident) (values : List Value) : Exec vm Value :=
  match builtin crypto (program.runtimeName id) values (program.argumentTypes id) with
  | some r => result (r.map .alignedValue)
  | none => fail (.unsupported s!"unknown pure function: {program.runtimeName id}")

/-- The natives that the interpreter answers itself, and the witness provider. -/
def evalWitnessCall (id : Ident) (values : List Value) : Exec vm Value :=
  let name := program.runtimeName id
  match name with
  | "createZswapOutput" =>
    match values with
    | coin :: recipient :: _ => do
      modify (fun ctx => { ctx with zswapOutputs := ctx.zswapOutputs ++ [(coin, recipient)] })
      pure .void
    | _ => fail (.typeError "createZswapOutput expects (coin, recipient) arguments")
  | "createZswapInput" =>
    match values with
    | coin :: _ => do
      modify (fun ctx => { ctx with zswapInputs := ctx.zswapInputs ++ [coin] })
      pure .void
    | [] => fail (.typeError "createZswapInput expects a (coin) argument")
  | "ownPublicKey" =>
    match env.coinPublicKey with
    | none => fail (.witness "ownPublicKey needs the coin public key of the caller")
    | some key => do
      let av : AlignedValue := .single (trim key) (.bytes 32)
      modify (fun ctx => { ctx with
        privateTranscriptOutputs := ctx.privateTranscriptOutputs ++ [av] })
      pure (.alignedValue av)
  | _ => do
    let ctx ← get
    let (answer, privateState) ← result
      ((env.callWitness ctx.privateState name values).mapError .ofProvider)
    modify (fun ctx => { ctx with privateState := privateState })
    match answer with
    | none => fail (.witness s!"no witness provider for: {name}")
    | some v => do
      let av ← result (tryToAlignedValue v)
      modify (fun ctx => { ctx with
        privateTranscriptOutputs := ctx.privateTranscriptOutputs ++ [av] })
      pure v

def evalCall (name : Ident) (args : List Expr) : Exec vm Value := do
  match program.resultType name with
  | some ty => checkTypeAtRun ty
  | none => pure ()
  let values ← each eval args
  match program.callee name with
  | .circuit c => callCircuit eval c.arguments c.body values
  | .witness => evalWitnessCall program env name values
  | .pure => evalPureCall crypto program name values

def evalAsInteger (e : Expr) : Exec vm ℕ := do
  let v ← eval e
  result (required (valueToU128 v) "expected integer")

def evalIndex (e : Expr) (what : String) : Exec vm ℕ := do
  let n ← evalAsInteger eval e
  result (required (toUsize n) s!"{what} index {n} out of bounds (does not fit in usize)")

/-- The elements of an iteration, one from each argument. -/
def loopArgs (i : ℕ) : List (Value × MapArg) → Result (List Value)
  | [] => .ok []
  | (v, a) :: args => do
    let x ← indexedElement v (some a.ty) i "loop"
    let xs ← loopArgs i args
    pure (x :: xs)

def mapLoop (fn : Fun) (args : List (Value × MapArg)) : ℕ → ℕ → Exec vm (List Value)
  | _, 0 => pure []
  | i, n + 1 => do
    let callArgs ← result (loopArgs i args)
    let v ← applyFun program eval fn callArgs
    let vs ← mapLoop fn args (i + 1) n
    pure (v :: vs)

def foldLoop (fn : Fun) (args : List (Value × MapArg)) : ℕ → ℕ → Value → Exec vm Value
  | _, 0, acc => pure acc
  | i, n + 1, acc => do
    let callArgs ← result (loopArgs i args)
    let acc ← applyFun program eval fn (acc :: callArgs)
    foldLoop fn args (i + 1) n acc

def evalMapArg (a : MapArg) : Exec vm (Value × MapArg) := do
  let v ← eval a.expr
  pure (v, a)

def evalNew (ty : Ty) (elements : List Expr) : Exec vm Value := do
  checkTypeAtRun ty
  match ty with
  | .struct name fields =>
    if fields.length ≠ elements.length then
      fail (.typeError s!"new {name} expects {fields.length} fields, got {elements.length}")
    else do
      let values ← each eval elements
      result ((encodeTyped c (.tuple values) ty).map .alignedValue)
  | _ => fail (.typeError "new op with non-struct type")

/-- Checks the source of a cast to Field, and that neither side is foreign. -/
def evalCastToField (fieldType : FieldType) (source : Ty) (e : Expr) : Exec vm Value := do
  checkTypeAtRun source
  result (refuseForeignCast fieldType)
  match source.resolved with
  | .field f => result (refuseForeignCast f)
  | _ => pure ()
  let v ← eval e
  result (evalCast crypto.elements v source (.field .native))

/-- The name that an unimplemented call shows. -/
def callTarget (receiver : Expr) (contractType : NamedTy) : String :=
  match receiver, contractType with
  | .varRef id, _ => Ident.name id
  | _, .contract name _ => name
  | _, .value (.contract name) => name
  | _, .value (.struct name _) => name
  | _, .value (.opaqueData name) => name
  | _, _ => "<contract>"

/-- One form, with an evaluator for its parts. -/
def evalNode : Expr → Exec vm Value
  | .quote literal => result (evalLiteral crypto literal)
  | .varRef id => do
    let ctx ← get
    match ctx.locals id with
    | some v => pure v
    | none => fail (.undefinedVariable id)
  | .default ty => do
    checkTypeAtRun ty.ty
    result (defaultValue crypto.elements ty.ty)
  | .assert e message => do
    let v ← eval e
    if isTruthy v then pure .void else fail (.assertionFailed message)
  | .publicLedger _ _ _ op resultType instructions _ => do
    checkTypeAtRun resultType
    if op = "self" ∧ env.hasAddress = false then fail .noContractAddress
    else execLedgerQuery crypto program eval env instructions
  | .emit _ _ _ _ instructions => do
    let _ ← execLedgerQuery crypto program eval env instructions
    pure .void
  | .seq items => evalSeq eval .void items
  | .ret e => eval e
  | .tuple _ args => do
    let parts ← each (evalTupleArg program eval) args
    if parts.flatten.isEmpty then pure .void else pure (.tuple parts.flatten)
  | .letStar bindings body => do
    evalBindings program eval bindings
    eval body
  | .call name args => evalCall crypto program env eval name args
  | .arith op ty left right => do
    checkTypeAtRun ty
    let l ← eval left
    let r ← eval right
    result (arithValues crypto op ty l r)
  | .equal negated ty left right => do
    let l ← eval left
    let r ← eval right
    let b ← result (valuesEqual (c := c) l r ty)
    pure (.bool (b != negated))
  | .compare op _ left right => do
    let l ← evalAsInteger eval left
    let r ← evalAsInteger eval right
    pure (.bool (compareValues op l r))
  | .ite cond thn els => do
    let b ← eval cond
    if isTruthy b then eval thn else eval els
  | .vectorRef ty e index => do
    let v ← eval e
    let i ← evalIndex eval index "vector"
    result (indexedElement v (some ty) i "vector")
  | .tupleRef e index => do
    let index ← result (irLength index)
    let ty ← inferHere program e
    let v ← eval e
    result (indexedElement v ty index "tuple")
  | .new ty elements => evalNew (c := c) eval ty elements
  | .castFromBytes ty len e => do
    checkTypeAtRun ty
    let v ← eval e
    result (evalCast crypto.elements v (.bytes len) ty)
  | .castBetween _ ty source e => do
    checkTypeAtRun ty
    checkTypeAtRun source
    let v ← eval e
    result (evalCast crypto.elements v source ty)
  | .castToField fieldType source e => evalCastToField crypto eval fieldType source e
  | .castFromField maxval fieldType e => do
    result (refuseForeignCast fieldType)
    let v ← eval e
    result (evalCast crypto.elements v (.field .native) (.unsigned maxval))
  | .downcastUnsigned fromMaxval toMaxval e => do
    let v ← eval e
    result (evalCast crypto.elements v (.unsigned fromMaxval) (.unsigned toMaxval))
  | .eltRef e elt _ => do
    let ty ← inferHere program e
    let v ← eval e
    result (fieldOf v ty elt)
  | .fieldToBytes len fieldType e => do
    let v ← eval e
    result (fieldToBytes crypto len fieldType v)
  | .bytesToVector len e => do
    let v ← eval e
    let bytes ← result (irLength len >>= paddedBytes v)
    pure (.tuple (bytes.map (fun b => .alignedValue (ofU8 b.toNat))))
  | .vectorToBytes len e => do
    let v ← eval e
    let len ← result (irLength len)
    let bytes ← result (vectorValueToBytes v len)
    result ((bytesAlignedValue bytes len).map .alignedValue)
  | .contractCall circuit receiver contractType _ => do
    checkTypeAtRun contractType.ty
    fail (.unsupported ("cross-contract calls are not implemented yet " ++
      s!"(call to {callTarget receiver contractType}.{circuit})"))
  | .enumRef ty elt => do
    checkTypeAtRun ty
    result (enumMember ty elt)
  | .map len fn args => do
    let values ← each (evalMapArg eval) args
    let len ← result (irLength len)
    let out ← mapLoop program eval fn values 0 len
    pure (.tuple out)
  | .fold len fn init _ args => do
    let acc ← eval init
    let values ← each (evalMapArg eval) args
    let len ← result (irLength len)
    foldLoop program eval fn values 0 len acc
  | .bytesRef ty e index => do
    checkTypeAtRun ty
    let v ← eval e
    let i ← evalIndex eval index "byte"
    result (byteRef v ty i)
  | .tupleSlice ty e index len => do
    checkTypeAtRun ty
    let v ← eval e
    let start ← result (irLength index)
    let len ← result (irLength len)
    result (sliceElements v ty start len)
  | .vectorSlice ty e index len => do
    checkTypeAtRun ty
    let v ← eval e
    let start ← evalIndex eval index "slice"
    let len ← result (irLength len)
    result (sliceElements v ty start len)
  | .bytesSlice ty e index len => do
    checkTypeAtRun ty
    let v ← eval e
    let start ← evalIndex eval index "slice"
    result (bytesSlice v ty start len)

end Steps

section Runs

variable {c : Codecs} (crypto : Crypto c) {vm : Vm} (program : Program) (env : Env vm)

/-- The evaluator with a fuel: one unit for each nesting. -/
def evalExpr : ℕ → Expr → Exec vm Value
  | 0, _ => stop .outOfFuel
  | fuel + 1, e => evalNode crypto program env (evalExpr fuel) e

structure ExecutionResult (vm : Vm) where
  context : ExecContext vm
  result : Value
  communicationOutputs : List AlignedValue

/-- Binds the arguments, which arrive under their source names. -/
def bindArguments (args : List (String × Value)) : List Argument → Exec vm Unit
  | [] => pure ()
  | argument :: arguments => do
    checkTypeAtRun argument.ty
    modify (fun ctx => { ctx with
      localTypes := Function.update ctx.localTypes argument.name (some argument.ty)
      locals := match args.lookup (Ident.name argument.name) with
        | some v => Function.update ctx.locals argument.name (some v)
        | none => ctx.locals })
    bindArguments args arguments

def initialContext (state : vm.State) (privateState : Bytes) : ExecContext vm :=
  { state := state
    locals := fun _ => none
    localTypes := fun _ => none
    reads := []
    gatherOps := []
    privateTranscriptOutputs := []
    zswapOutputs := []
    zswapInputs := []
    logs := []
    privateState := privateState }

/-- Runs a circuit, and encodes its value at the declared result type. -/
def runCircuit (fuel : ℕ) (circuit : Circuit) (args : List (String × Value)) :
    Exec vm (Value × List AlignedValue) := do
  bindArguments args circuit.arguments
  checkTypeAtRun circuit.resultType
  let v ← evalExpr crypto program env fuel circuit.body
  match v with
  | .void => pure (v, [])
  | _ => do
    let av ← result (encodeTyped c v circuit.resultType)
    pure (v, [av])

def execute (fuel : ℕ) (circuit : Circuit) (state : vm.State) (privateState : Bytes)
    (args : List (String × Value)) : Except Halt (ExecutionResult vm) :=
  match (runCircuit crypto program env fuel circuit args).run (initialContext state privateState) with
  | .error halt => .error halt
  | .ok ((v, outputs), ctx) =>
    .ok { context := ctx, result := v, communicationOutputs := outputs }

end Runs

/-- The program that a loaded contract runs with. -/
def ContractInfo.program (info : ContractInfo) : Program :=
  { circuits := info.helpers, witnesses := info.witnesses, natives := info.natives }

end MidnightRs.Circuits
