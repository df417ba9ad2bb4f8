import MidnightRs.Decoders
import MidnightRs.RunRecords

/-!
Calls with typed values. The generated code turns the Rust values of a call's arguments
into values of the interpreter, and the circuit's value back into a Rust value. The second
conversion goes by the type alone, while a value is structured or flat by where it came from.
-/
namespace MidnightRs.TypedCalls

open MidnightRs.Compact DataTypes Circuits Results Triples
open TypedValues (uintFits)

section Conversions

/-- The texts that Rust derives for types, values and errors. -/
structure Texts where
  rust : RustIdents
  debug : Value → String
  display : InterpreterError → String

variable {c : Codecs} (crates : Decoding c) (texts : Texts)

def mismatch (context expected : String) (v : Value) : InterpreterError :=
  .typeError s!"{context}: expected {expected}, got {texts.debug v}"

/-- An integer as the Rust type, if it fits. -/
def uintTryFrom : (tokens : UintTokens) → ℕ → Option { n : ℕ // tokens.Holds n }
  | .primitive bytes, n => if h : n < 256 ^ bytes then some ⟨n, h⟩ else none
  | .uint bits, n =>
    if uintFits bits n then if h : n < 2 ^ bits ∧ n < u128Bound then some ⟨n, h⟩ else none
    else none
  | .compileError, _ => none

/-- Encodes the value at its type, and decodes the Rust value from the atoms. -/
def encodeThenDecode (context : String) (ty : Ty) (v : Value) :
    Except InterpreterError (RustVal c ty) :=
  match encodeTyped c v ty with
  | .error e => .error (.typeError s!"{context}: {texts.display e}")
  | .ok av =>
    match decodeValue crates ty av.value with
    | .ok x => .ok x
    | .error e =>
      let rustTy := typeToTokens texts.rust ty
      .error (.typeError s!"{context}: failed to convert value to {rustTy}: {e}")

def boolOf (context : String) : Value → Except InterpreterError Bool
  | .bool b => .ok b
  | v => .error (mismatch texts context "a Bool value" v)

def uintOf (context : String) (maxval : ℕ) :
    Value → Except InterpreterError { n : ℕ // (uintTokens maxval).Holds n }
  | .integer n =>
    match uintTryFrom (uintTokens maxval) n with
    | some x => .ok x
    | none => .error (.typeError s!"{context}: value {n} does not fit in {uintText maxval}")
  | v => .error (mismatch texts context "an Integer value" v)

/-- The Rust value of an interpreter value. A boolean and an integer have to be structured;
the other types encode the value first. -/
def valueToType (context : String) : (ty : Ty) → Value → Except InterpreterError (RustVal c ty)
  | .boolean, v => boolOf texts context v
  | .unsigned maxval, v => uintOf texts context maxval v
  | .aliasOf _ _ ty, v => valueToType context ty v
  | ty, v => encodeThenDecode crates texts context ty v

/-- The interpreter value of a Rust value. A vector keeps its elements apart, so that a body
can index it. -/
def typeToValue : (ty : Ty) → RustVal c ty → Value
  | .boolean, b => .bool b
  | .unsigned _, n => .integer n.val
  | .vector _ ty, xs => .tuple (xs.val.map (typeToValue ty))
  | .aliasOf _ _ ty, x => typeToValue ty x
  | ty, x => .alignedValue (encodeToAlignedValue ty x)

/-- The argument values by their source names. -/
def argsBinding : (arguments : List Argument) → RustTuple c (arguments.map Argument.ty) →
    List (String × Value)
  | [], _ => []
  | argument :: arguments, (x, xs) =>
    (Ident.name argument.name, typeToValue argument.ty x) :: argsBinding arguments xs

/-- A unit type, which has no value to read. -/
def isVoidType : Ty → Bool
  | .tuple [] => true
  | .aliasOf _ _ ty => isVoidType ty
  | _ => false

/-- The typed result of a call. -/
def circuitDecode (context : String) : (ty : Ty) → Value → Except InterpreterError (RustVal c ty)
  | .tuple [], _ => .ok ()
  | .aliasOf _ _ ty, v => circuitDecode context ty v
  | ty, v => valueToType crates texts context ty v

end Conversions

section Inputs

/-- The encoding of each argument at its declared type. -/
def encodeInputs (c : Codecs) (arguments : List Argument) :
    List (String × Value) → Except InterpreterError (List AlignedValue)
  | [] => .ok []
  | (name, v) :: args => do
    let av ← match arguments.find? fun a => decide (Ident.name a.name = name) with
      | some argument => encodeTyped c v argument.ty
      | none => tryToAlignedValue v
    let avs ← encodeInputs c arguments args
    pure (av :: avs)

/-- A call's input, which the transcript binds. -/
def encodeCircuitInput (c : Codecs) (args : List (String × Value)) (arguments : List Argument) :
    Except InterpreterError AlignedValue :=
  match args with
  | [] => .ok .unit
  | _ => (encodeInputs c arguments args).map .concat

end Inputs

section Crossing

variable {c : Codecs} (crates : Decoding c) (texts : Texts) (context : String)

/-- What the conversion takes as it is: a boolean and an integer that are structured, and
every form of another type. -/
def Taken (ty : Ty) (v : Value) : Prop :=
  match ty.resolved with
  | .boolean => ∃ b, v = .bool b
  | .unsigned _ => ∃ n, v = .integer n
  | _ => True

theorem uintTryFrom_holds {tokens : UintTokens} {n : ℕ} (h : tokens.Holds n) :
    uintTryFrom tokens n = some ⟨n, h⟩ := by
  cases tokens with
  | primitive bytes => exact dif_pos h
  | uint bits =>
    have hfits := (TypedValues.uintFits_iff bits n h.2).mpr h.1
    simp only [uintTryFrom, hfits, if_true]
    exact dif_pos h
  | compileError => exact h.elim

/-- The arguments of a call spell the values that they are made of. -/
theorem spelled_typeToValue : (ty : Ty) → Executable ty → (x : RustVal c ty) →
    Spelled ty x (typeToValue ty x)
  | .boolean, _, _ => .inr (.inl rfl)
  | .unsigned _, _, _ => .inr rfl
  | .vector _ ty, hty, xs => by
    refine .inr ⟨_, rfl, ?_⟩
    rw [List.forall₂_map_right_iff, List.forall₂_same]
    exact fun x _ => spelled_typeToValue ty hty x
  | .aliasOf _ _ ty, hty, x => spelled_typeToValue ty hty x
  | .field f, hty, x => spelled_flat (.field f) hty x
  | .point curve, hty, x => spelled_flat (.point curve) hty x
  | .bytes length, hty, x => spelled_flat (.bytes length) hty x
  | .opaqueData name, hty, x => spelled_flat (.opaqueData name) hty x
  | .tuple types, hty, x => spelled_flat (.tuple types) hty x
  | .struct name fields, hty, x => spelled_flat (.struct name fields) hty x
  | .enum name variants, hty, x => spelled_flat (.enum name variants) hty x
  | .contract name, hty, x => spelled_flat (.contract name) hty x

theorem taken_typeToValue : (ty : Ty) → (x : RustVal c ty) → Taken ty (typeToValue ty x)
  | .boolean, b => ⟨b, rfl⟩
  | .unsigned _, n => ⟨n.val, rfl⟩
  | .aliasOf _ _ ty, x => taken_typeToValue ty x
  | .vector _ _, _ => trivial
  | .field _, _ => trivial
  | .point _, _ => trivial
  | .bytes _, _ => trivial
  | .opaqueData _, _ => trivial
  | .tuple _, _ => trivial
  | .struct _ _, _ => trivial
  | .enum _ _, _ => trivial
  | .contract _, _ => trivial
  | .adt _, _ => trivial
  | .typeVar _, _ => trivial
  | .unknown, _ => trivial

variable {ty : Ty} {x : RustVal c ty} {v : Value}

theorem encodeThenDecode_spelled (hty : Executable ty) (hnarrow : NarrowTuples ty)
    (hx : InBounds ty x) (hwritten : Written crates ty x) (hv : Spelled ty x v) :
    encodeThenDecode crates texts context ty v = .ok (settled ty x) := by
  simp only [encodeThenDecode, encodeTyped_spelled c ty x hx v hv,
    decodeValue_encode crates ty hty hnarrow x hwritten]

/-- What the conversion gives for a spelling of a value. -/
def Answered (ty : Ty) (x : RustVal c ty) (v : Value)
    (answer : Except InterpreterError (RustVal c ty)) : Prop :=
  (Taken ty v → answer = .ok (settled ty x)) ∧
    (¬ Taken ty v → ∃ expected, answer = .error (mismatch texts context expected v))

theorem answered_taken {answer : Except InterpreterError (RustVal c ty)} (hv : Taken ty v)
    (h : answer = .ok (settled ty x)) : Answered texts context ty x v answer :=
  ⟨fun _ => h, fun hnot => absurd hv hnot⟩

/-- A flat boolean and a flat integer are not what the conversion takes. -/
theorem answered_mismatch {answer : Except InterpreterError (RustVal c ty)} (hv : ¬ Taken ty v)
    {expected : String} (h : answer = .error (mismatch texts context expected v)) :
    Answered texts context ty x v answer :=
  ⟨fun htaken => absurd htaken hv, fun _ => ⟨expected, h⟩⟩

theorem answered_encoded (hv : Taken ty v) (hty : Executable ty) (hnarrow : NarrowTuples ty)
    (hx : InBounds ty x) (hwritten : Written crates ty x) (hspelled : Spelled ty x v) :
    Answered texts context ty x v (encodeThenDecode crates texts context ty v) :=
  answered_taken texts context hv
    (encodeThenDecode_spelled crates texts context hty hnarrow hx hwritten hspelled)

/-- The conversion takes every spelling of a value but a flat boolean and a flat integer. -/
theorem valueToType_answered : (ty : Ty) → Executable ty → NarrowTuples ty → (x : RustVal c ty) →
    InBounds ty x → Written crates ty x → (v : Value) → Spelled ty x v →
    Answered texts context ty x v (valueToType crates texts context ty v)
  | .boolean, _, _, b, _, _, v, hv => by
    rcases hv with rfl | rfl | rfl
    · exact answered_mismatch texts context (by rintro ⟨_, h⟩; cases h) rfl
    · exact answered_taken texts context ⟨b, rfl⟩ rfl
    · exact answered_mismatch texts context (by rintro ⟨_, h⟩; cases h) rfl
  | .unsigned maxval, _, _, n, _, _, v, hv => by
    rcases hv with rfl | rfl
    · exact answered_mismatch texts context (by rintro ⟨_, h⟩; cases h) rfl
    · refine answered_taken texts context ⟨n.val, rfl⟩ ?_
      show uintOf texts context maxval (.integer n.val) = .ok n
      simp only [uintOf, uintTryFrom_holds n.property]
      rfl
  | .aliasOf _ _ ty, hty, hnarrow, x, hx, hw, v, hv =>
    valueToType_answered ty hty hnarrow x hx hw v hv
  | .vector _ _, hty, hnarrow, _, hx, hw, _, hv =>
    answered_encoded crates texts context trivial hty hnarrow hx hw hv
  | .field _, hty, hnarrow, _, hx, hw, _, hv =>
    answered_encoded crates texts context trivial hty hnarrow hx hw hv
  | .point _, hty, hnarrow, _, hx, hw, _, hv =>
    answered_encoded crates texts context trivial hty hnarrow hx hw hv
  | .bytes _, hty, hnarrow, _, hx, hw, _, hv =>
    answered_encoded crates texts context trivial hty hnarrow hx hw hv
  | .opaqueData _, hty, hnarrow, _, hx, hw, _, hv =>
    answered_encoded crates texts context trivial hty hnarrow hx hw hv
  | .tuple _, hty, hnarrow, _, hx, hw, _, hv =>
    answered_encoded crates texts context trivial hty hnarrow hx hw hv
  | .struct _ _, hty, hnarrow, _, hx, hw, _, hv =>
    answered_encoded crates texts context trivial hty hnarrow hx hw hv
  | .enum _ _, hty, hnarrow, _, hx, hw, _, hv =>
    answered_encoded crates texts context trivial hty hnarrow hx hw hv
  | .contract _, hty, hnarrow, _, hx, hw, _, hv =>
    answered_encoded crates texts context trivial hty hnarrow hx hw hv

/-- A unit result needs no value to read. -/
theorem circuitDecode_void : (ty : Ty) → isVoidType ty = true → (v : Value) →
    ∃ y, circuitDecode crates texts context ty v = .ok y
  | .tuple [], _, _ => ⟨(), rfl⟩
  | .aliasOf _ _ ty, h, v => circuitDecode_void ty h v

/-- A unit result needs no conversion, and every other one is converted. -/
theorem circuitDecode_answered : (ty : Ty) → Executable ty → NarrowTuples ty →
    (x : RustVal c ty) → InBounds ty x → Written crates ty x → (v : Value) → Spelled ty x v →
    Answered texts context ty x v (circuitDecode crates texts context ty v)
  | .tuple [], _, _, _, _, _, _, _ => answered_taken texts context trivial rfl
  | .tuple (_ :: _), hty, hnarrow, _, hx, hw, _, hv =>
    answered_encoded crates texts context trivial hty hnarrow hx hw hv
  | .aliasOf _ _ ty, hty, hnarrow, x, hx, hw, v, hv =>
    circuitDecode_answered ty hty hnarrow x hx hw v hv
  | .boolean, hty, hnarrow, x, hx, hw, v, hv =>
    valueToType_answered crates texts context .boolean hty hnarrow x hx hw v hv
  | .unsigned maxval, hty, hnarrow, x, hx, hw, v, hv =>
    valueToType_answered crates texts context (.unsigned maxval) hty hnarrow x hx hw v hv
  | .vector _ _, hty, hnarrow, _, hx, hw, _, hv =>
    answered_encoded crates texts context trivial hty hnarrow hx hw hv
  | .field _, hty, hnarrow, _, hx, hw, _, hv =>
    answered_encoded crates texts context trivial hty hnarrow hx hw hv
  | .point _, hty, hnarrow, _, hx, hw, _, hv =>
    answered_encoded crates texts context trivial hty hnarrow hx hw hv
  | .bytes _, hty, hnarrow, _, hx, hw, _, hv =>
    answered_encoded crates texts context trivial hty hnarrow hx hw hv
  | .opaqueData _, hty, hnarrow, _, hx, hw, _, hv =>
    answered_encoded crates texts context trivial hty hnarrow hx hw hv
  | .struct _ _, hty, hnarrow, _, hx, hw, _, hv =>
    answered_encoded crates texts context trivial hty hnarrow hx hw hv
  | .enum _ _, hty, hnarrow, _, hx, hw, _, hv =>
    answered_encoded crates texts context trivial hty hnarrow hx hw hv
  | .contract _, hty, hnarrow, _, hx, hw, _, hv =>
    answered_encoded crates texts context trivial hty hnarrow hx hw hv

end Crossing

section Calls

variable {c : Codecs} {vm : Vm}

theorem find_argument {arguments : List Argument} {a : Argument}
    (hnames : (arguments.map fun b => Ident.name b.name).Nodup) (ha : a ∈ arguments) :
    arguments.find? (fun b => decide (Ident.name b.name = Ident.name a.name)) = some a := by
  induction arguments with
  | nil => cases ha
  | cons b arguments ih =>
    obtain ⟨hfirst, hrest⟩ := List.nodup_cons.mp hnames
    rcases List.mem_cons.mp ha with rfl | ha
    · exact List.find?_cons_of_pos (decide_eq_true rfl)
    · have hne : Ident.name b.name ≠ Ident.name a.name := by
        intro heq
        exact hfirst (List.mem_map.mpr ⟨a, ha, heq.symm⟩)
      rw [List.find?_cons_of_neg (by simpa using hne)]
      exact ih hrest ha

theorem encodeInputs_argsBinding {all : List Argument} : (arguments : List Argument) →
    (∀ a ∈ arguments,
      all.find? (fun b => decide (Ident.name b.name = Ident.name a.name)) = some a) →
    AllExecutable (arguments.map Argument.ty) → (xs : RustTuple c (arguments.map Argument.ty)) →
    ElementsInBounds (arguments.map Argument.ty) xs →
    encodeInputs c all (argsBinding arguments xs) =
      .ok (encodeElements (arguments.map Argument.ty) xs)
  | [], _, _, _, _ => rfl
  | a :: arguments, hfind, hty, (x, xs), hxs => by
    have hx := encodeTyped_spelled c a.ty x hxs.1 _ (spelled_typeToValue a.ty hty.1 x)
    have hrest := encodeInputs_argsBinding arguments
      (fun b hb => hfind b (List.mem_cons_of_mem a hb)) hty.2 xs hxs.2
    rw [argsBinding, encodeInputs]
    simp only [hfind a List.mem_cons_self, hx, hrest]
    rfl

/-- Typed arguments are bound as their conversions to aligned values give them. -/
theorem encodeCircuitInput_argsBinding {arguments : List Argument}
    (hnames : (arguments.map fun a => Ident.name a.name).Nodup)
    (hty : AllExecutable (arguments.map Argument.ty))
    (xs : RustTuple c (arguments.map Argument.ty))
    (hxs : ElementsInBounds (arguments.map Argument.ty) xs) :
    encodeCircuitInput c (argsBinding arguments xs) arguments =
      .ok (.concat (encodeElements (arguments.map Argument.ty) xs)) := by
  have hinputs :=
    encodeInputs_argsBinding arguments (fun a ha => find_argument hnames ha) hty xs hxs
  cases arguments with
  | nil => rfl
  | cons a arguments =>
    obtain ⟨x, xs⟩ := xs
    show (encodeInputs c (a :: arguments) (argsBinding (a :: arguments) (x, xs))).map _ = _
    rw [hinputs]
    rfl

/-- A run binds nothing for a void value, and the encoding of every other one. -/
theorem execute_outputs {crypto : Crypto c} {program : Program} {env : Env vm} {fuel : ℕ}
    {circuit : Circuit} {state : vm.State} {privateState : Bytes} {args : List (String × Value)}
    {ran : ExecutionResult vm}
    (h : execute crypto program env fuel circuit state privateState args = .ok ran) :
    (ran.result = .void → ran.communicationOutputs = []) ∧
      (ran.result ≠ .void → ∃ av, encodeTyped c ran.result circuit.resultType = .ok av ∧
        ran.communicationOutputs = [av]) := by
  unfold execute at h
  cases hrun : (runCircuit crypto program env fuel circuit args).run
      (initialContext state privateState) with
  | error halt =>
    rw [hrun] at h
    cases h
  | ok r =>
    obtain ⟨⟨v, outputs⟩, ctx⟩ := r
    rw [hrun] at h
    cases h
    obtain ⟨_, _, _, h⟩ := runs_bind_iff.mp hrun
    obtain ⟨_, _, _, h⟩ := runs_bind_iff.mp h
    obtain ⟨w, _, _, h⟩ := runs_bind_iff.mp h
    cases w with
    | void =>
      obtain ⟨hv, -⟩ := runs_pure_iff.mp h
      obtain ⟨rfl, rfl⟩ := Prod.mk.inj hv
      exact ⟨fun _ => rfl, fun hvoid => absurd rfl hvoid⟩
    | _ =>
      obtain ⟨av, _, hav, h⟩ := runs_bind_iff.mp h
      obtain ⟨hv, -⟩ := runs_pure_iff.mp h
      obtain ⟨rfl, rfl⟩ := Prod.mk.inj hv
      exact ⟨fun hvoid => (by cases hvoid), fun _ => ⟨av, (runs_result_iff.mp hav).1, rfl⟩⟩

end Calls

section Crossed

variable {c : Codecs} (crates : Decoding c) (texts : Texts) (context : String)

/-- However the interpreter spells a value, the generated conversion gives the value back
without the zeros at the end of its opaque bytes, and the value is encoded as its own
conversion to an aligned value; only a flat boolean and a flat integer are refused. -/
theorem values_cross {ty : Ty} (hty : Executable ty) (hnarrow : NarrowTuples ty)
    (x : RustVal c ty) (hx : InBounds ty x) (hwritten : Written crates ty x) :
    (∀ v, Spelled ty x v → encodeTyped c v ty = .ok (encodeToAlignedValue ty x) ∧
      Answered texts context ty x v (valueToType crates texts context ty v)) ∧
    Spelled ty x (typeToValue ty x) ∧
    valueToType crates texts context ty (typeToValue ty x) = .ok (settled ty x) ∧
    (settled ty x = x ↔ Trimmed ty x) := by
  have hanswered := fun v =>
    valueToType_answered crates texts context ty hty hnarrow x hx hwritten v
  have hsent := spelled_typeToValue ty hty x
  exact ⟨fun v hv => ⟨encodeTyped_spelled c ty x hx v hv, hanswered v hv⟩, hsent,
    (hanswered _ hsent).1 (taken_typeToValue ty x), settled_eq_iff ty x⟩

def plainTexts : Texts := ⟨asciiIdents, fun _ => "value", fun _ => "error"⟩

/-- A structured digit whose flags are a boolean and an integer. -/
theorem values_cross_digit :
    valueToType plainDecoding plainTexts "the digit" digitTy
      (.struct [("flags", .tuple [.bool true, .integer 0]), ("digit", .integer 7)]) =
        .ok (digit 7 (by decide)) := by
  have hcross := values_cross plainDecoding plainTexts "the digit"
    (show Executable digitTy from ⟨trivial, trivial, trivial⟩)
    (show NarrowTuples digitTy from ⟨trivial, trivial, trivial⟩) (digit 7 (by decide))
    (show InBounds digitTy _ from ⟨(by decide : 7 ≤ 9), fun _ _ => trivial, trivial⟩)
    (show Written plainDecoding digitTy _ from ⟨trivial, fun _ _ => trivial, trivial⟩)
  refine (hcross.1 _ (.inr ?_)).2.1 trivial
  refine ⟨[.integer 7, .tuple [.bool true, .integer 0]],
    ⟨_, _, rfl, .inr rfl, _, _, rfl, .inr ⟨_, rfl, ?_⟩, rfl⟩,
    .inr ⟨_, rfl, rfl, .cons rfl (.cons rfl .nil)⟩⟩
  exact .cons (.inr (.inl rfl)) (.cons (.inr (.inr rfl)) .nil)

variable (crypto : Crypto c) {vm : Vm} (program : Program) (env : Env vm)

/-- A typed call binds its arguments as their own conversions to aligned values, nothing
for a void value, and every other value that spells a result as that result's conversion.
It returns unit at a unit type, and at every type the result that is spelled, unless that
is a flat boolean or a flat integer, of which it says so. -/
theorem typed_call_crosses (circuit : Circuit)
    (hnames : (circuit.arguments.map fun a => Ident.name a.name).Nodup)
    (hargs : AllExecutable (circuit.arguments.map Argument.ty))
    (xs : RustTuple c (circuit.arguments.map Argument.ty))
    (hxs : ElementsInBounds (circuit.arguments.map Argument.ty) xs)
    (hty : Executable circuit.resultType) (hnarrow : NarrowTuples circuit.resultType) :
    encodeCircuitInput c (argsBinding circuit.arguments xs) circuit.arguments =
        .ok (.concat (encodeElements (circuit.arguments.map Argument.ty) xs)) ∧
      ∀ fuel state privateState ran, execute crypto program env fuel circuit state privateState
          (argsBinding circuit.arguments xs) = .ok ran →
        (ran.result = .void → ran.communicationOutputs = []) ∧
        (isVoidType circuit.resultType = true →
          ∃ y, circuitDecode crates texts context circuit.resultType ran.result = .ok y) ∧
        ∀ y : RustVal c circuit.resultType, InBounds circuit.resultType y →
          Written crates circuit.resultType y → Spelled circuit.resultType y ran.result →
          (ran.result ≠ .void →
            ran.communicationOutputs = [encodeToAlignedValue circuit.resultType y]) ∧
          Answered texts context circuit.resultType y ran.result
            (circuitDecode crates texts context circuit.resultType ran.result) := by
  refine ⟨encodeCircuitInput_argsBinding hnames hargs xs hxs, ?_⟩
  intro fuel state privateState ran hran
  have houtput := execute_outputs hran
  refine ⟨houtput.1, fun hunit => circuitDecode_void crates texts context _ hunit _, ?_⟩
  intro y hy hwritten hspelled
  refine ⟨fun hvoid => ?_, ?_⟩
  · obtain ⟨av, hav, houtputs⟩ := houtput.2 hvoid
    rw [encodeTyped_spelled c circuit.resultType y hy _ hspelled] at hav
    rw [houtputs, Except.ok.inj hav]
  · exact circuitDecode_answered crates texts context circuit.resultType hty hnarrow y hy hwritten
      ran.result hspelled

/-- A circuit that returns its argument. -/
def echoCircuit : Circuit :=
  { booleanCircuit "%echo.1" (.varRef "%digit.2") with
    arguments := [⟨"%digit.2", digitTy⟩]
    resultType := digitTy }

theorem typed_call_crosses_echo :
    ∃ ran, execute plainCrypto ⟨[], [], []⟩ plainEnv 3 echoCircuit () []
        [("digit", typeToValue digitTy (digit 7 (by decide)))] = .ok ran ∧
      ran.communicationOutputs = [encodeToAlignedValue digitTy (digit 7 (by decide))] ∧
      circuitDecode plainDecoding plainTexts "the echo" digitTy ran.result =
        .ok (digit 7 (by decide)) := by
  have hbounds : InBounds digitTy (digit 7 (by decide)) :=
    ⟨(by decide : 7 ≤ 9), fun _ _ => trivial, trivial⟩
  have hty : Executable digitTy := ⟨trivial, trivial, trivial⟩
  have hcross := typed_call_crosses plainDecoding plainTexts "the echo" plainCrypto ⟨[], [], []⟩
    plainEnv echoCircuit (by decide) ⟨hty, trivial⟩ (digit 7 (by decide), ())
    ⟨hbounds, trivial⟩ hty ⟨trivial, trivial, trivial⟩
  refine ⟨_, rfl, ?_⟩
  obtain ⟨houtputs, hresult⟩ := (hcross.2 3 () [] _ rfl).2.2 (digit 7 (by decide)) hbounds
    ⟨trivial, fun _ _ => trivial, trivial⟩ (.inl rfl)
  exact ⟨houtputs (by rintro ⟨⟩), hresult.1 trivial⟩

end Crossed

end MidnightRs.TypedCalls
