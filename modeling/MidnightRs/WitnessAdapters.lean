import MidnightRs.TypedCalls
import MidnightRs.ContractFlows

/-!
The adapter from typed witnesses to the provider of the interpreter. The private state is a
typed value to the witnesses, and a buffer with its encoding to the run and to the store; a
run on the buffer is a run of the typed witnesses on the value.
-/
namespace MidnightRs.TypedCalls

open MidnightRs.Compact DataTypes Circuits Results Triples

section Adapter

/-- The encoding of a private state, and the state of a contract that has none stored. -/
structure Serde (P : Type) where
  fromSlice : Bytes → Except String P
  toVec : P → Except String Bytes
  default : P

/-- An encoding is never empty, and comes back. -/
structure Serde.Lawful {P : Type} (serde : Serde P) : Prop where
  fromSlice_toVec : ∀ s bytes, serde.toVec s = .ok bytes → serde.fromSlice bytes = .ok s
  nonempty : ∀ s, serde.toVec s ≠ .ok []

/-- A witness with its method, which may change the private state. -/
structure TypedWitness (c : Codecs) (P : Type) where
  declaration : Witness
  method : P → RustTuple c (declaration.arguments.map Argument.ty) →
    Except String (RustVal c declaration.resultType × P)

variable {c : Codecs} (crates : Decoding c) (texts : Texts)

def argumentContext (name argument : String) : String := s!"witness `{name}` argument `{argument}`"

/-- The typed arguments, from as many of the values as the witness declares. -/
def bindArgs (name : String) : ℕ → (arguments : List Argument) → List Value →
    Except InterpreterError (RustTuple c (arguments.map Argument.ty))
  | _, [], _ => .ok ()
  | i, _ :: _, [] => .error (.witness s!"{name}: missing argument {i}")
  | i, a :: arguments, v :: values => do
    let x ← valueToType crates texts (argumentContext name (Ident.name a.name)) a.ty v
    let xs ← bindArgs name (i + 1) arguments values
    .ok (x, xs)

variable {P : Type}

/-- What a witness makes of a state and of the interpreter's values. -/
def TypedWitness.call (w : TypedWitness c P) (s : P) (values : List Value) :
    Except InterpreterError (RustVal c w.declaration.resultType × P) := do
  let xs ← bindArgs crates texts (Ident.name w.declaration.name) 0 w.declaration.arguments values
  (w.method s xs).mapError .witness

def find (witnesses : List (TypedWitness c P)) (name : String) : Option (TypedWitness c P) :=
  witnesses.find? fun w => decide (Ident.name w.declaration.name = name)

namespace Serde

variable (serde : Serde P)

def load (buffer : Bytes) : Except InterpreterError P :=
  if buffer = [] then .ok serde.default
  else (serde.fromSlice buffer).mapError fun e => .witness s!"decode private state: {e}"

def encode (s : P) : Except InterpreterError Bytes :=
  (serde.toVec s).mapError fun e => .witness s!"encode private state: {e}"

/-- What a buffer holds. An empty one holds the default state. -/
def held (buffer : Bytes) : Except InterpreterError Bytes :=
  if buffer = [] then serde.encode serde.default else .ok buffer

/-- The buffer after a witness. One that holds the encoding of the state stays as it is. -/
def store (buffer : Bytes) (s : P) : Except InterpreterError Bytes := do
  let new ← serde.encode s
  let held ← serde.held buffer
  .ok (if new = held then buffer else new)

end Serde

variable (serde : Serde P) (witnesses : List (TypedWitness c P))

/-- The generated provider. An unknown name is told before the state is decoded. -/
def callWitness (buffer : Bytes) (name : String) (values : List Value) :
    Result (Option Value × Bytes) :=
  match find witnesses name with
  | none => .ok (none, buffer)
  | some w => do
    let s ← serde.load buffer
    let (r, s) ← w.call crates texts s values
    let ty := w.declaration.resultType
    let v := if isVoidType ty then .void else typeToValue ty r
    let buffer ← serde.store buffer s
    .ok (some v, buffer)

/-- The surroundings of a run with typed witnesses. -/
def adapted {vm : Vm} (env : Env vm) : Env vm :=
  { env with callWitness := callWitness crates texts serde witnesses }

end Adapter

section TypedRuns

variable {c : Codecs} (crates : Decoding c) (texts : Texts) {P : Type}
  (witnesses : List (TypedWitness c P)) {vm : Vm} (coinPublicKey : Option Bytes)

/-- What the witnesses of some requests make of a state: the state after each of them, and
the atoms that the private transcript gets. -/
def typedRun : P → List (Request vm) → Option (List P × List (List Atom))
  | _, [] => some ([], [])
  | s, .witness name values :: requests => do
    let w ← find witnesses name
    let (r, s) ← (w.call crates texts s values).toOption
    let (states, atoms) ← typedRun s requests
    some (s :: states, (encodeToAlignedValue w.declaration.resultType r).value :: atoms)
  | s, .ownKey :: requests => do
    let key ← coinPublicKey
    let (states, atoms) ← typedRun s requests
    some (states, [trim key] :: atoms)
  | s, .query _ :: requests => typedRun s requests
  | s, .zswapOutput _ _ :: requests => typedRun s requests
  | s, .zswapInput _ :: requests => typedRun s requests

end TypedRuns

section Buffers

variable {P : Type} {serde : Serde P}

/-- Storing a state keeps an empty buffer for the default one, and writes every other. -/
theorem store_spec (hserde : serde.Lawful) {buffer buffer' : Bytes} {s : P}
    (h : serde.store buffer s = .ok buffer') :
    buffer = [] ∧ s = serde.default ∧ buffer' = [] ∨
      (buffer ≠ [] ∨ s ≠ serde.default) ∧ serde.toVec s = .ok buffer' := by
  obtain ⟨new, hnew, h⟩ := exists_of_bind h
  obtain ⟨held, hheld, h⟩ := exists_of_bind h
  have hnew := mapError_ok hnew
  unfold Serde.held at hheld
  by_cases hempty : buffer = []
  · rw [if_pos hempty] at hheld
    have hheld := mapError_ok hheld
    by_cases hsame : new = held
    · rw [if_pos hsame] at h
      refine .inl ⟨hempty, ?_, (Except.ok.inj h).symm.trans hempty⟩
      rw [← hsame] at hheld
      have hback := hserde.fromSlice_toVec _ _ hheld
      rw [hserde.fromSlice_toVec s new hnew] at hback
      exact Except.ok.inj hback
    · rw [if_neg hsame] at h
      refine .inr ⟨.inr fun hs => hsame ?_, (Except.ok.inj h) ▸ hnew⟩
      rw [hs, hheld] at hnew
      exact (Except.ok.inj hnew).symm
  · rw [if_neg hempty] at hheld
    obtain rfl := Except.ok.inj hheld
    refine .inr ⟨.inl hempty, ?_⟩
    have hwritten : (if new = buffer then buffer else new) = new := by
      split
      · rename_i heq
        exact heq.symm
      · rfl
    rw [hwritten] at h
    rw [← Except.ok.inj h]
    exact hnew

theorem load_store (hserde : serde.Lawful) {buffer buffer' : Bytes} {s : P}
    (h : serde.store buffer s = .ok buffer') : serde.load buffer' = .ok s := by
  unfold Serde.load
  rcases store_spec hserde h with ⟨-, rfl, rfl⟩ | ⟨-, hvec⟩
  · rfl
  · have hne : buffer' ≠ [] := by
      rintro rfl
      exact hserde.nonempty s hvec
    rw [if_neg hne, hserde.fromSlice_toVec s buffer' hvec]
    rfl

/-- What a buffer holds after the states that some witnesses left: an empty one stays empty as
long as each of them left the default state, and the last state's encoding takes its place
otherwise, even if the last state is the default one. -/
def Stored (serde : Serde P) (start : Bytes) (states : List P) (buffer : Bytes) : Prop :=
  match states.getLast? with
  | none => buffer = start
  | some s => start = [] ∧ (∀ t ∈ states, t = serde.default) ∧ buffer = [] ∨
      (start ≠ [] ∨ ∃ t ∈ states, t ≠ serde.default) ∧ serde.toVec s = .ok buffer

theorem stored_cons (hserde : serde.Lawful) {start buffer buffer' : Bytes} {s : P}
    {states : List P} (h : serde.store start s = .ok buffer)
    (hrest : Stored serde buffer states buffer') : Stored serde start (s :: states) buffer' := by
  have hstep := store_spec hserde h
  unfold Stored at hrest ⊢
  cases hlast : states.getLast? with
  | none =>
    obtain rfl := List.getLast?_eq_none_iff.mp hlast
    obtain rfl : buffer' = buffer := hrest
    rcases hstep with ⟨hstart, hs, hbuffer⟩ | ⟨hchanged, hvec⟩
    · exact .inl ⟨hstart, List.forall_mem_singleton.mpr hs, hbuffer⟩
    · exact .inr ⟨hchanged.imp_right fun hs => ⟨s, List.mem_singleton_self s, hs⟩, hvec⟩
  | some last =>
    rw [hlast] at hrest
    have hlast' : (s :: states).getLast? = some last := by
      rw [List.getLast?_cons, hlast]
      rfl
    rw [hlast']
    rcases hrest with ⟨hempty, hall, hbuffer⟩ | ⟨hchanged, hvec⟩
    · rcases hstep with ⟨hstart, hs, -⟩ | ⟨-, hvec⟩
      · exact .inl ⟨hstart, List.forall_mem_cons.mpr ⟨hs, hall⟩, hbuffer⟩
      · exact absurd (hempty ▸ hvec) (hserde.nonempty s)
    · refine .inr ⟨?_, hvec⟩
      rcases hstep with ⟨-, -, hempty⟩ | ⟨hstart | hs, -⟩
      · rcases hchanged with hne | ⟨t, ht, hne⟩
        · exact absurd hempty hne
        · exact .inr ⟨t, List.mem_cons_of_mem s ht, hne⟩
      · exact .inl hstart
      · exact .inr ⟨s, List.mem_cons_self, hs⟩

/-- A run records a snapshot when an empty buffer got a state that is not the default one, or
another buffer ends with another encoding. -/
def Recorded (serde : Serde P) (start : Bytes) (states : List P) : Prop :=
  start = [] ∧ (∃ t ∈ states, t ≠ serde.default) ∨
    start ≠ [] ∧ ∃ s, states.getLast? = some s ∧ serde.toVec s ≠ .ok start

theorem recorded_iff (hserde : serde.Lawful) {start buffer : Bytes} {states : List P}
    (h : Stored serde start states buffer) : buffer ≠ start ↔ Recorded serde start states := by
  unfold Stored at h
  unfold Recorded
  cases hlast : states.getLast? with
  | none =>
    obtain rfl := List.getLast?_eq_none_iff.mp hlast
    obtain rfl : buffer = start := h
    simp
  | some s =>
    rw [hlast] at h
    rcases h with ⟨rfl, hall, rfl⟩ | ⟨hchanged, hvec⟩
    · refine iff_of_false (fun hne => hne rfl) ?_
      rintro (⟨-, t, ht, hne⟩ | ⟨hne, -⟩)
      · exact hne (hall t ht)
      · exact hne rfl
    · by_cases hstart : start = []
      · have hne : buffer ≠ start := by
          rintro rfl
          exact hserde.nonempty s (hstart ▸ hvec)
        exact iff_of_true hne (.inl ⟨hstart, hchanged.resolve_left fun hne => hne hstart⟩)
      · constructor
        · refine fun hne => .inr ⟨hstart, s, rfl, fun heq => ?_⟩
          exact hne (Except.ok.inj (hvec.symm.trans heq))
        · rintro (⟨hempty, -⟩ | ⟨-, s', hs', hne⟩)
          · exact absurd hempty hstart
          · obtain rfl := Option.some.inj hs'
            rintro rfl
            exact hne hvec

end Buffers

section Atoms

variable {c : Codecs}

theorem untyped_elements {ty : Ty} (xs : List (RustVal c ty))
    (h : ∀ x ∈ xs, ∃ av, tryToAlignedValue (typeToValue ty x) = .ok av ∧
      av.value = (encodeToAlignedValue ty x).value) :
    ∃ avs, tryToAlignedValues (xs.map (typeToValue ty)) = .ok avs ∧
      avs.map AlignedValue.value = xs.map fun x => (encodeToAlignedValue ty x).value := by
  induction xs with
  | nil => exact ⟨[], rfl, rfl⟩
  | cons x xs ih =>
    obtain ⟨av, hav, hvalue⟩ := h x List.mem_cons_self
    obtain ⟨avs, havs, hvalues⟩ := ih fun y hy => h y (List.mem_cons_of_mem x hy)
    refine ⟨av :: avs, ?_, ?_⟩
    · rw [List.map_cons, tryToAlignedValues, hav]
      show (tryToAlignedValues _).map _ = _
      rw [havs]
      rfl
    · rw [List.map_cons, List.map_cons, hvalue, hvalues]

/-- The private transcript gets the atoms of the Rust value, whatever their alignment. -/
theorem untyped_atoms : (ty : Ty) → (x : RustVal c ty) →
    ∃ av, tryToAlignedValue (typeToValue ty x) = .ok av ∧
      av.value = (encodeToAlignedValue ty x).value
  | .boolean, _ => ⟨_, rfl, rfl⟩
  | .unsigned _, _ => ⟨_, rfl, rfl⟩
  | .vector _ ty, xs => by
    obtain ⟨avs, havs, hvalues⟩ := untyped_elements xs.val fun x _ => untyped_atoms ty x
    refine ⟨.concat avs, ?_, ?_⟩
    · show (tryToAlignedValues _).map _ = _
      rw [havs]
      rfl
    · simp only [AlignedValue.concat, encodeToAlignedValue, hvalues, List.map_map,
        Function.comp_def]
  | .aliasOf _ _ ty, x => untyped_atoms ty x
  | .field _, _ => ⟨_, rfl, rfl⟩
  | .point _, _ => ⟨_, rfl, rfl⟩
  | .bytes _, _ => ⟨_, rfl, rfl⟩
  | .opaqueData _, _ => ⟨_, rfl, rfl⟩
  | .tuple _, _ => ⟨_, rfl, rfl⟩
  | .struct _ _, _ => ⟨_, rfl, rfl⟩
  | .enum _ _, _ => ⟨_, rfl, rfl⟩
  | .contract _, _ => ⟨_, rfl, rfl⟩
  | .adt _, _ => ⟨_, rfl, rfl⟩
  | .typeVar _, _ => ⟨_, rfl, rfl⟩
  | .unknown, _ => ⟨_, rfl, rfl⟩

theorem void_atoms : (ty : Ty) → (x : RustVal c ty) → isVoidType ty = true →
    (encodeToAlignedValue ty x).value = []
  | .tuple [], _, _ => rfl
  | .aliasOf _ _ ty, x, h => void_atoms ty x h

end Atoms

section Refinement

theorem replay_cons_iff {vm : Vm} {env : Env vm} {request : Request vm}
    {requests : List (Request vm)} {r r' : Record vm} :
    replay env (request :: requests) r = some r' ↔
      ∃ mid, answered env r request = some mid ∧ replay env requests mid = some r' := by
  unfold replay
  rw [List.foldlM_cons]
  exact Option.bind_eq_some_iff

variable {c : Codecs} {crates : Decoding c} {texts : Texts} {P : Type} {serde : Serde P}
  {witnesses : List (TypedWitness c P)} {vm : Vm} {env : Env vm}

/-- An answered witness call is a call of the typed witness on the decoded state. -/
theorem answered_witness {r r' : Record vm} {name : String} {values : List Value}
    (h : answered (adapted crates texts serde witnesses env) r (.witness name values) = some r') :
    ∃ w x s s', find witnesses name = some w ∧ serde.load r.privateState = .ok s ∧
      w.call crates texts s values = .ok (x, s') ∧
      serde.store r.privateState s' = .ok r'.privateState ∧
      r'.privateTranscriptOutputs.map AlignedValue.value =
        r.privateTranscriptOutputs.map AlignedValue.value ++
          [(encodeToAlignedValue w.declaration.resultType x).value] := by
  obtain ⟨⟨found, buffer⟩, hcall, h⟩ := Option.bind_eq_some_iff.mp h
  obtain ⟨v, hfound, h⟩ := Option.bind_eq_some_iff.mp h
  obtain ⟨av, hav, rfl⟩ := Option.map_eq_some_iff.mp h
  obtain rfl : found = some v := hfound
  have hcall : callWitness crates texts serde witnesses r.privateState name values =
      .ok (some v, buffer) := toOption_eq_some hcall
  have hav := toOption_eq_some hav
  unfold callWitness at hcall
  cases hfind : find witnesses name with
  | none =>
    rw [hfind] at hcall
    cases hcall
  | some w =>
    rw [hfind] at hcall
    obtain ⟨s, hload, hcall⟩ := exists_of_bind hcall
    obtain ⟨⟨x, s'⟩, hmethod, hcall⟩ := exists_of_bind hcall
    obtain ⟨stored, hstore, hcall⟩ := exists_of_bind hcall
    obtain ⟨hv, rfl⟩ := Prod.mk.inj (Except.ok.inj hcall)
    obtain rfl := Option.some.inj hv
    refine ⟨w, x, s, s', rfl, hload, hmethod, hstore, ?_⟩
    have hatoms : av.value = (encodeToAlignedValue w.declaration.resultType x).value := by
      by_cases hvoid : isVoidType w.declaration.resultType = true
      · rw [if_pos hvoid] at hav
        rw [void_atoms _ x hvoid, ← Except.ok.inj hav]
        rfl
      · rw [if_neg hvoid] at hav
        obtain ⟨av', hav', hvalue⟩ := untyped_atoms w.declaration.resultType x
        rw [hav] at hav'
        rw [Except.ok.inj hav', hvalue]
    simp only [Record.recorded, List.map_append, List.map_cons, List.map_nil, hatoms]

/-- A replay of requests on a buffer is a run of the typed witnesses on what it holds. -/
theorem replay_typed (hserde : serde.Lawful) (requests : List (Request vm)) {r r' : Record vm}
    {s : P} (hload : serde.load r.privateState = .ok s)
    (h : replay (adapted crates texts serde witnesses env) requests r = some r') :
    ∃ states atoms, typedRun crates texts witnesses env.coinPublicKey s requests =
        some (states, atoms) ∧
      Stored serde r.privateState states r'.privateState ∧
      r'.privateTranscriptOutputs.map AlignedValue.value =
        r.privateTranscriptOutputs.map AlignedValue.value ++ atoms := by
  induction requests generalizing r s with
  | nil =>
    obtain rfl := Option.some.inj h
    exact ⟨[], [], rfl, rfl, (List.append_nil _).symm⟩
  | cons request requests ih =>
    obtain ⟨mid, hmid, hrest⟩ := replay_cons_iff.mp h
    cases request with
    | witness name values =>
      obtain ⟨w, x, s₀, s', hfind, hload', hmethod, hstore, hout⟩ := answered_witness hmid
      obtain rfl := Except.ok.inj (hload.symm.trans hload')
      obtain ⟨states, atoms, hrun, hstored, houts⟩ := ih (r := mid) (load_store hserde hstore) hrest
      refine ⟨s' :: states, (encodeToAlignedValue w.declaration.resultType x).value :: atoms, ?_,
        stored_cons hserde hstore hstored, ?_⟩
      · rw [typedRun, hfind]
        show (w.call crates texts s values).toOption.bind _ = _
        rw [hmethod]
        show (typedRun crates texts witnesses env.coinPublicKey s' requests).bind _ = _
        rw [hrun]
        rfl
      · rw [houts, hout, List.append_assoc, List.singleton_append]
    | ownKey =>
      obtain ⟨key, hkey, rfl⟩ := Option.map_eq_some_iff.mp hmid
      have hkey : env.coinPublicKey = some key := hkey
      obtain ⟨states, atoms, hrun, hstored, houts⟩ := ih (r := Record.recorded _ _) hload hrest
      refine ⟨states, [trim key] :: atoms, ?_, hstored, ?_⟩
      · rw [hkey] at hrun ⊢
        rw [typedRun]
        show (typedRun crates texts witnesses (some key) s requests).bind _ = _
        rw [hrun]
        rfl
      · rw [houts]
        simp only [Record.recorded, List.map_append, List.map_cons, List.map_nil,
          List.append_assoc, List.singleton_append, AlignedValue.single]
    | query ops =>
      obtain ⟨answer, -, rfl⟩ := Option.map_eq_some_iff.mp hmid
      exact ih (r := r.queried ops answer) hload hrest
    | zswapOutput coin recipient =>
      obtain rfl := Option.some.inj hmid
      exact ih (r := { r with zswapOutputs := r.zswapOutputs ++ [(coin, recipient)] }) hload hrest
    | zswapInput coin =>
      obtain rfl := Option.some.inj hmid
      exact ih (r := { r with zswapInputs := r.zswapInputs ++ [coin] }) hload hrest

/-- With a buffer that does not decode, no witness answers. -/
theorem replay_undecodable {requests : List (Request vm)} {r r' : Record vm}
    (hload : ∀ s, serde.load r.privateState ≠ .ok s)
    (h : replay (adapted crates texts serde witnesses env) requests r = some r') :
    (∀ name values, .witness name values ∉ requests) ∧ r'.privateState = r.privateState := by
  induction requests generalizing r with
  | nil =>
    obtain rfl := Option.some.inj h
    exact ⟨fun _ _ hmem => (by cases hmem), rfl⟩
  | cons request requests ih =>
    obtain ⟨mid, hmid, hrest⟩ := replay_cons_iff.mp h
    have hkept : mid.privateState = r.privateState ∧
        ∀ name values, request ≠ .witness name values := by
      cases request with
      | witness name values =>
        obtain ⟨_, _, s, _, _, hdecodes, _⟩ := answered_witness hmid
        exact absurd hdecodes (hload s)
      | ownKey =>
        obtain ⟨key, -, rfl⟩ := Option.map_eq_some_iff.mp hmid
        exact ⟨rfl, fun _ _ heq => by cases heq⟩
      | query ops =>
        obtain ⟨answer, -, rfl⟩ := Option.map_eq_some_iff.mp hmid
        exact ⟨rfl, fun _ _ heq => by cases heq⟩
      | zswapOutput coin recipient =>
        obtain rfl := Option.some.inj hmid
        exact ⟨rfl, fun _ _ heq => by cases heq⟩
      | zswapInput coin =>
        obtain rfl := Option.some.inj hmid
        exact ⟨rfl, fun _ _ heq => by cases heq⟩
    obtain ⟨hnone, hsame⟩ := ih (hkept.1.symm ▸ hload) hrest
    refine ⟨fun name values hmem => ?_, hsame.trans hkept.1⟩
    rcases List.mem_cons.mp hmem with heq | hmem
    · exact hkept.2 name values heq.symm
    · exact hnone name values hmem

variable (crypto : Crypto c) (program : Program)

/-- A circuit with typed witnesses: from the state that the buffer holds, the witnesses run one
after another on their Rust values, and the run leaves the buffer that holds the last state,
the private transcript with the atoms of their results, and a snapshot to record just when
the buffer's encoding of the state is another. A buffer that does not decode lets only a run
without witnesses end. -/
theorem adapter_refines (hserde : serde.Lawful) {fuel : ℕ} {circuit : Circuit} {state : vm.State}
    {privateState : Bytes} {args : List (String × Value)} {ran : ExecutionResult vm}
    (h : execute crypto program (adapted crates texts serde witnesses env) fuel circuit state
      privateState args = .ok ran) :
    ∃ requests, replay (adapted crates texts serde witnesses env) requests
        (initialContext state privateState).record = some ran.context.record ∧
      (∀ s, serde.load privateState = .ok s → ∃ states atoms,
        typedRun crates texts witnesses env.coinPublicKey s requests = some (states, atoms) ∧
        Stored serde privateState states ran.context.privateState ∧
        (ContractFlows.privateStatePersist privateState ran.context.privateState = .persist ↔
          Recorded serde privateState states) ∧
        ran.context.privateTranscriptOutputs.map AlignedValue.value = atoms) ∧
      ((∀ s, serde.load privateState ≠ .ok s) →
        (∀ name values, .witness name values ∉ requests) ∧
        ran.context.privateState = privateState) := by
  unfold execute at h
  cases hrun : (runCircuit crypto program (adapted crates texts serde witnesses env) fuel circuit
      args).run (initialContext state privateState) with
  | error halt =>
    rw [hrun] at h
    cases h
  | ok r =>
    obtain ⟨a, t⟩ := r
    rw [hrun] at h
    cases h
    obtain ⟨requests, hreplay⟩ := replays_runCircuit crypto program fuel circuit args _ _ _ hrun
    refine ⟨requests, hreplay, fun s hload => ?_, fun hload => replay_undecodable hload hreplay⟩
    obtain ⟨states, atoms, htyped, hstored, houts⟩ := replay_typed hserde requests hload hreplay
    refine ⟨states, atoms, htyped, hstored, ?_, houts.trans (List.nil_append _)⟩
    refine Iff.trans ?_ (recorded_iff hserde hstored)
    show (if t.privateState = privateState then _ else _) = _ ↔ t.privateState ≠ privateState
    split
    · rename_i heq
      exact iff_of_false (by rintro ⟨⟩) fun hne => hne heq
    · rename_i hne
      exact iff_of_true rfl hne

/-- A tally as that many bytes and one more. -/
def tallySerde : Serde ℕ where
  fromSlice bytes := .ok (bytes.length - 1)
  toVec n := .ok (List.replicate (n + 1) 0)
  default := 0

theorem tallySerde_lawful : tallySerde.Lawful where
  fromSlice_toVec s bytes h := by
    obtain rfl := Except.ok.inj h
    show Except.ok (List.length (List.replicate (s + 1) _) - 1) = _
    rw [List.length_replicate, Nat.add_sub_cancel]
  nonempty s h := by
    cases Except.ok.inj h

/-- A witness that counts its calls, and answers five. -/
def counterWitness : TypedWitness plainCodecs ℕ where
  declaration := ⟨"%private$counter.1", [], .unsigned 255⟩
  method n _ := .ok (⟨5, show 5 < 256 ^ 1 by decide⟩, n + 1)

theorem adapter_refines_counter :
    ∃ ran, execute plainCrypto (counterProgram (.unsigned 255))
        (adapted plainDecoding plainTexts tallySerde [counterWitness] plainEnv) 3
        (counterCircuit (.unsigned 255)) () [] [] = .ok ran ∧
      ∃ requests states atoms,
        replay (adapted plainDecoding plainTexts tallySerde [counterWitness] plainEnv) requests
          (initialContext () [] : ExecContext plainVm).record = some ran.context.record ∧
        typedRun plainDecoding plainTexts [counterWitness] none 0 requests = some (states, atoms) ∧
        Stored tallySerde [] states ran.context.privateState ∧
        ran.context.privateTranscriptOutputs.map AlignedValue.value = atoms := by
  obtain ⟨ran, hran⟩ : ∃ ran, execute plainCrypto (counterProgram (.unsigned 255))
      (adapted plainDecoding plainTexts tallySerde [counterWitness] plainEnv) 3
      (counterCircuit (.unsigned 255)) () [] [] = .ok ran := ⟨_, rfl⟩
  refine ⟨ran, hran, ?_⟩
  obtain ⟨requests, hreplay, htyped, -⟩ := adapter_refines _ _ tallySerde_lawful hran
  obtain ⟨states, atoms, hrun, hstored, -, hatoms⟩ := htyped 0 rfl
  exact ⟨requests, states, atoms, hreplay, hrun, hstored, hatoms⟩

end Refinement

end MidnightRs.TypedCalls
