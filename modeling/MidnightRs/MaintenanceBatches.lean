import MidnightRs.Results
import MidnightRs.Submission
import Mathlib.Data.Finset.Card

/-!
A batch of maintenance operations on a contract. Before the update is built the
batch is checked against the names of the circuits on chain; the ledger holds the
keys of each circuit by version. The two views agree exactly on circuits that hold
one key each.
-/
namespace MidnightRs.MaintenanceBatches

open Results Submission

section Model

/-- The slot of a circuit's operation that holds a key. -/
inductive ContractOperationVersion where
  | v2
  | v3
deriving DecidableEq, Repr

/-- The verifier keys of a circuit. -/
structure ContractOperation where
  v2 : Option Bytes
  v3 : Option Bytes
deriving DecidableEq, Repr

def ContractOperation.key (op : ContractOperation) : ContractOperationVersion → Option Bytes
  | .v2 => op.v2
  | .v3 => op.v3

/-- The versions that an operation holds a key of. -/
def ContractOperation.versions (op : ContractOperation) : Finset ContractOperationVersion :=
  ({.v2, .v3} : Finset ContractOperationVersion).filter (fun v => (op.key v).isSome = true)

variable (K : Type)

inductive ContractMaintenanceVerifyingKey where
  | schnorr (key : K)
  | other

structure ContractMaintenanceAuthority where
  committee : List (ContractMaintenanceVerifyingKey K)
  threshold : ℕ
  counter : ℕ

abbrev Operations := List (String × ContractOperation)

structure ContractState where
  data : Bytes
  operations : Operations
  maintenanceAuthority : ContractMaintenanceAuthority K

/-- The encoding of a verifier key. -/
inductive VerifierKeyVersion where
  | V6
  | V7
deriving DecidableEq, Repr

/-- What a generation's ledger crates do with keys and states. -/
structure Generation where
  ledger : LedgerVersion
  tag : String
  viewTag : String
  peekTag : Bytes → Except String String
  decodeState : Bytes → Except String (ContractState K)
  reencodeState : ContractState K → Except ContractError (ContractState K)
  reencodeData : Bytes → Except ContractError Bytes
  verifierKeyVersion : Bytes → Except String VerifierKeyVersion
  contractOperationNew : Option Bytes → Except String ContractOperation
  contractOperationVersionOf : ContractOperation → ContractOperationVersion
  versionedVerifierKey : Bytes → Except String (ContractOperationVersion × Bytes)

/-- One step of a maintenance update. -/
inductive OpSpec where
  | insert (circuit : String) (verifierKey : Bytes)
  | remove (circuit : String)
  | replace (committee : List K) (threshold : ℕ)
  | retire

inductive SingleUpdate where
  | replaceAuthority (authority : ContractMaintenanceAuthority K)
  | verifierKeyRemove (circuit : String) (version : ContractOperationVersion)
  | verifierKeyInsert (circuit : String) (version : ContractOperationVersion) (key : Bytes)

structure MaintenanceUpdate where
  address : Bytes
  updates : List (SingleUpdate K)
  counter : ℕ

variable {K}

def validateCommittee [DecidableEq K] (committee : List K) (threshold : ℕ) :
    Except ContractError Unit :=
  if committee = [] then
    .error (.maintenance "maintenance committee must have at least one member")
  else if threshold = 0 then
    .error (.maintenance
      "maintenance threshold must be at least 1 (threshold 0 would let anyone govern the contract)")
  else if committee.length < threshold then
    .error (.maintenance s!"maintenance threshold {threshold} exceeds committee size {committee.length}; it could never be met")
  else if committee.Nodup then .ok ()
  else .error (.maintenance "maintenance committee contains a duplicate verifying key")

def schnorrCommittee : List (ContractMaintenanceVerifyingKey K) → Except ContractError (List K)
  | [] => .ok []
  | .schnorr key :: members => do
    let keys ← schnorrCommittee members
    pure (key :: keys)
  | .other :: _ => .error (.maintenance
      "the maintenance committee has a member that is not a Schnorr key, which this SDK cannot sign for")

/-- Checks the steps by the names of the circuits, each with its effect on the later ones. -/
def validateVkSequence (operations : Operations) :
    (String → Option Bool) → List (String × Bool) → Except ContractError Unit
  | _, [] => .ok ()
  | presence, (circuit, isInsert) :: ops =>
    let present := (presence circuit).getD (operations.lookup circuit).isSome
    if isInsert && present then
      .error (.maintenance
        s!"circuit '{circuit}' already has a verifier key; remove it before inserting")
    else if !isInsert && !present then
      .error (.maintenance s!"circuit '{circuit}' has no verifier key to remove")
    else validateVkSequence operations (Function.update presence circuit (some isInsert)) ops

def OpSpec.vkOp : OpSpec K → Option (String × Bool)
  | .insert circuit _ => some (circuit, true)
  | .remove circuit => some (circuit, false)
  | .replace _ _ => none
  | .retire => none

variable (G : Generation K)

def acceptedKey (circuit : String) (verifierKey : Bytes) : Except ContractError Unit :=
  match G.verifierKeyVersion verifierKey with
  | .error e => .error (.construction s!"verifier key {circuit}: {e}")
  | .ok version =>
    if version = .V7 ∧ G.ledger = .V8 then
      .error (.construction s!"verifier key {circuit} is a `verifier-key[v7]`, which {G.ledger.display} cannot verify; compile the contract for this chain's ledger")
    else .ok ()

def operation (circuit : String) (verifierKey : Bytes) : Except ContractError ContractOperation :=
  match acceptedKey G circuit verifierKey with
  | .error e => .error e
  | .ok () =>
    match G.contractOperationNew (some verifierKey) with
    | .error e => .error (.construction s!"verifier key {circuit}: {e}")
    | .ok op => .ok op

/-- An operation of the view, in the generation's types. -/
def nativeOperation (circuit : String) (op : ContractOperation) :
    Except ContractError ContractOperation :=
  match op.v2, op.v3 with
  | some key, _ => operation G circuit key
  | none, some key => operation G circuit key
  | none, none =>
    match G.contractOperationNew none with
    | .error e => .error (.construction s!"operation {circuit}: {e}")
    | .ok op => .ok op

def nativeOperations : Operations → Except ContractError Operations
  | [] => .ok []
  | (circuit, op) :: operations => do
    let native ← nativeOperation G circuit op
    let rest ← nativeOperations operations
    pure ((circuit, native) :: rest)

def nativeCommittee : List (ContractMaintenanceVerifyingKey K) →
    Except ContractError (List (ContractMaintenanceVerifyingKey K))
  | [] => .ok []
  | .schnorr key :: members => do
    let rest ← nativeCommittee members
    pure (.schnorr key :: rest)
  | .other :: _ => .error (.construction
      s!"{G.ledger.display} takes Schnorr maintenance committee keys only")

/-- The view of a state, in the generation's types. -/
def fromView (view : ContractState K) : Except ContractError (ContractState K) :=
  if G.viewTag = G.tag then G.reencodeState view
  else do
    let data ← G.reencodeData view.data
    let operations ← nativeOperations G view.operations
    let committee ← nativeCommittee G view.maintenanceAuthority.committee
    pure ⟨data, operations,
      ⟨committee, view.maintenanceAuthority.threshold, view.maintenanceAuthority.counter⟩⟩

/-- The state a batch is built against: the bytes the chain served if they are of this
generation, else the view of them. -/
def nativeState (view : ContractState K) (bytes : Bytes) :
    Except ContractError (ContractState K) :=
  match G.peekTag bytes with
  | .error e => .error (.serialization s!"contract state: {e}")
  | .ok tag =>
    if tag = G.tag then
      match G.decodeState bytes with
      | .error e => .error (.serialization s!"deserialize state: {e}")
      | .ok native => .ok native
    else fromView G view

def maxU32 : ℕ := 2 ^ 32 - 1

def singleReplaceAuthority (committee : List K) (threshold currentCounter : ℕ) : SingleUpdate K :=
  .replaceAuthority
    ⟨committee.map .schnorr, threshold, min (currentCounter + 1) maxU32⟩

/-- The version that a removal names: of the key inserted in the same update, or else
of the operation on chain. -/
def removalVersion (native : Operations) (inserted : String → Option ContractOperation)
    (circuit : String) : Option ContractOperationVersion :=
  match inserted circuit with
  | some op => some (G.contractOperationVersionOf op)
  | none => (native.lookup circuit).map G.contractOperationVersionOf

def prepareSingles (native : Operations) (counter : ℕ) :
    (String → Option ContractOperation) → List (OpSpec K) →
      Except ContractError (List (SingleUpdate K))
  | _, [] => .ok []
  | inserted, .insert circuit verifierKey :: specs => do
    let op ← operation G circuit verifierKey
    let versioned ← (G.versionedVerifierKey verifierKey).mapError
      (fun e => .maintenance s!"invalid verifier key: {e}")
    let rest ← prepareSingles native counter (Function.update inserted circuit (some op)) specs
    pure (.verifierKeyInsert circuit versioned.1 versioned.2 :: rest)
  | inserted, .remove circuit :: specs =>
    match removalVersion G native inserted circuit with
    | none => .error (.maintenance s!"circuit '{circuit}' has no verifier key to remove")
    | some version => do
      let rest ← prepareSingles native counter inserted specs
      pure (.verifierKeyRemove circuit version :: rest)
  | inserted, .replace committee threshold :: specs => do
    let rest ← prepareSingles native counter inserted specs
    pure (singleReplaceAuthority committee threshold counter :: rest)
  | inserted, .retire :: specs => do
    let rest ← prepareSingles native counter inserted specs
    pure (singleReplaceAuthority [] 1 counter :: rest)

/-- The unsigned update that applies the steps in order. -/
def prepareUpdate (view : ContractState K) (bytes address : Bytes) (specs : List (OpSpec K))
    (counter : ℕ) : Except ContractError (MaintenanceUpdate K) := do
  let native ← nativeState G view bytes
  let singles ← prepareSingles G native.operations counter (fun _ => none) specs
  pure ⟨address, singles, counter⟩

def countReplaces [DecidableEq K] : List (OpSpec K) → Except ContractError ℕ
  | [] => .ok 0
  | .replace committee threshold :: specs => do
    validateCommittee committee threshold
    let n ← countReplaces specs
    pure (n + 1)
  | .retire :: specs => do
    let n ← countReplaces specs
    pure (n + 1)
  | _ :: specs => countReplaces specs

/-- Validates a batch against the state on chain and builds its update, with the
committee and threshold that have to sign it. -/
def prepareInner [DecidableEq K] (view : ContractState K) (bytes address : Bytes)
    (specs : List (OpSpec K)) : Except ContractError (MaintenanceUpdate K × List K × ℕ) :=
  if specs = [] then .error (.maintenance "no maintenance operations to perform")
  else do
    let committee ← schnorrCommittee view.maintenanceAuthority.committee
    validateVkSequence view.operations (fun _ => none) (specs.filterMap OpSpec.vkOp)
    let replaces ← countReplaces specs
    if 1 < replaces then
      .error (.maintenance "a maintenance update may contain at most one replace_authority or retire_authority")
    else
      let update ← prepareUpdate G view bytes address specs view.maintenanceAuthority.counter
      pure (update, committee, view.maintenanceAuthority.threshold)

end Model

section Ledger
variable {K : Type}

/-- The versions of the keys that the ledger holds for each circuit. -/
abbrev Keys := String → Finset ContractOperationVersion

def keysOf (operations : Operations) : Keys :=
  fun circuit => (operations.lookup circuit).elim ∅ ContractOperation.versions

/-- An insert fills the slot of its key's version, a removal clears the slot it names. -/
def Keys.apply (keys : Keys) : SingleUpdate K → Keys
  | .replaceAuthority _ => keys
  | .verifierKeyRemove circuit version =>
    Function.update keys circuit ((keys circuit).erase version)
  | .verifierKeyInsert circuit version _ =>
    Function.update keys circuit (insert version (keys circuit))

/-- Each removal names the version of a key that is there at that point. -/
def NamesPresent : Keys → List (SingleUpdate K) → Prop
  | _, [] => True
  | keys, single :: singles =>
    (∀ circuit version, single = .verifierKeyRemove circuit version → version ∈ keys circuit) ∧
      NamesPresent (keys.apply single) singles

/-- Applying the steps in order inserts no circuit that is present and removes none
that is absent. A key goes to the slot of its version; a removal names the version of
the key that the same batch inserted last, or else the one in `named`. -/
def Legal (slot : Bytes → ContractOperationVersion) :
    Keys → (String → Option ContractOperationVersion) → List (OpSpec K) → Prop
  | _, _, [] => True
  | keys, named, .insert circuit verifierKey :: specs =>
    keys circuit = ∅ ∧
      Legal slot (Function.update keys circuit {slot verifierKey})
        (Function.update named circuit (some (slot verifierKey))) specs
  | keys, named, .remove circuit :: specs =>
    keys circuit ≠ ∅ ∧
      Legal slot (Function.update keys circuit
        ((named circuit).elim (keys circuit) (keys circuit).erase)) named specs
  | keys, named, .replace _ _ :: specs => Legal slot keys named specs
  | keys, named, .retire :: specs => Legal slot keys named specs

/-- What a removal names before the batch inserts anything. -/
def namedOnChain (G : Generation K) (native : Operations) :
    String → Option ContractOperationVersion :=
  fun circuit => (native.lookup circuit).map G.contractOperationVersionOf

/-- What the ledger crates of a generation are relied on for. `slot` gives the version
of each key. -/
structure Lawful (G : Generation K) (slot : Bytes → ContractOperationVersion) : Prop where
  /-- A new operation holds its key in the slot of the key's version. -/
  operation_versions : ∀ key op, G.contractOperationNew (some key) = .ok op →
    op.versions = {slot key}
  /-- An operation with one key is named by the version of that key. -/
  version_of : ∀ op v, op.versions = {v} → G.contractOperationVersionOf op = v
  /-- A versioned key carries its version. -/
  versioned : ∀ key v k, G.versionedVerifierKey key = .ok (v, k) → v = slot key
  /-- Re-encoding a view leaves its operations as they are. -/
  reencode : ∀ view native, G.reencodeState view = .ok native →
    native.operations = view.operations

/-- The view is of the bytes that the chain served, and their keys are in the slots of
their versions. -/
structure Served (G : Generation K) (slot : Bytes → ContractOperationVersion)
    (view : ContractState K) (bytes : Bytes) : Prop where
  decoded : ∀ native, G.decodeState bytes = .ok native → native.operations = view.operations
  slotted : ∀ circuit op v key, view.operations.lookup circuit = some op → op.key v = some key →
    slot key = v

end Ledger

section Native
variable {K : Type} {G : Generation K} {slot : Bytes → ContractOperationVersion}

theorem mem_versions {op : ContractOperation} {v : ContractOperationVersion} :
    v ∈ op.versions ↔ (op.key v).isSome = true := by
  unfold ContractOperation.versions
  rw [Finset.mem_filter]
  refine ⟨fun h => h.2, fun h => ⟨?_, h⟩⟩
  cases v with
  | v2 => simp
  | v3 => simp

theorem operation_versions (hlawful : Lawful G slot) {circuit : String} {key : Bytes}
    {op : ContractOperation} (h : operation G circuit key = .ok op) : op.versions = {slot key} := by
  unfold operation at h
  cases haccepted : acceptedKey G circuit key with
  | error e =>
    rw [haccepted] at h
    cases h
  | ok u =>
    rw [haccepted] at h
    simp only at h
    cases hnew : G.contractOperationNew (some key) with
    | error e =>
      rw [hnew] at h
      cases h
    | ok new =>
      rw [hnew] at h
      obtain rfl := Except.ok.inj h
      exact hlawful.operation_versions key new hnew

/-- A circuit that holds one key is named by its version. -/
theorem nativeOperation_version (hlawful : Lawful G slot) {circuit : String}
    {op native : ContractOperation} {v : ContractOperationVersion}
    (hslot : ∀ v key, op.key v = some key → slot key = v) (hone : op.versions = {v})
    (h : nativeOperation G circuit op = .ok native) :
    G.contractOperationVersionOf native = v := by
  have hkey : ∀ w key, op.key w = some key → operation G circuit key = .ok native →
      G.contractOperationVersionOf native = v := by
    intro w key hw hop
    refine hlawful.version_of native v ?_
    have hmem : w ∈ op.versions := mem_versions.mpr (by rw [hw]; rfl)
    rw [hone, Finset.mem_singleton] at hmem
    rw [operation_versions hlawful hop, hslot w key hw, hmem]
  unfold nativeOperation at h
  cases h2 : op.v2 with
  | some key =>
    rw [h2] at h
    exact hkey .v2 key h2 h
  | none =>
    cases h3 : op.v3 with
    | some key =>
      rw [h2, h3] at h
      exact hkey .v3 key h3 h
    | none =>
      have hmem : v ∈ op.versions := by
        rw [hone]
        exact Finset.mem_singleton_self v
      have hsome := mem_versions.mp hmem
      cases v with
      | v2 => simp [ContractOperation.key, h2] at hsome
      | v3 => simp [ContractOperation.key, h3] at hsome

theorem nativeOperations_lookup {operations native : Operations}
    (h : nativeOperations G operations = .ok native) (circuit : String) :
    match operations.lookup circuit with
    | none => native.lookup circuit = none
    | some op => ∃ op', native.lookup circuit = some op' ∧
        nativeOperation G circuit op = .ok op' := by
  induction operations generalizing native with
  | nil =>
    obtain rfl := Except.ok.inj h
    rfl
  | cons entry operations ih =>
    obtain ⟨name, op⟩ := entry
    unfold nativeOperations at h
    obtain ⟨op', hop, h⟩ := exists_of_bind h
    obtain ⟨rest, hrest, h⟩ := exists_of_bind h
    obtain rfl := Except.ok.inj h
    by_cases hname : circuit = name
    · subst hname
      simp only [List.lookup_cons, beq_self_eq_true]
      exact ⟨op', rfl, hop⟩
    · have hne : (circuit == name) = false := beq_false_of_ne hname
      simp only [List.lookup_cons, hne]
      exact ih hrest

/-- The operations that the batch is built against are the view's, or their native form. -/
theorem nativeState_operations (hlawful : Lawful G slot) {view : ContractState K} {bytes : Bytes}
    (hserved : Served G slot view bytes) {native : ContractState K}
    (h : nativeState G view bytes = .ok native) :
    native.operations = view.operations ∨
      nativeOperations G view.operations = .ok native.operations := by
  unfold nativeState at h
  cases hpeek : G.peekTag bytes with
  | error e =>
    rw [hpeek] at h
    cases h
  | ok tag =>
    rw [hpeek] at h
    simp only at h
    split at h
    · cases hdecode : G.decodeState bytes with
      | error e =>
        rw [hdecode] at h
        cases h
      | ok decoded =>
        rw [hdecode] at h
        obtain rfl := Except.ok.inj h
        exact Or.inl (hserved.decoded decoded hdecode)
    · unfold fromView at h
      split at h
      · exact Or.inl (hlawful.reencode view native h)
      · obtain ⟨data, hdata, h⟩ := exists_of_bind h
        obtain ⟨operations, hops, h⟩ := exists_of_bind h
        obtain ⟨committee, hcommittee, h⟩ := exists_of_bind h
        obtain rfl := Except.ok.inj h
        exact Or.inr hops

/-- What the native state names for a circuit of the chain. -/
theorem nativeState_named (hlawful : Lawful G slot) {view : ContractState K} {bytes : Bytes}
    (hserved : Served G slot view bytes) {native : ContractState K}
    (h : nativeState G view bytes = .ok native) {circuit : String} {op : ContractOperation}
    {v : ContractOperationVersion} (hop : view.operations.lookup circuit = some op)
    (hone : op.versions = {v}) : namedOnChain G native.operations circuit = some v := by
  rcases nativeState_operations hlawful hserved h with heq | hops
  · rw [namedOnChain, heq, hop, Option.map_some, hlawful.version_of op v hone]
  · have hlookup := nativeOperations_lookup hops circuit
    rw [hop] at hlookup
    obtain ⟨op', hop', hnative⟩ := hlookup
    have hversion := nativeOperation_version hlawful
      (fun w key hw => hserved.slotted circuit op w key hop hw) hone hnative
    rw [namedOnChain, hop', Option.map_some, hversion]

/-- A removal names some version of each circuit that is in the map. -/
theorem nativeState_names (hlawful : Lawful G slot) {view : ContractState K} {bytes : Bytes}
    (hserved : Served G slot view bytes) {native : ContractState K}
    (h : nativeState G view bytes = .ok native) {circuit : String} {op : ContractOperation}
    (hop : view.operations.lookup circuit = some op) :
    ∃ v, namedOnChain G native.operations circuit = some v := by
  rcases nativeState_operations hlawful hserved h with heq | hops
  · exact ⟨_, by rw [namedOnChain, heq, hop, Option.map_some]⟩
  · have hlookup := nativeOperations_lookup hops circuit
    rw [hop] at hlookup
    obtain ⟨op', hop', -⟩ := hlookup
    exact ⟨_, by rw [namedOnChain, hop', Option.map_some]⟩

end Native

section Agreement
variable {K : Type} {G : Generation K} {slot : Bytes → ContractOperationVersion}

/-- The steps of a batch on one circuit: whether each of them inserts. -/
def stepsOn (circuit : String) (ops : List (String × Bool)) : List Bool :=
  (ops.filter (fun op => op.1 = circuit)).map Prod.snd

/-- Each step changes whether there is a key, which is so at first. -/
def Alternates (first : Bool) (steps : List Bool) : Prop := (first :: steps).IsChain (· ≠ ·)

theorem alternates_cons (first step : Bool) (steps : List Bool) :
    Alternates first (step :: steps) ↔ first ≠ step ∧ Alternates step steps :=
  List.isChain_cons_cons

theorem stepsOn_self (circuit : String) (isInsert : Bool) (ops : List (String × Bool)) :
    stepsOn circuit ((circuit, isInsert) :: ops) = isInsert :: stepsOn circuit ops := by
  simp [stepsOn]

theorem stepsOn_of_ne {circuit other : String} (h : other ≠ circuit) (isInsert : Bool)
    (ops : List (String × Bool)) :
    stepsOn other ((circuit, isInsert) :: ops) = stepsOn other ops := by
  simp [stepsOn, h.symm]

theorem validate_cons_iff (operations : Operations) (presence : String → Option Bool)
    (circuit : String) (isInsert : Bool) (ops : List (String × Bool)) :
    validateVkSequence operations presence ((circuit, isInsert) :: ops) = .ok () ↔
      isInsert ≠ (presence circuit).getD (operations.lookup circuit).isSome ∧
        validateVkSequence operations (Function.update presence circuit (some isInsert)) ops =
          .ok () := by
  rw [validateVkSequence]
  cases (presence circuit).getD (operations.lookup circuit).isSome <;> cases isInsert <;> simp

/-- What a batch is to do on each circuit, given what its first step does on its own. -/
theorem forall_stepsOn_cons {A B : String → List Bool → Prop} {p : Prop} {circuit : String}
    {isInsert : Bool} {ops : List (String × Bool)}
    (hself : A circuit (isInsert :: stepsOn circuit ops) ↔ p ∧ B circuit (stepsOn circuit ops))
    (hother : ∀ c, c ≠ circuit → ∀ steps, A c steps ↔ B c steps) :
    (∀ c, A c (stepsOn c ((circuit, isInsert) :: ops))) ↔ p ∧ ∀ c, B c (stepsOn c ops) := by
  constructor
  · intro h
    have hfirst := h circuit
    rw [stepsOn_self, hself] at hfirst
    refine ⟨hfirst.1, fun c => ?_⟩
    by_cases hc : c = circuit
    · rw [hc]
      exact hfirst.2
    · rw [← hother c hc, ← stepsOn_of_ne hc isInsert]
      exact h c
  · rintro ⟨hp, h⟩ c
    by_cases hc : c = circuit
    · subst hc
      rw [stepsOn_self, hself]
      exact ⟨hp, h c⟩
    · rw [stepsOn_of_ne hc, hother c hc]
      exact h c

/-- The check looks at each circuit by itself. The induction is on the steps, with what
the check has simulated so far. -/
theorem validate_iff_alternates (operations : Operations) (presence : String → Option Bool)
    (ops : List (String × Bool)) :
    validateVkSequence operations presence ops = .ok () ↔
      ∀ c, Alternates ((presence c).getD (operations.lookup c).isSome) (stepsOn c ops) := by
  induction ops generalizing presence with
  | nil => exact ⟨fun _ c => List.IsChain.singleton _, fun _ => rfl⟩
  | cons op ops ih =>
    obtain ⟨circuit, isInsert⟩ := op
    rw [validate_cons_iff, ih]
    refine (forall_stepsOn_cons ?_ fun c hc steps => ?_).symm
    · rw [Function.update_self, Option.getD_some, alternates_cons, ne_comm]
    · rw [Function.update_of_ne hc]

/-- A removal leaves a key of the circuit: it names one version, and there is another. -/
def Stays (held : Finset ContractOperationVersion) (named : Option ContractOperationVersion) :
    Prop :=
  ∃ v, named = some v ∧ held.erase v ≠ ∅

/-- What the ledger's rules allow on one circuit. Where a key stays, no step inserts. -/
def AllowedOn (held : Finset ContractOperationVersion) (named : Option ContractOperationVersion)
    (steps : List Bool) : Prop :=
  (Stays held named → true ∉ steps) ∧ (¬ Stays held named → Alternates (decide (held ≠ ∅)) steps)

theorem not_stays_singleton (v : ContractOperationVersion) : ¬ Stays {v} (some v) := by
  rintro ⟨w, hw, hne⟩
  obtain rfl := Option.some.inj hw
  exact hne (Finset.erase_singleton v)

theorem not_stays_empty (named : Option ContractOperationVersion) : ¬ Stays ∅ named := by
  rintro ⟨v, -, hne⟩
  exact hne (Finset.erase_empty v)

theorem allowedOn_single (v : ContractOperationVersion) (steps : List Bool) :
    AllowedOn {v} (some v) steps ↔ Alternates true steps := by
  have hheld : decide (({v} : Finset ContractOperationVersion) ≠ ∅) = true := by simp
  constructor
  · intro h
    rw [← hheld]
    exact h.2 (not_stays_singleton v)
  · exact fun h => ⟨fun hs => absurd hs (not_stays_singleton v), fun _ => by rwa [hheld]⟩

theorem allowedOn_none (named : Option ContractOperationVersion) (steps : List Bool) :
    AllowedOn ∅ named steps ↔ Alternates false steps :=
  ⟨fun h => h.2 (not_stays_empty named),
    fun h => ⟨fun hs => absurd hs (not_stays_empty named), fun _ => h⟩⟩

theorem allowedOn_stays {held : Finset ContractOperationVersion}
    {named : Option ContractOperationVersion} (hstays : Stays held named) (steps : List Bool) :
    AllowedOn held named steps ↔ true ∉ steps :=
  ⟨fun h => h.1 hstays, fun h => ⟨fun _ => h, fun hnot => absurd hstays hnot⟩⟩

/-- A circuit with a key that a removal names loses it, or keeps another. -/
theorem stays_or_single {held : Finset ContractOperationVersion} {v : ContractOperationVersion}
    (hheld : held ≠ ∅) : Stays held (some v) ∨ held = {v} := by
  by_cases hempty : held.erase v = ∅
  · exact Or.inr (((Finset.erase_eq_empty_iff _ _).mp hempty).resolve_left hheld)
  · exact Or.inl ⟨v, rfl, hempty⟩

theorem allowedOn_insert {held : Finset ContractOperationVersion}
    {named : Option ContractOperationVersion} (v : ContractOperationVersion) (steps : List Bool)
    (hknown : held ≠ ∅ → named ≠ none) :
    AllowedOn held named (true :: steps) ↔ held = ∅ ∧ AllowedOn {v} (some v) steps := by
  rw [allowedOn_single]
  by_cases hheld : held = ∅
  · subst hheld
    rw [allowedOn_none, alternates_cons]
    simp
  · obtain ⟨w, rfl⟩ := Option.ne_none_iff_exists'.mp (hknown hheld)
    rcases stays_or_single (v := w) hheld with hstays | rfl
    · rw [allowedOn_stays hstays]
      simp [hheld]
    · rw [allowedOn_single, alternates_cons]
      simp

theorem allowedOn_remove {held : Finset ContractOperationVersion}
    {named : Option ContractOperationVersion} (steps : List Bool)
    (hknown : held ≠ ∅ → named ≠ none) :
    AllowedOn held named (false :: steps) ↔
      held ≠ ∅ ∧ AllowedOn (named.elim held held.erase) named steps := by
  by_cases hheld : held = ∅
  · subst hheld
    rw [allowedOn_none, alternates_cons]
    simp
  · obtain ⟨v, rfl⟩ := Option.ne_none_iff_exists'.mp (hknown hheld)
    rcases stays_or_single (v := v) hheld with hstays | rfl
    · obtain ⟨w, hw, hne⟩ := id hstays
      obtain rfl := Option.some.inj hw
      have hstays' : Stays (held.erase v) (some v) := ⟨v, rfl, by rwa [Finset.erase_idem]⟩
      rw [allowedOn_stays hstays, Option.elim_some, allowedOn_stays hstays']
      simp [hheld]
    · rw [allowedOn_single, alternates_cons, Option.elim_some, Finset.erase_singleton,
        allowedOn_none]
      simp

/-- The ledger's rules look at each circuit by itself, where a removal names some version
of each circuit that holds a key. The induction is on the steps. -/
theorem legal_iff_allowedOn (specs : List (OpSpec K)) {keys : Keys}
    {named : String → Option ContractOperationVersion}
    (hknown : ∀ c, keys c ≠ ∅ → named c ≠ none) :
    Legal slot keys named specs ↔
      ∀ c, AllowedOn (keys c) (named c) (stepsOn c (specs.filterMap OpSpec.vkOp)) := by
  induction specs generalizing keys named with
  | nil =>
    refine ⟨fun _ c => ⟨fun _ => List.not_mem_nil, fun _ => List.IsChain.singleton _⟩, fun _ => ?_⟩
    trivial
  | cons spec specs ih =>
    cases spec with
    | insert circuit verifierKey =>
      have hknown' : ∀ c, Function.update keys circuit {slot verifierKey} c ≠ ∅ →
          Function.update named circuit (some (slot verifierKey)) c ≠ none := by
        intro c
        by_cases hc : c = circuit
        · rw [hc, Function.update_self, Function.update_self]
          exact fun _ => Option.some_ne_none _
        · rw [Function.update_of_ne hc, Function.update_of_ne hc]
          exact hknown c
      rw [Legal, ih hknown']
      refine (forall_stepsOn_cons ?_ fun c hc steps => ?_).symm
      · rw [Function.update_self, Function.update_self]
        exact allowedOn_insert (slot verifierKey) _ (hknown circuit)
      · rw [Function.update_of_ne hc, Function.update_of_ne hc]
    | remove circuit =>
      have hknown' : ∀ c, Function.update keys circuit
          ((named circuit).elim (keys circuit) (keys circuit).erase) c ≠ ∅ → named c ≠ none := by
        intro c
        by_cases hc : c = circuit
        · subst hc
          rw [Function.update_self]
          intro hne
          refine hknown c fun hempty => hne ?_
          rw [hempty]
          cases named c with
          | none => rfl
          | some v => exact Finset.erase_empty v
        · rw [Function.update_of_ne hc]
          exact hknown c
      rw [Legal, ih hknown']
      refine (forall_stepsOn_cons ?_ fun c hc steps => ?_).symm
      · rw [Function.update_self]
        exact allowedOn_remove _ (hknown circuit)
      · rw [Function.update_of_ne hc]
    | replace committee threshold => exact ih hknown
    | retire => exact ih hknown

/-- The removals of an update name keys that are there, if the steps are legal and at
most one of them is on a circuit that holds more than the key it names. -/
theorem namesPresent_of_legal (hlawful : Lawful G slot) {native : Operations} {counter : ℕ}
    (specs : List (OpSpec K)) {keys : Keys} {named : String → Option ContractOperationVersion}
    {inserted : String → Option ContractOperation} {singles : List (SingleUpdate K)}
    (hnamed : ∀ c, removalVersion G native inserted c = named c)
    (honce : ∀ c, stepsOn c (specs.filterMap OpSpec.vkOp) ≠ [] → keys c ≠ ∅ → ∃ v ∈ keys c,
      named c = some v ∧
        (keys c = {v} ∨ (stepsOn c (specs.filterMap OpSpec.vkOp)).length ≤ 1))
    (hlegal : Legal slot keys named specs)
    (h : prepareSingles G native counter inserted specs = .ok singles) :
    NamesPresent keys singles := by
  induction specs generalizing keys named inserted singles with
  | nil =>
    obtain rfl := Except.ok.inj h
    trivial
  | cons spec specs ih =>
    cases spec with
    | insert circuit verifierKey =>
      obtain ⟨op, hop, h⟩ := exists_of_bind h
      obtain ⟨⟨v, key⟩, hversioned, h⟩ := exists_of_bind h
      obtain ⟨rest, hsingles, h⟩ := exists_of_bind h
      obtain rfl := Except.ok.inj h
      obtain rfl := hlawful.versioned _ _ _ (mapError_ok hversioned)
      obtain ⟨hempty, hlegal⟩ := hlegal
      refine ⟨fun c w hw => (by cases hw), ?_⟩
      have hkeys : keys.apply (K := K) (.verifierKeyInsert circuit (slot verifierKey) key) =
          Function.update keys circuit {slot verifierKey} := by
        simp only [Keys.apply, hempty]
        rfl
      rw [hkeys]
      refine ih (fun c => ?_) (fun c => ?_) hlegal hsingles
      · by_cases hc : c = circuit
        · subst hc
          simp only [removalVersion, Function.update_self]
          rw [hlawful.version_of op _ (operation_versions hlawful hop)]
        · simp only [removalVersion, Function.update_of_ne hc]
          exact hnamed c
      · by_cases hc : c = circuit
        · subst hc
          rw [Function.update_self, Function.update_self]
          exact fun _ _ => ⟨_, Finset.mem_singleton_self _, rfl, Or.inl rfl⟩
        · rw [Function.update_of_ne hc, Function.update_of_ne hc, ← stepsOn_of_ne hc true]
          exact honce c
    | remove circuit =>
      obtain ⟨hpresent, hlegal⟩ := hlegal
      have hsteps : stepsOn circuit ((OpSpec.remove circuit :: specs).filterMap OpSpec.vkOp) =
          false :: stepsOn circuit (specs.filterMap OpSpec.vkOp) := stepsOn_self _ _ _
      obtain ⟨v, hmem, hv, hone⟩ := honce circuit (by simp [hsteps]) hpresent
      have hversion : removalVersion G native inserted circuit = some v := (hnamed circuit).trans hv
      unfold prepareSingles at h
      rw [hversion] at h
      obtain ⟨rest, hsingles, h⟩ := exists_of_bind h
      obtain rfl := Except.ok.inj h
      refine ⟨fun c w hw => ?_, ?_⟩
      · cases hw
        exact hmem
      · have happly : keys.apply (K := K) (.verifierKeyRemove circuit v) =
            Function.update keys circuit
              ((named circuit).elim (keys circuit) (keys circuit).erase) := by
          rw [hv]
          rfl
        rw [happly]
        refine ih hnamed (fun c => ?_) hlegal hsingles
        by_cases hc : c = circuit
        · -- The named key was the only one, or this was the only step.
          subst hc
          rw [Function.update_self, hv, Option.elim_some]
          intro hmore hheld
          rcases hone with hone | hone
          · rw [hone, Finset.erase_singleton] at hheld
            exact absurd rfl hheld
          · rw [hsteps, List.length_cons] at hone
            exact absurd (List.eq_nil_of_length_eq_zero (by omega)) hmore
        · rw [Function.update_of_ne hc, ← stepsOn_of_ne hc false]
          exact honce c
    | replace committee threshold =>
      obtain ⟨rest, hsingles, h⟩ := exists_of_bind h
      obtain rfl := Except.ok.inj h
      exact ⟨fun c w hw => (by cases hw), ih hnamed honce hlegal hsingles⟩
    | retire =>
      obtain ⟨rest, hsingles, h⟩ := exists_of_bind h
      obtain rfl := Except.ok.inj h
      exact ⟨fun c w hw => (by cases hw), ih hnamed honce hlegal hsingles⟩

/-- What the check and the update of a batch are to say of the ledger: the batch is
accepted if and only if its steps are legal, and then each removal names a key that is
there. -/
def BatchAgrees (G : Generation K) (slot : Bytes → ContractOperationVersion)
    (view : ContractState K) (bytes : Bytes) (native : ContractState K)
    (specs : List (OpSpec K)) : Prop :=
  (validateVkSequence view.operations (fun _ => none) (specs.filterMap OpSpec.vkOp) = .ok () ↔
    Legal slot (keysOf view.operations) (namedOnChain G native.operations) specs) ∧
  (validateVkSequence view.operations (fun _ => none) (specs.filterMap OpSpec.vkOp) = .ok () →
    ∀ address counter update, prepareUpdate G view bytes address specs counter = .ok update →
      NamesPresent (keysOf view.operations) update.updates)

/-- The batch takes no step on a circuit of the map without a key, and at most one on a
circuit with two. -/
def FewSteps (operations : Operations) (specs : List (OpSpec K)) : Prop :=
  ∀ c op, operations.lookup c = some op →
    (op.versions = ∅ → stepsOn c (specs.filterMap OpSpec.vkOp) = []) ∧
      (op.versions = {.v2, .v3} → (stepsOn c (specs.filterMap OpSpec.vkOp)).length ≤ 1)

/-- On each circuit the steps remove and insert in turn, from whether it is in the map. -/
def NamesAlternate (operations : Operations) (specs : List (OpSpec K)) : Prop :=
  ∀ c, Alternates (operations.lookup c).isSome (stepsOn c (specs.filterMap OpSpec.vkOp))

/-- On each circuit the steps remove and insert in turn, from whether it holds a key, and
on a circuit with two keys none inserts. -/
def KeysAlternate (operations : Operations) (specs : List (OpSpec K)) : Prop :=
  ∀ c, if keysOf operations c = {.v2, .v3} then true ∉ stepsOn c (specs.filterMap OpSpec.vkOp)
    else Alternates (decide (keysOf operations c ≠ ∅)) (stepsOn c (specs.filterMap OpSpec.vkOp))

theorem versions_cases (op : ContractOperation) :
    op.versions = ∅ ∨ (∃ v, op.versions = {v}) ∨ op.versions = {.v2, .v3} := by
  obtain ⟨v2, v3⟩ := op
  cases v2 with
  | none =>
    cases v3 with
    | none => exact Or.inl rfl
    | some key => exact Or.inr (Or.inl ⟨.v3, rfl⟩)
  | some key =>
    cases v3 with
    | none => exact Or.inr (Or.inl ⟨.v2, rfl⟩)
    | some key' => exact Or.inr (Or.inr rfl)

/-- What the map and the native state say of one circuit. -/
theorem onChain_cases (hlawful : Lawful G slot) {view : ContractState K} {bytes : Bytes}
    (hserved : Served G slot view bytes) {native : ContractState K}
    (hnative : nativeState G view bytes = .ok native) (circuit : String) :
    (view.operations.lookup circuit = none ∧ keysOf view.operations circuit = ∅) ∨
      ∃ op, view.operations.lookup circuit = some op ∧
        keysOf view.operations circuit = op.versions ∧
        (op.versions = ∅ ∨
          (∃ v, op.versions = {v} ∧ namedOnChain G native.operations circuit = some v) ∨
          (op.versions = {.v2, .v3} ∧ ∃ v, namedOnChain G native.operations circuit = some v)) := by
  unfold keysOf
  cases hop : view.operations.lookup circuit with
  | none => exact Or.inl ⟨rfl, rfl⟩
  | some op =>
    refine Or.inr ⟨op, rfl, rfl, ?_⟩
    rcases versions_cases op with hnone | ⟨v, hone⟩ | htwo
    · exact Or.inl hnone
    · exact Or.inr (Or.inl ⟨v, hone, nativeState_named hlawful hserved hnative hop hone⟩)
    · exact Or.inr (Or.inr ⟨htwo, nativeState_names hlawful hserved hnative hop⟩)

theorem stays_two (v : ContractOperationVersion) : Stays {.v2, .v3} (some v) := by
  refine ⟨v, rfl, ?_⟩
  cases v with
  | v2 => decide
  | v3 => decide

theorem single_ne_two (v : ContractOperationVersion) :
    ({v} : Finset ContractOperationVersion) ≠ {.v2, .v3} := by
  cases v with
  | v2 => decide
  | v3 => decide

theorem legal_iff_keysAlternate (hlawful : Lawful G slot) {view : ContractState K} {bytes : Bytes}
    (hserved : Served G slot view bytes) {native : ContractState K}
    (hnative : nativeState G view bytes = .ok native) (specs : List (OpSpec K)) :
    Legal slot (keysOf view.operations) (namedOnChain G native.operations) specs ↔
      KeysAlternate view.operations specs := by
  have hcases := onChain_cases hlawful hserved hnative
  have hknown : ∀ c, keysOf view.operations c ≠ ∅ →
      namedOnChain G native.operations c ≠ none := by
    intro c hheld
    rcases hcases c with ⟨-, hnone⟩ | ⟨op, -, hkeys, hnone | ⟨v, -, hv⟩ | ⟨-, v, hv⟩⟩
    · exact absurd hnone hheld
    · exact absurd (hkeys.trans hnone) hheld
    · rw [hv]
      exact Option.some_ne_none v
    · rw [hv]
      exact Option.some_ne_none v
  rw [legal_iff_allowedOn specs hknown]
  refine forall_congr' fun c => ?_
  rcases hcases c with ⟨-, hnone⟩ | ⟨op, -, hkeys, hnone | ⟨v, hone, hv⟩ | ⟨htwo, v, hv⟩⟩
  · rw [hnone, allowedOn_none, if_neg (by decide)]
    rfl
  · rw [hkeys, hnone, allowedOn_none, if_neg (by decide)]
    rfl
  · rw [hkeys, hone, hv, allowedOn_single, if_neg (single_ne_two v),
      decide_eq_true (Finset.singleton_ne_empty v)]
  · rw [hkeys, htwo, hv, allowedOn_stays (stays_two v), if_pos rfl]

/-- Where the batch takes few steps on odd circuits, the names say what the keys say. -/
theorem namesAlternate_iff (hlawful : Lawful G slot) {view : ContractState K} {bytes : Bytes}
    (hserved : Served G slot view bytes) {native : ContractState K}
    (hnative : nativeState G view bytes = .ok native) {specs : List (OpSpec K)}
    (hfew : FewSteps view.operations specs) :
    NamesAlternate view.operations specs ↔ KeysAlternate view.operations specs := by
  refine forall_congr' fun c => ?_
  rcases onChain_cases hlawful hserved hnative c with
    ⟨hop, hnone⟩ | ⟨op, hop, hkeys, hnone | ⟨v, hone, -⟩ | ⟨htwo, -⟩⟩
  · rw [hop, hnone, if_neg (by decide)]
    rfl
  · rw [(hfew c op hop).1 hnone, hkeys, hnone, if_neg (by decide)]
    exact ⟨fun _ => List.IsChain.singleton _, fun _ => List.IsChain.singleton _⟩
  · rw [hop, hkeys, hone, if_neg (single_ne_two v),
      decide_eq_true (Finset.singleton_ne_empty v), Option.isSome_some]
  · rw [hop, hkeys, htwo, if_pos rfl, Option.isSome_some]
    have hlength := (hfew c op hop).2 htwo
    cases hsteps : stepsOn c (specs.filterMap OpSpec.vkOp) with
    | nil => exact ⟨fun _ => List.not_mem_nil, fun _ => List.IsChain.singleton _⟩
    | cons step rest =>
      rw [hsteps, List.length_cons] at hlength
      obtain rfl := List.eq_nil_of_length_eq_zero (show rest.length = 0 by omega)
      rw [alternates_cons, List.mem_singleton]
      exact ⟨fun h => h.1, fun h => ⟨h, List.IsChain.singleton _⟩⟩

/-- Steps on an odd circuit cannot alternate in both views. -/
theorem fewSteps_of_alternate {operations : Operations} {specs : List (OpSpec K)}
    (hnames : NamesAlternate operations specs) (hkeys : KeysAlternate operations specs) :
    FewSteps operations specs := by
  intro c op hop
  have hname := hnames c
  have hkey := hkeys c
  have hheld : keysOf operations c = op.versions := by simp [keysOf, hop]
  rw [hop, Option.isSome_some] at hname
  rw [hheld] at hkey
  constructor
  · intro hnone
    rw [hnone, if_neg (by decide)] at hkey
    cases hsteps : stepsOn c (specs.filterMap OpSpec.vkOp) with
    | nil => rfl
    | cons step rest =>
      rw [hsteps, alternates_cons] at hname hkey
      cases step with
      | true => exact absurd rfl hname.1
      | false => exact absurd rfl hkey.1
  · intro htwo
    rw [htwo, if_pos rfl] at hkey
    rcases hsteps : stepsOn c (specs.filterMap OpSpec.vkOp) with _ | ⟨first, _ | ⟨second, rest⟩⟩
    · exact Nat.zero_le 1
    · exact le_rfl
    · rw [hsteps, alternates_cons, alternates_cons] at hname
      rw [hsteps] at hkey
      have hfirst : first = false := by simpa using hname.1.symm
      have hsecond : second = true := by simpa [hfirst] using hname.2.1
      exact absurd (by simp [hsecond]) hkey

/-- The update of a batch with few steps on odd circuits removes keys that are there. -/
theorem namesPresent_of_fewSteps (hlawful : Lawful G slot) {view : ContractState K} {bytes : Bytes}
    (hserved : Served G slot view bytes) {native : ContractState K}
    (hnative : nativeState G view bytes = .ok native) {specs : List (OpSpec K)}
    (hfew : FewSteps view.operations specs) (hkeys : KeysAlternate view.operations specs)
    {address : Bytes} {counter : ℕ} {update : MaintenanceUpdate K}
    (h : prepareUpdate G view bytes address specs counter = .ok update) :
    NamesPresent (keysOf view.operations) update.updates := by
  obtain ⟨native', hnative', h⟩ := exists_of_bind h
  obtain ⟨singles, hsingles, h⟩ := exists_of_bind h
  obtain rfl := Except.ok.inj h
  obtain rfl := Except.ok.inj (hnative.symm.trans hnative')
  have hlegal := (legal_iff_keysAlternate hlawful hserved hnative specs).mpr hkeys
  have hnamed : ∀ c, removalVersion G native.operations (fun _ => none) c =
      namedOnChain G native.operations c := fun c => rfl
  refine namesPresent_of_legal hlawful specs hnamed (fun c hsteps hheld => ?_) hlegal hsingles
  rcases onChain_cases hlawful hserved hnative c with
    ⟨-, hnone⟩ | ⟨op, hop, hkeys, hnone | ⟨v, hone, hv⟩ | ⟨htwo, v, hv⟩⟩
  · exact absurd hnone hheld
  · exact absurd (hkeys.trans hnone) hheld
  · rw [hkeys, hone]
    exact ⟨v, Finset.mem_singleton_self v, hv, Or.inl rfl⟩
  · rw [hkeys, htwo]
    refine ⟨v, ?_, hv, Or.inr ((hfew c op hop).2 htwo)⟩
    cases v with
    | v2 => decide
    | v3 => decide

/-- A batch is checked and built by what applying it does if and only if it takes few
steps on the circuits with no key or two, or its steps go wrong in both views. -/
theorem batchAgrees_iff (hlawful : Lawful G slot) {view : ContractState K} {bytes : Bytes}
    (hserved : Served G slot view bytes) {native : ContractState K}
    (hnative : nativeState G view bytes = .ok native) (specs : List (OpSpec K)) :
    BatchAgrees G slot view bytes native specs ↔
      FewSteps view.operations specs ∨
        ¬ NamesAlternate view.operations specs ∧ ¬ KeysAlternate view.operations specs := by
  have hvalid : validateVkSequence view.operations (fun _ => none)
      (specs.filterMap OpSpec.vkOp) = .ok () ↔ NamesAlternate view.operations specs :=
    validate_iff_alternates _ _ _
  unfold BatchAgrees
  rw [hvalid, legal_iff_keysAlternate hlawful hserved hnative]
  constructor
  · rintro ⟨hiff, -⟩
    by_cases hnames : NamesAlternate view.operations specs
    · exact Or.inl (fewSteps_of_alternate hnames (hiff.mp hnames))
    · exact Or.inr ⟨hnames, fun hkeys => hnames (hiff.mpr hkeys)⟩
  · rintro (hfew | ⟨hnames, hkeys⟩)
    · have hiff := namesAlternate_iff hlawful hserved hnative hfew
      exact ⟨hiff, fun hnames address counter update h =>
        namesPresent_of_fewSteps hlawful hserved hnative hfew (hiff.mp hnames) h⟩
    · exact ⟨⟨fun h => absurd h hnames, fun h => absurd h hkeys⟩, fun h => absurd h hnames⟩

/-- Keys whose first byte tells their version. -/
def plainSlot (key : Bytes) : ContractOperationVersion :=
  if key.head? = some 7 then .v3 else .v2

def plainOperation (key : Bytes) : ContractOperation :=
  match plainSlot key with
  | .v2 => ⟨some key, none⟩
  | .v3 => ⟨none, some key⟩

def plainGeneration : Generation Unit where
  ledger := .V9
  tag := "state"
  viewTag := "state"
  peekTag _ := .ok "state"
  decodeState _ := .ok ⟨[], [("c", plainOperation [6])], ⟨[], 1, 0⟩⟩
  reencodeState view := .ok view
  reencodeData data := .ok data
  verifierKeyVersion _ := .ok .V6
  contractOperationNew key := .ok (key.elim ⟨none, none⟩ plainOperation)
  contractOperationVersionOf op := if op.v3.isSome then .v3 else .v2
  versionedVerifierKey key := .ok (plainSlot key, key)

def viewOf (op : ContractOperation) : ContractState Unit :=
  ⟨[], [("c", op)], ⟨[], 1, 0⟩⟩

/-- Takes the circuit's key away and gives it a new one. -/
def rotation : List (OpSpec Unit) := [.remove "c", .insert "c" [7]]

theorem plainGeneration_lawful : Lawful plainGeneration plainSlot where
  operation_versions key op h := by
    obtain rfl := Except.ok.inj h
    show (plainOperation key).versions = _
    unfold plainOperation
    cases plainSlot key <;> rfl
  version_of op v h := by
    show (if op.v3.isSome then ContractOperationVersion.v3 else .v2) = v
    by_cases h3 : op.v3.isSome = true
    · have hmem : ContractOperationVersion.v3 ∈ op.versions := mem_versions.mpr h3
      rw [h, Finset.mem_singleton] at hmem
      rw [if_pos h3, hmem]
    · have hmem : v ∈ op.versions := by
        rw [h]
        exact Finset.mem_singleton_self v
      have hkey := mem_versions.mp hmem
      rw [if_neg h3]
      cases v with
      | v2 => rfl
      | v3 => exact absurd hkey h3
  versioned key v k h := (Prod.mk.inj (Except.ok.inj h)).1.symm
  reencode view native h := by
    obtain rfl := Except.ok.inj h
    rfl

/-- A generation whose node serves the view that holds one operation. -/
def servingGeneration (op : ContractOperation) : Generation Unit :=
  { plainGeneration with decodeState := fun _ => .ok (viewOf op) }

theorem servingGeneration_lawful (op : ContractOperation) :
    Lawful (servingGeneration op) plainSlot where
  operation_versions := plainGeneration_lawful.operation_versions
  version_of := plainGeneration_lawful.version_of
  versioned := plainGeneration_lawful.versioned
  reencode := plainGeneration_lawful.reencode

theorem lookup_viewOf {op op' : ContractOperation} {c : String}
    (h : (viewOf op).operations.lookup c = some op') : c = "c" ∧ op' = op := by
  by_cases hc : c = "c"
  · subst hc
    exact ⟨rfl, (Option.some.inj h).symm⟩
  · simp [viewOf, List.lookup_cons, beq_false_of_ne hc] at h

/-- The rotation of the only key of a circuit, and a removal from a circuit with two. -/
theorem batchAgrees_iff_rotation :
    BatchAgrees (servingGeneration ⟨some [6], none⟩) plainSlot (viewOf ⟨some [6], none⟩) []
        (viewOf ⟨some [6], none⟩) rotation ∧
      BatchAgrees (servingGeneration ⟨some [6], some [7]⟩) plainSlot (viewOf ⟨some [6], some [7]⟩)
        [] (viewOf ⟨some [6], some [7]⟩) [.remove "c"] := by
  have hserved : ∀ op : ContractOperation, (∀ v key, op.key v = some key → plainSlot key = v) →
      Served (servingGeneration op) plainSlot (viewOf op) [] := by
    intro op hslot
    refine ⟨fun native h => ?_, fun c op' v key hop hkey => ?_⟩
    · obtain rfl := Except.ok.inj h
      rfl
    · obtain ⟨-, rfl⟩ := lookup_viewOf hop
      exact hslot v key hkey
  constructor
  · refine (batchAgrees_iff (servingGeneration_lawful _) (hserved _ fun v key hkey => ?_) rfl
      rotation).mpr (Or.inl fun c op hop => ?_)
    · cases v with
      | v2 =>
        obtain rfl := Option.some.inj hkey
        rfl
      | v3 => cases hkey
    · obtain ⟨-, rfl⟩ := lookup_viewOf hop
      exact ⟨fun h => absurd h (by decide), fun h => absurd h (by decide)⟩
  · refine (batchAgrees_iff (servingGeneration_lawful _) (hserved _ fun v key hkey => ?_) rfl
      [.remove "c"]).mpr (Or.inl fun c op hop => ?_)
    · cases v with
      | v2 =>
        obtain rfl := Option.some.inj hkey
        rfl
      | v3 =>
        obtain rfl := Option.some.inj hkey
        rfl
    · obtain ⟨rfl, rfl⟩ := lookup_viewOf hop
      exact ⟨fun h => absurd h (by decide), fun _ => le_rfl⟩

/-- A circuit with two keys: its rotation is accepted, and inserts a key while one of
them is still there. -/
theorem rotation_of_two_keys :
    validateVkSequence (viewOf ⟨some [6], some [7]⟩).operations (fun _ => none)
        (rotation.filterMap OpSpec.vkOp) = .ok () ∧
      ¬ Legal plainSlot (keysOf (viewOf ⟨some [6], some [7]⟩).operations)
        (namedOnChain plainGeneration (viewOf ⟨some [6], some [7]⟩).operations) rotation := by
  refine ⟨by decide +kernel, fun h => ?_⟩
  have hempty := h.2.1
  revert hempty
  decide +kernel

end Agreement

end MidnightRs.MaintenanceBatches
