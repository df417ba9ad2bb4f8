import MidnightRs.Committees
import MidnightRs.Loops
import MidnightRs.VersionedHistories
import Mathlib.Order.Lattice

/-!
The life of a governed contract: a deploy registers the verifier keys of circuits
and a committee, and batches of maintenance steps change both. Members prepare
batches against any state the contract has had, several at a time; the counter of
the authority lets one land only on the state it was checked against. So the chain
follows a registry that applies the landed steps one after another.
-/
namespace MidnightRs.Governance

open MaintenanceBatches Committees Results Submission Loops VersionedHistories

section Model

variable {K : Type}

/-- What a contract holds for a circuit whose local key it does not hold. -/
inductive KeyMismatch where
  | missing
  | keyless
  | mismatched
deriving DecidableEq, Repr

structure VerifierKeyMismatch where
  circuit : String
  reason : KeyMismatch
deriving DecidableEq, Repr

/-- Checks that the operation of the circuit holds the local key, in either slot. -/
def checkVerifierKey (state : ContractState K) (circuit : String) (verifierKey : Bytes) :
    Except VerifierKeyMismatch Unit :=
  match state.operations.lookup circuit with
  | none => .error ⟨circuit, .missing⟩
  | some op =>
    if op.v2.isNone && op.v3.isNone then .error ⟨circuit, .keyless⟩
    else if op.v2 = some verifierKey ∨ op.v3 = some verifierKey then .ok ()
    else .error ⟨circuit, .mismatched⟩

/-- Where the compiled keys of a contract's circuits are. -/
structure ZkConfigProvider where
  listCircuits : Except String (Option (List String))
  verifierKey : String → Except String Bytes

/-- The circuits of the contract: those it declares, else those the provider lists. A
listed circuit that is not declared is stale. -/
def contractCircuits (declared enumerated : Option (List String)) :
    Except ContractError (List String) :=
  match declared, enumerated with
  | some declared, some found =>
    let stale := found.filter (fun c => !declared.contains c)
    if stale = [] then .ok declared
    else
      let names := ", ".intercalate (stale.mergeSort (fun a b => decide (a ≤ b)))
      .error (.construction s!"zk artifacts contain verifier keys for circuits the contract does not declare: {names}; the artifact directory is stale, rebuild it")
  | some declared, none => .ok declared
  | none, some found => .ok found
  | none, none => .error (.construction
      "zk config provider cannot enumerate circuits; deploy requires an enumerable provider (e.g. FsZkConfigProvider) or a contract that declares its circuits")

def registeredCircuits (circuits : List String) (registered : Option (List String)) :
    Except ContractError (List String) :=
  match registered with
  | none => .ok circuits
  | some registered =>
    match registered.find? (fun r => !circuits.contains r) with
    | some unknown => .error (.construction
        s!"the deploy registers `{unknown}`, which is not a circuit of the contract")
    | none => .ok registered

def loadKey (zk : ZkConfigProvider) (circuit : String) : Except ContractError (String × Bytes) :=
  ((zk.verifierKey circuit).map (fun key => (circuit, key))).mapError
    (fun e => .construction s!"verifier key {circuit}: {e}")

def verifierKeys (zk : ZkConfigProvider) (declared registered : Option (List String)) :
    Except ContractError (List (String × Bytes)) := do
  let enumerated ← zk.listCircuits.mapError (fun e => .construction s!"listing circuits: {e}")
  let circuits ← contractCircuits declared enumerated
  let circuits ← registeredCircuits circuits registered
  circuits.mapM (loadKey zk)

/-- Sets the operation of a circuit, in place of the one it has. -/
def setOperation (operations : Operations) (circuit : String) (op : ContractOperation) :
    Operations :=
  (circuit, op) :: operations.filter (fun entry => entry.1 ≠ circuit)

def insertKeys (G : Generation K) : Operations → List (String × Bytes) →
    Except ContractError Operations
  | operations, [] => .ok operations
  | operations, (circuit, key) :: keys => do
    let op ← operation G circuit key
    insertKeys G (setOperation operations circuit op) keys

/-- The operations are those of the Compact side's view, which is ledger 9's. -/
def populateVerifierKeys (view : Generation K) (state : ContractState K) (zk : ZkConfigProvider)
    (declared registered : Option (List String)) : Except ContractError (ContractState K) := do
  let keys ← verifierKeys zk declared registered
  let operations ← insertKeys view state.operations keys
  pure { state with operations }

/-- The state that a governed deploy sends. -/
def deployState [DecidableEq K] (view G : Generation K) (zk : ZkConfigProvider)
    (declared registered : Option (List String)) (committee : List K) (threshold : ℕ)
    (state : ContractState K) : Except ContractError (ContractState K) := do
  let populated ← populateVerifierKeys view state zk declared registered
  validateCommittee committee threshold
  fromView G (setMaintenanceAuthority populated committee threshold)

end Model

section Ledger

variable {K : Type}

/-- An operation with the key in the slot of its version. -/
def fillSlot (op : ContractOperation) (key : Bytes) :
    ContractOperationVersion → ContractOperation
  | .v2 => { op with v2 := some key }
  | .v3 => { op with v3 := some key }

/-- An operation without the key of a version, which is none once it has no key left. -/
def clearSlot (op : ContractOperation) : ContractOperationVersion →
    Option ContractOperation
  | .v2 => op.v3.map (fun key => ⟨none, some key⟩)
  | .v3 => op.v2.map (fun key => ⟨some key, none⟩)

abbrev Slots := String → Option ContractOperation

def applySlots (slots : Slots) : SingleUpdate K → Slots
  | .replaceAuthority _ => slots
  | .verifierKeyRemove circuit version =>
    Function.update slots circuit ((slots circuit).bind (clearSlot · version))
  | .verifierKeyInsert circuit version key =>
    Function.update slots circuit
      (some (fillSlot ((slots circuit).getD ⟨none, none⟩) key version))

def applyAuthority (authority : ContractMaintenanceAuthority K) :
    SingleUpdate K → ContractMaintenanceAuthority K
  | .replaceAuthority next => next
  | .verifierKeyRemove _ _ => authority
  | .verifierKeyInsert _ _ _ => authority

/-- How the chain applies a signed update, if it does. -/
structure Ledger (K S : Type) where
  apply : ContractState K → MaintenanceUpdate K → List (Index × S) → Option (ContractState K)

/-- What the ledger is relied on for: an update applies only at the counter that it was
signed for, its steps apply in order, and the counter goes up by one. -/
structure LawfulLedger {S : Type} (L : Ledger K S) : Prop where
  counter : ∀ s u signatures s', L.apply s u signatures = some s' →
    u.counter = s.maintenanceAuthority.counter
  operations : ∀ s u signatures s', L.apply s u signatures = some s' →
    ∀ circuit, s'.operations.lookup circuit =
      u.updates.foldl applySlots (fun c => s.operations.lookup c) circuit
  authority : ∀ s u signatures s', L.apply s u signatures = some s' →
    s'.maintenanceAuthority = { u.updates.foldl applyAuthority s.maintenanceAuthority with
      counter := min (s.maintenanceAuthority.counter + 1) maxU32 }

/-- An operation with one key. -/
def single (slot : Bytes → ContractOperationVersion) (key : Bytes) : ContractOperation :=
  fillSlot ⟨none, none⟩ key (slot key)

/-- A generation whose operations and updates hold the very keys they are given. -/
structure KeepsKeys (G : Generation K) (slot : Bytes → ContractOperationVersion) : Prop
    extends Lawful G slot where
  operation_new : ∀ key op, G.contractOperationNew (some key) = .ok op → op = single slot key
  versioned_key : ∀ key v k, G.versionedVerifierKey key = .ok (v, k) → k = key
  reencode_authority : ∀ view native, G.reencodeState view = .ok native →
    native.maintenanceAuthority = view.maintenanceAuthority

end Ledger

section Registry

variable {K : Type}

/-- The key that a circuit's proofs are verified against. -/
abbrev Registry := String → Option Bytes

/-- What governs a contract: its keys and the committee that can change them. -/
structure Charter (K : Type) where
  registry : Registry
  committee : List K
  threshold : ℕ

def Charter.after (g : Charter K) : OpSpec K → Charter K
  | .insert circuit key => { g with registry := Function.update g.registry circuit (some key) }
  | .remove circuit => { g with registry := Function.update g.registry circuit none }
  | .replace committee threshold => { g with committee, threshold }
  | .retire => { g with committee := [], threshold := 1 }

def Charter.afterAll (g : Charter K) (specs : List (OpSpec K)) : Charter K :=
  specs.foldl Charter.after g

@[simp] theorem registry_insert (g : Charter K) (circuit : String) (key : Bytes) :
    (g.after (.insert circuit key)).registry = Function.update g.registry circuit (some key) := rfl

@[simp] theorem registry_remove (g : Charter K) (circuit : String) :
    (g.after (.remove circuit)).registry = Function.update g.registry circuit none := rfl

/-- The steps insert no key over another and remove none that is not there. -/
def Charter.Allows : Charter K → List (OpSpec K) → Prop
  | _, [] => True
  | g, .insert circuit key :: specs =>
    g.registry circuit = none ∧ (g.after (.insert circuit key)).Allows specs
  | g, .remove circuit :: specs =>
    g.registry circuit ≠ none ∧ (g.after (.remove circuit)).Allows specs
  | g, .replace committee threshold :: specs =>
    (g.after (.replace committee threshold)).Allows specs
  | g, .retire :: specs => (g.after .retire).Allows specs

/-- A committee of members of their own, which takes some signature. -/
structure Charter.Sound (g : Charter K) : Prop where
  distinct : g.committee.Nodup
  positive : 0 < g.threshold

/-- The circuits that a deploy registers. -/
def deployedCircuits (zk : ZkConfigProvider) (declared registered : Option (List String)) :
    List String :=
  registered.getD (declared.getD ((zk.listCircuits.toOption.bind id).getD []))

def Registry.set (r : Registry) (e : String × Bytes) : Registry :=
  Function.update r e.1 (some e.2)

/-- A new contract holds the compiled key of each circuit that it registers, next to
the keys that its initial state was given with. -/
def deployed (given : Registry) (zk : ZkConfigProvider)
    (declared registered : Option (List String)) (committee : List K) (threshold : ℕ) :
    Charter K where
  registry circuit :=
    if circuit ∈ deployedCircuits zk declared registered then
      (zk.verifierKey circuit).toOption
    else given circuit
  committee := committee
  threshold := threshold

/-- The slots hold exactly the registered keys. -/
def Registered (slot : Bytes → ContractOperationVersion) (r : Registry) (slots : Slots) : Prop :=
  ∀ circuit, slots circuit = (r circuit).map (single slot)

end Registry

section Keys

variable {K : Type} {G : Generation K} {slot : Bytes → ContractOperationVersion}

theorem lookup_dropOperation (operations : Operations) (circuit : String) :
    (fun c => (operations.filter (fun entry => entry.1 ≠ circuit)).lookup c) =
      Function.update (fun c => operations.lookup c) circuit none := by
  funext c
  induction operations with
  | nil => by_cases hc : c = circuit <;> simp [Function.update, hc]
  | cons entry operations ih =>
    by_cases he : entry.1 = circuit
    · rw [List.filter_cons_of_neg (by simp [he]), ih]
      by_cases hc : c = circuit
      · rw [hc, Function.update_self, Function.update_self]
      · have hne : (c == entry.1) = false := beq_false_of_ne (he ▸ hc)
        rw [Function.update_of_ne hc, Function.update_of_ne hc, List.lookup_cons, hne]
    · rw [List.filter_cons_of_pos (by simp [he]), List.lookup_cons, ih]
      by_cases hc : c = circuit
      · have hne : (c == entry.1) = false := beq_false_of_ne (fun h => he (h ▸ hc))
        rw [hne, hc, Function.update_self, Function.update_self]
      · rw [Function.update_of_ne hc, Function.update_of_ne hc, List.lookup_cons]

theorem lookup_setOperation (operations : Operations) (circuit : String) (op : ContractOperation) :
    (fun c => (setOperation operations circuit op).lookup c) =
      Function.update (fun c => operations.lookup c) circuit (some op) := by
  funext c
  unfold setOperation
  by_cases hc : c = circuit
  · rw [hc, Function.update_self, List.lookup_cons, beq_self_eq_true]
  · have hdrop := congrFun (lookup_dropOperation operations circuit) c
    rw [Function.update_of_ne hc] at hdrop
    rw [Function.update_of_ne hc, List.lookup_cons, beq_false_of_ne hc]
    exact hdrop

/-- A generation whose operations hold the key they are made of. -/
def NewSingle (G : Generation K) (slot : Bytes → ContractOperationVersion) : Prop :=
  ∀ key op, G.contractOperationNew (some key) = .ok op → op = single slot key

theorem operation_single (hnew : NewSingle G slot) {circuit : String} {key : Bytes}
    {op : ContractOperation} (h : operation G circuit key = .ok op) : op = single slot key := by
  unfold operation at h
  cases haccepted : acceptedKey G circuit key with
  | error e =>
    rw [haccepted] at h
    cases h
  | ok u =>
    rw [haccepted] at h
    simp only at h
    cases hop : G.contractOperationNew (some key) with
    | error e =>
      rw [hop] at h
      cases h
    | ok op' =>
      rw [hop] at h
      obtain rfl := Except.ok.inj h
      exact hnew key op' hop

theorem Registered.set {r : Registry} {slots : Slots} (h : Registered slot r slots)
    (circuit : String) (key : Option Bytes) :
    Registered slot (Function.update r circuit key)
      (Function.update slots circuit (key.map (single slot))) := by
  intro c
  by_cases hc : c = circuit
  · subst hc
    rw [Function.update_self, Function.update_self]
  · rw [Function.update_of_ne hc, Function.update_of_ne hc]
    exact h c

theorem insertKeys_registered (hnew : NewSingle G slot) {operations operations' : Operations}
    {keys : List (String × Bytes)} {r : Registry}
    (hr : Registered slot r (fun c => operations.lookup c))
    (h : insertKeys G operations keys = .ok operations') :
    Registered slot (keys.foldl Registry.set r)
      (fun c => operations'.lookup c) := by
  induction keys generalizing operations r with
  | nil =>
    obtain rfl := Except.ok.inj h
    exact hr
  | cons e keys ih =>
    obtain ⟨circuit, key⟩ := e
    obtain ⟨op, hop, h⟩ := exists_of_bind h
    obtain rfl := operation_single hnew hop
    refine ih ?_ h
    rw [lookup_setOperation]
    exact hr.set circuit (some key)

theorem foldl_set {f : Registry} {keys : List (String × Bytes)}
    (hf : ∀ e ∈ keys, f e.1 = some e.2) (r : Registry) (circuit : String) :
    keys.foldl Registry.set r circuit =
      if circuit ∈ keys.map Prod.fst then f circuit else r circuit := by
  induction keys generalizing r with
  | nil => rfl
  | cons e keys ih =>
    obtain ⟨he, hkeys⟩ := List.forall_mem_cons.mp hf
    rw [List.foldl_cons, ih hkeys, List.map_cons, Registry.set]
    by_cases hmem : circuit ∈ keys.map Prod.fst
    · rw [if_pos hmem, if_pos (List.mem_cons_of_mem _ hmem)]
    · rw [if_neg hmem]
      by_cases hc : circuit = e.1
      · rw [if_pos (hc ▸ List.mem_cons_self), hc, Function.update_self, he]
      · rw [if_neg (by simp [hc, hmem]), Function.update_of_ne hc]

theorem contractCircuits_ok {declared enumerated : Option (List String)} {circuits : List String}
    (h : contractCircuits declared enumerated = .ok circuits) :
    circuits = declared.getD (enumerated.getD []) := by
  cases declared with
  | none =>
    cases enumerated with
    | none => cases h
    | some found => exact (Except.ok.inj h).symm
  | some declared =>
    cases enumerated with
    | none => exact (Except.ok.inj h).symm
    | some found =>
      simp only [contractCircuits] at h
      split at h
      · exact (Except.ok.inj h).symm
      · cases h

theorem registeredCircuits_ok {circuits : List String} {registered : Option (List String)}
    {chosen : List String} (h : registeredCircuits circuits registered = .ok chosen) :
    chosen = registered.getD circuits := by
  cases registered with
  | none => exact (Except.ok.inj h).symm
  | some registered =>
    simp only [registeredCircuits] at h
    split at h
    · cases h
    · exact (Except.ok.inj h).symm

theorem loadKey_ok {zk : ZkConfigProvider} {circuit : String} {e : String × Bytes}
    (h : loadKey zk circuit = .ok e) : e.1 = circuit ∧ zk.verifierKey e.1 = .ok e.2 := by
  obtain ⟨key, hkey, rfl⟩ := map_ok_iff.mp (mapError_ok h)
  exact ⟨rfl, hkey⟩

theorem loadKeys_ok {zk : ZkConfigProvider} {circuits : List String}
    {keys : List (String × Bytes)}
    (h : List.Forall₂ (fun c e => loadKey zk c = .ok e) circuits keys) :
    keys.map Prod.fst = circuits ∧ ∀ e ∈ keys, zk.verifierKey e.1 = .ok e.2 := by
  induction h with
  | nil => exact ⟨rfl, by simp⟩
  | cons hload _ ih =>
    obtain ⟨hname, hkey⟩ := loadKey_ok hload
    exact ⟨congrArg₂ List.cons hname ih.1, List.forall_mem_cons.mpr ⟨hkey, ih.2⟩⟩

theorem verifierKeys_ok {zk : ZkConfigProvider} {declared registered : Option (List String)}
    {keys : List (String × Bytes)} (h : verifierKeys zk declared registered = .ok keys) :
    keys.map Prod.fst = deployedCircuits zk declared registered ∧
      ∀ e ∈ keys, zk.verifierKey e.1 = .ok e.2 := by
  obtain ⟨enumerated, henumerated, h⟩ := exists_of_bind h
  obtain ⟨circuits, hcircuits, h⟩ := exists_of_bind h
  obtain ⟨chosen, hchosen, h⟩ := exists_of_bind h
  have hlisted : zk.listCircuits.toOption.bind id = enumerated := by
    rw [mapError_ok henumerated]
    rfl
  have hdeployed : deployedCircuits zk declared registered = chosen := by
    rw [registeredCircuits_ok hchosen, contractCircuits_ok hcircuits, ← hlisted]
    rfl
  rw [hdeployed]
  exact loadKeys_ok (mapM_ok_iff.mp h)

/-- What the keys that a deploy loads make of a registry. -/
theorem deployed_registry {zk : ZkConfigProvider} {declared registered : Option (List String)}
    {keys : List (String × Bytes)} (h : verifierKeys zk declared registered = .ok keys)
    (given : Registry) (committee : List K) (threshold : ℕ) :
    keys.foldl Registry.set given =
      (deployed given zk declared registered committee threshold).registry := by
  obtain ⟨hnames, hkeys⟩ := verifierKeys_ok h
  have hloaded : ∀ e ∈ keys, (zk.verifierKey e.1).toOption = some e.2 := fun e he => by
    rw [hkeys e he]
    rfl
  funext circuit
  rw [foldl_set (f := fun c => (zk.verifierKey c).toOption) hloaded, hnames]
  rfl

end Keys

section Deploys

variable {K : Type} {G view : Generation K} {slot : Bytes → ContractOperationVersion}

/-- The state on chain is governed as the charter says, at a counter. -/
structure Governs (slot : Bytes → ContractOperationVersion) (g : Charter K) (counter : ℕ)
    (s : ContractState K) : Prop where
  keys : Registered slot g.registry (fun c => s.operations.lookup c)
  authority : s.maintenanceAuthority = ⟨g.committee.map .schnorr, g.threshold, counter⟩

theorem single_v2_or_v3 (slot : Bytes → ContractOperationVersion) (key : Bytes) :
    single slot key = ⟨some key, none⟩ ∨ single slot key = ⟨none, some key⟩ := by
  unfold single fillSlot
  cases slot key with
  | v2 => exact Or.inl rfl
  | v3 => exact Or.inr rfl

theorem single_versions (slot : Bytes → ContractOperationVersion) (key : Bytes) :
    (single slot key).versions = {slot key} := by
  unfold single fillSlot
  cases slot key <;> rfl

theorem single_slotted {held key : Bytes} {v : ContractOperationVersion}
    (h : (single slot held).key v = some key) : slot key = v := by
  unfold single fillSlot at h
  cases hslot : slot held with
  | v2 =>
    rw [hslot] at h
    cases v with
    | v2 => exact Option.some.inj h ▸ hslot
    | v3 => cases h
  | v3 =>
    rw [hslot] at h
    cases v with
    | v2 => cases h
    | v3 => exact Option.some.inj h ▸ hslot

theorem Governs.lookup {g : Charter K} {n : ℕ} {s : ContractState K} (hs : Governs slot g n s)
    (circuit : String) : s.operations.lookup circuit = (g.registry circuit).map (single slot) :=
  hs.keys circuit

theorem nativeOperation_single (hkeeps : KeepsKeys G slot) {circuit : String} {key : Bytes}
    {op : ContractOperation} (h : nativeOperation G circuit (single slot key) = .ok op) :
    op = single slot key := by
  have hop : operation G circuit key = .ok op := by
    rcases single_v2_or_v3 slot key with heq | heq
    · rw [heq] at h
      exact h
    · rw [heq] at h
      exact h
  exact operation_single hkeeps.operation_new hop

theorem nativeOperations_registered (hkeeps : KeepsKeys G slot) {r : Registry}
    {operations native : Operations} (hr : Registered slot r (fun c => operations.lookup c))
    (h : nativeOperations G operations = .ok native) :
    Registered slot r (fun c => native.lookup c) := by
  intro circuit
  have hlookup := nativeOperations_lookup h circuit
  have hop := hr circuit
  simp only at hop ⊢
  cases hkey : r circuit with
  | none =>
    rw [hkey] at hop
    rw [hop] at hlookup
    exact hlookup
  | some key =>
    rw [hkey] at hop
    rw [hop] at hlookup
    obtain ⟨op, hop', hnative⟩ := hlookup
    rw [hop', nativeOperation_single hkeeps hnative]
    rfl

theorem nativeCommittee_ok {members keys : List (ContractMaintenanceVerifyingKey K)}
    (h : nativeCommittee G members = .ok keys) : keys = members := by
  induction members generalizing keys with
  | nil => exact (Except.ok.inj h).symm
  | cons member members ih =>
    cases member with
    | other => cases h
    | schnorr key =>
      obtain ⟨rest, hrest, h⟩ := exists_of_bind h
      obtain rfl := Except.ok.inj h
      rw [ih hrest]

/-- The view of a state keeps its keys and its authority in a generation's types. -/
theorem fromView_governs (hkeeps : KeepsKeys G slot) {g : Charter K} {counter : ℕ}
    {s native : ContractState K} (hs : Governs slot g counter s)
    (h : fromView G s = .ok native) : Governs slot g counter native := by
  unfold fromView at h
  split at h
  · have hoperations := hkeeps.reencode s native h
    have hauthority := hkeeps.reencode_authority s native h
    exact ⟨by rw [hoperations]; exact hs.keys, hauthority.trans hs.authority⟩
  · obtain ⟨data, -, h⟩ := exists_of_bind h
    obtain ⟨operations, hoperations, h⟩ := exists_of_bind h
    obtain ⟨committee, hcommittee, h⟩ := exists_of_bind h
    obtain rfl := Except.ok.inj h
    obtain rfl := nativeCommittee_ok hcommittee
    exact ⟨nativeOperations_registered hkeeps hs.keys hoperations, hs.authority⟩

theorem deployState_governs [DecidableEq K] (hkeeps : KeepsKeys G slot)
    (hnew : NewSingle view slot) {zk : ZkConfigProvider}
    {declared registered : Option (List String)} {committee : List K} {threshold : ℕ}
    {given : Registry} {state s : ContractState K}
    (hstate : Registered slot given (fun c => state.operations.lookup c))
    (h : deployState view G zk declared registered committee threshold state = .ok s) :
    Governs slot (deployed given zk declared registered committee threshold) 0 s ∧
      (deployed given zk declared registered committee threshold).Sound := by
  obtain ⟨populated, hpopulated, h⟩ := exists_of_bind h
  obtain ⟨u, hvalid, h⟩ := exists_of_bind h
  obtain ⟨keys, hkeys, hpopulated⟩ := exists_of_bind hpopulated
  obtain ⟨operations, hoperations, hpopulated⟩ := exists_of_bind hpopulated
  obtain rfl := Except.ok.inj hpopulated
  obtain ⟨-, hpositive, -, hdistinct⟩ := validateCommittee_ok_iff.mp hvalid
  have hregistered := insertKeys_registered hnew hstate hoperations
  rw [deployed_registry hkeys given committee threshold] at hregistered
  exact ⟨fromView_governs hkeeps ⟨hregistered, rfl⟩ h, hdistinct, hpositive⟩

end Deploys

section Batches

variable {K : Type} {G : Generation K} {slot : Bytes → ContractOperationVersion}

/-- The check of a batch against the names on chain is the registry's own. The induction
is on the steps, with what the check has simulated so far. -/
theorem validate_iff_allows {operations : Operations} (specs : List (OpSpec K)) {g : Charter K}
    {presence : String → Option Bool} (hpresence : ∀ circuit,
      (presence circuit).getD (operations.lookup circuit).isSome = (g.registry circuit).isSome) :
    validateVkSequence operations presence (specs.filterMap OpSpec.vkOp) = .ok () ↔
      g.Allows specs := by
  induction specs generalizing g presence with
  | nil => exact ⟨fun _ => trivial, fun _ => rfl⟩
  | cons spec specs ih =>
    have hupdate : ∀ circuit (key : Option Bytes) b, key.isSome = b → ∀ other,
        (Function.update presence circuit (some b) other).getD
          (operations.lookup other).isSome =
            (Function.update g.registry circuit key other).isSome := by
      intro circuit key b hb other
      by_cases ho : other = circuit
      · subst ho
        rw [Function.update_self, Function.update_self, Option.getD_some, hb]
      · rw [Function.update_of_ne ho, Function.update_of_ne ho]
        exact hpresence other
    cases spec with
    | insert circuit key =>
      show validateVkSequence operations presence
        ((circuit, true) :: specs.filterMap OpSpec.vkOp) = .ok () ↔ _
      rw [validate_cons_iff, Charter.Allows, hpresence circuit,
        ih (g := g.after (.insert circuit key)) (hupdate circuit (some key) true rfl)]
      refine and_congr_left fun _ => ?_
      cases g.registry circuit <;> simp
    | remove circuit =>
      show validateVkSequence operations presence
        ((circuit, false) :: specs.filterMap OpSpec.vkOp) = .ok () ↔ _
      rw [validate_cons_iff, Charter.Allows, hpresence circuit,
        ih (g := g.after (.remove circuit)) (hupdate circuit none false rfl)]
      refine and_congr_left fun _ => ?_
      cases g.registry circuit <;> simp
    | replace committee threshold => exact ih hpresence
    | retire => exact ih hpresence

/-- What the update of an allowed batch makes of the slots: the steps insert into slots
that are empty and clear the one slot that is full. -/
theorem prepareSingles_registered (hkeeps : KeepsKeys G slot) {native : Operations} {counter : ℕ}
    (specs : List (OpSpec K)) {g : Charter K} {slots : Slots}
    {inserted : String → Option ContractOperation} {singles : List (SingleUpdate K)}
    (hnamed : ∀ circuit key, g.registry circuit = some key →
      removalVersion G native inserted circuit = some (slot key))
    (hslots : Registered slot g.registry slots) (hallows : g.Allows specs)
    (h : prepareSingles G native counter inserted specs = .ok singles) :
    Registered slot (g.afterAll specs).registry (singles.foldl applySlots slots) := by
  induction specs generalizing g slots inserted singles with
  | nil =>
    obtain rfl := Except.ok.inj h
    exact hslots
  | cons spec specs ih =>
    cases spec with
    | insert circuit key =>
      obtain ⟨op, hop, h⟩ := exists_of_bind h
      obtain ⟨⟨version, stored⟩, hversioned, h⟩ := exists_of_bind h
      obtain ⟨rest, hrest, h⟩ := exists_of_bind h
      obtain rfl := Except.ok.inj h
      obtain rfl := hkeeps.versioned _ _ _ (mapError_ok hversioned)
      obtain rfl := hkeeps.versioned_key _ _ _ (mapError_ok hversioned)
      obtain ⟨hnone, hallows⟩ := hallows
      have hempty : slots circuit = none := by rw [hslots circuit, hnone]; rfl
      rw [List.foldl_cons]
      refine ih (g := g.after (.insert circuit stored)) (fun c k hk => ?_) ?_ hallows hrest
      · rw [registry_insert] at hk
        by_cases hc : c = circuit
        · subst hc
          rw [Function.update_self] at hk
          obtain rfl := Option.some.inj hk
          simp only [removalVersion, Function.update_self]
          rw [hkeeps.version_of op _ (operation_versions hkeeps.toLawful hop)]
        · simp only [removalVersion, Function.update_of_ne hc]
          rw [Function.update_of_ne hc] at hk
          exact hnamed c k hk
      · simp only [applySlots, hempty]
        exact hslots.set circuit (some stored)
    | remove circuit =>
      obtain ⟨hsome, hallows⟩ := hallows
      obtain ⟨key, hkey⟩ := Option.ne_none_iff_exists'.mp hsome
      have hversion := hnamed circuit key hkey
      unfold prepareSingles at h
      rw [hversion] at h
      obtain ⟨rest, hrest, h⟩ := exists_of_bind h
      obtain rfl := Except.ok.inj h
      have hcleared : (slots circuit).bind (clearSlot · (slot key)) = none := by
        rw [hslots circuit, hkey]
        show clearSlot (single slot key) (slot key) = none
        unfold single fillSlot clearSlot
        cases slot key <;> rfl
      rw [List.foldl_cons]
      refine ih (g := g.after (.remove circuit)) (fun c k hk => ?_) ?_ hallows hrest
      · rw [registry_remove] at hk
        by_cases hc : c = circuit
        · subst hc
          rw [Function.update_self] at hk
          cases hk
        · rw [Function.update_of_ne hc] at hk
          exact hnamed c k hk
      · simp only [applySlots, hcleared]
        exact hslots.set circuit none
    | replace committee threshold =>
      obtain ⟨rest, hrest, h⟩ := exists_of_bind h
      obtain rfl := Except.ok.inj h
      rw [List.foldl_cons]
      exact ih (g := g.after (.replace committee threshold)) hnamed hslots hallows hrest
    | retire =>
      obtain ⟨rest, hrest, h⟩ := exists_of_bind h
      obtain rfl := Except.ok.inj h
      rw [List.foldl_cons]
      exact ih (g := g.after .retire) hnamed hslots hallows hrest

/-- The committee and threshold of an authority are the charter's. -/
def Ruled (g : Charter K) (authority : ContractMaintenanceAuthority K) : Prop :=
  authority.committee = g.committee.map .schnorr ∧ authority.threshold = g.threshold

theorem prepareSingles_ruled {native : Operations} {counter : ℕ} (specs : List (OpSpec K))
    {g : Charter K} {authority : ContractMaintenanceAuthority K}
    {inserted : String → Option ContractOperation} {singles : List (SingleUpdate K)}
    (hruled : Ruled g authority)
    (h : prepareSingles G native counter inserted specs = .ok singles) :
    Ruled (g.afterAll specs) (singles.foldl applyAuthority authority) := by
  induction specs generalizing g authority inserted singles with
  | nil =>
    obtain rfl := Except.ok.inj h
    exact hruled
  | cons spec specs ih =>
    cases spec with
    | insert circuit key =>
      obtain ⟨op, -, h⟩ := exists_of_bind h
      obtain ⟨⟨version, stored⟩, -, h⟩ := exists_of_bind h
      obtain ⟨rest, hrest, h⟩ := exists_of_bind h
      obtain rfl := Except.ok.inj h
      rw [List.foldl_cons]
      exact ih (g := g.after (.insert circuit key)) hruled hrest
    | remove circuit =>
      unfold prepareSingles at h
      split at h
      · cases h
      · obtain ⟨rest, hrest, h⟩ := exists_of_bind h
        obtain rfl := Except.ok.inj h
        rw [List.foldl_cons]
        exact ih (g := g.after (.remove circuit)) hruled hrest
    | replace committee threshold =>
      obtain ⟨rest, hrest, h⟩ := exists_of_bind h
      obtain rfl := Except.ok.inj h
      rw [List.foldl_cons]
      exact ih (g := g.after (.replace committee threshold)) ⟨rfl, rfl⟩ hrest
    | retire =>
      obtain ⟨rest, hrest, h⟩ := exists_of_bind h
      obtain rfl := Except.ok.inj h
      rw [List.foldl_cons]
      exact ih (g := g.after .retire) ⟨rfl, rfl⟩ hrest

/-- A batch whose new committees were checked leaves a committee of that kind. -/
theorem countReplaces_sound [DecidableEq K] (specs : List (OpSpec K)) {g : Charter K} {n : ℕ}
    (hg : g.Sound) (h : countReplaces specs = .ok n) : (g.afterAll specs).Sound := by
  induction specs generalizing g n with
  | nil => exact hg
  | cons spec specs ih =>
    cases spec with
    | insert circuit key => exact ih (g := g.after (.insert circuit key)) ⟨hg.1, hg.2⟩ h
    | remove circuit => exact ih (g := g.after (.remove circuit)) ⟨hg.1, hg.2⟩ h
    | replace committee threshold =>
      obtain ⟨u, hvalid, h⟩ := exists_of_bind h
      obtain ⟨m, hm, -⟩ := exists_of_bind h
      obtain ⟨-, hpositive, -, hdistinct⟩ := validateCommittee_ok_iff.mp hvalid
      exact ih (g := g.after (.replace committee threshold)) ⟨hdistinct, hpositive⟩ hm
    | retire =>
      obtain ⟨m, hm, -⟩ := exists_of_bind h
      exact ih (g := g.after .retire) ⟨List.nodup_nil, Nat.one_pos⟩ hm

/-- What a prepared batch has passed. -/
structure Passed [DecidableEq K] (G : Generation K) (s : ContractState K) (bytes : Bytes)
    (specs : List (OpSpec K)) (update : MaintenanceUpdate K) (keys : List K) (threshold : ℕ) :
    Prop where
  committee : schnorrCommittee s.maintenanceAuthority.committee = .ok keys
  threshold : threshold = s.maintenanceAuthority.threshold
  valid : validateVkSequence s.operations (fun _ => none) (specs.filterMap OpSpec.vkOp) = .ok ()
  replaces : ∃ n, countReplaces specs = .ok n
  counter : update.counter = s.maintenanceAuthority.counter
  built : ∃ native, nativeState G s bytes = .ok native ∧
    prepareSingles G native.operations s.maintenanceAuthority.counter (fun _ => none) specs =
      .ok update.updates

theorem prepareInner_passed [DecidableEq K] {s : ContractState K} {bytes address : Bytes}
    {specs : List (OpSpec K)} {update : MaintenanceUpdate K} {keys : List K} {threshold : ℕ}
    (h : prepareInner G s bytes address specs = .ok (update, keys, threshold)) :
    Passed G s bytes specs update keys threshold := by
  unfold prepareInner at h
  split at h
  · cases h
  obtain ⟨keys', hkeys, h⟩ := exists_of_bind h
  obtain ⟨u, hvalid, h⟩ := exists_of_bind h
  obtain ⟨n, hreplaces, h⟩ := exists_of_bind h
  split at h
  · cases h
  obtain ⟨update', hupdate, h⟩ := exists_of_bind h
  cases Except.ok.inj h
  obtain ⟨native, hnative, hupdate⟩ := exists_of_bind hupdate
  obtain ⟨singles, hsingles, hupdate⟩ := exists_of_bind hupdate
  cases Except.ok.inj hupdate
  exact ⟨hkeys, rfl, hvalid, ⟨n, hreplaces⟩, rfl, native, hnative, hsingles⟩

end Batches

section Runs

variable {K S : Type}

/-- A contract's state and those before it, newest first, the updates prepared so far
with their steps, and the batches that landed, oldest first. -/
structure World (K S : Type) where
  current : ContractState K
  past : List (ContractState K)
  prepared : List (PreparedMaintenance K S × List (OpSpec K))
  landed : List (List (OpSpec K))

def World.start (s : ContractState K) : World K S := ⟨s, [], [], []⟩

/-- What governs the contract after the batches that landed. -/
def World.charter (g : Charter K) (w : World K S) : Charter K :=
  g.afterAll w.landed.flatten

inductive Move (K S : Type) where
  | call (data : Bytes)
  | prepare (s : ContractState K) (bytes address : Bytes) (specs : List (OpSpec K))
  | sign (p : PreparedMaintenance K S) (specs : List (OpSpec K)) (index : Index) (signature : S)
  | land (p : PreparedMaintenance K S) (specs : List (OpSpec K))

variable [DecidableEq K] (G : Generation K) (L : Ledger K S) (verify : K → Bytes → S → Bool)
  (dataToSign : MaintenanceUpdate K → Bytes)

/-- A member prepares a batch against a state that the contract has or had, and anyone
signs it; once its signatures are checked the chain may apply it, at any later time. -/
inductive Step : World K S → Move K S → World K S → Prop where
  | call (w : World K S) (data : Bytes) :
      Step w (.call data)
        { w with current := { w.current with data }, past := w.current :: w.past }
  | prepare (w : World K S) {s : ContractState K} {bytes address : Bytes}
      {specs : List (OpSpec K)} {p : PreparedMaintenance K S} (hread : s ∈ w.current :: w.past)
      (hserved : ∀ native, G.decodeState bytes = .ok native → native.operations = s.operations)
      (hprepare : Committees.prepare G S s bytes address specs = .ok p) :
      Step w (.prepare s bytes address specs) { w with prepared := (p, specs) :: w.prepared }
  | sign (w : World K S) {p : PreparedMaintenance K S} {specs : List (OpSpec K)}
      (hp : (p, specs) ∈ w.prepared) (index : Index) (signature : S) :
      Step w (.sign p specs index signature)
        { w with prepared := (p.addSignature index signature, specs) :: w.prepared }
  | land (w : World K S) {p : PreparedMaintenance K S} {specs : List (OpSpec K)}
      {s : ContractState K} (hp : (p, specs) ∈ w.prepared)
      (hchecked : p.checkSignatures verify dataToSign = .ok ())
      (happly : L.apply w.current p.update p.signatures = some s) :
      Step w (.land p specs) ⟨s, w.current :: w.past, w.prepared, w.landed ++ [specs]⟩

/-- What the charter says of a contract: which keys a call finds, which batches are
accepted, and that only an allowed batch lands, signed by enough of the members. -/
structure Follows (g : Charter K) (w : World K S) : Prop where
  accepted : ∀ circuit key,
    checkVerifierKey w.current circuit key = .ok () ↔ g.registry circuit = some key
  missing : ∀ circuit key,
    checkVerifierKey w.current circuit key = .error ⟨circuit, .missing⟩ ↔
      g.registry circuit = none
  keyed : ∀ circuit key, checkVerifierKey w.current circuit key ≠ .error ⟨circuit, .keyless⟩
  batches : ∀ specs, validateVkSequence w.current.operations (fun _ => none)
    (specs.filterMap OpSpec.vkOp) = .ok () ↔ g.Allows specs
  landings : ∀ p specs w', Step G L verify dataToSign w (.land p specs) w' →
    g.Allows specs ∧ ∃ signers : Finset K, g.threshold ≤ signers.card ∧
      ∀ vk ∈ signers, vk ∈ g.committee ∧ Signed verify dataToSign p vk
  retired : g.committee = [] → ∀ p specs w', ¬ Step G L verify dataToSign w (.land p specs) w'

def counterOf (s : ContractState K) : ℕ := s.maintenanceAuthority.counter

def contentOf (s : ContractState K) : Slots × ContractMaintenanceAuthority K :=
  (fun c => s.operations.lookup c, s.maintenanceAuthority)

variable {G L verify dataToSign} {slot : Bytes → ContractOperationVersion} {g : Charter K}

omit [DecidableEq K] in
theorem Governs.of_content {n : ℕ} {s t : ContractState K} (hs : Governs slot g n s)
    (hcontent : contentOf t = contentOf s) : Governs slot g n t := by
  obtain ⟨hkeys, hauthority⟩ := Prod.mk.inj hcontent
  exact ⟨hkeys ▸ hs.keys, hauthority.trans hs.authority⟩

omit [DecidableEq K] in
theorem Governs.present {n : ℕ} {s : ContractState K} (hs : Governs slot g n s)
    (circuit : String) : ((none : Option Bool).getD (s.operations.lookup circuit).isSome) =
      (g.registry circuit).isSome := by
  rw [hs.lookup, Option.getD_none, Option.isSome_map]

omit [DecidableEq K] in
/-- What a call finds of a circuit's key. -/
theorem Governs.checkVerifierKey {n : ℕ} {s : ContractState K} (hs : Governs slot g n s)
    (circuit : String) (key : Bytes) :
    Governance.checkVerifierKey s circuit key =
      match g.registry circuit with
      | none => .error ⟨circuit, .missing⟩
      | some held => if held = key then .ok () else .error ⟨circuit, .mismatched⟩ := by
  unfold Governance.checkVerifierKey
  rw [hs.lookup]
  cases g.registry circuit with
  | none => rfl
  | some held => rcases single_v2_or_v3 slot held with heq | heq <;> simp [heq]

omit [DecidableEq K] in
/-- The check tells a registered key from another and from none. -/
theorem Governs.tells_keys {n : ℕ} {s : ContractState K} (hs : Governs slot g n s)
    (circuit : String) (key : Bytes) :
    (Governance.checkVerifierKey s circuit key = .ok () ↔ g.registry circuit = some key) ∧
      (Governance.checkVerifierKey s circuit key = .error ⟨circuit, .missing⟩ ↔
        g.registry circuit = none) ∧
      Governance.checkVerifierKey s circuit key ≠ .error ⟨circuit, .keyless⟩ := by
  rw [hs.checkVerifierKey]
  cases g.registry circuit with
  | none => simp
  | some held => by_cases hheld : held = key <;> simp [hheld]

/-- What the batch that was checked against a governed state says of its charter. -/
theorem Passed.governed {n : ℕ} {s : ContractState K} {bytes : Bytes} {specs : List (OpSpec K)}
    {update : MaintenanceUpdate K} {keys : List K} {threshold : ℕ} (hs : Governs slot g n s)
    (hpassed : Passed G s bytes specs update keys threshold) :
    keys = g.committee ∧ threshold = g.threshold ∧ g.Allows specs := by
  refine ⟨?_, ?_, ?_⟩
  · have hcommittee := hpassed.committee
    rw [hs.authority, schnorrCommittee_map] at hcommittee
    exact (Except.ok.inj hcommittee).symm
  · rw [hpassed.threshold, hs.authority]
  · exact (validate_iff_allows specs hs.present).mp hpassed.valid

/-- The state that the ledger makes of an update follows the batch's steps. -/
theorem Passed.applied (hkeeps : KeepsKeys G slot) (hledger : LawfulLedger L) {n : ℕ}
    {s t s' : ContractState K} {bytes : Bytes} {specs : List (OpSpec K)}
    {update : MaintenanceUpdate K} {keys : List K} {threshold : ℕ} {signatures : List (Index × S)}
    (hs : Governs slot g n s) (ht : Governs slot g n t)
    (hserved : ∀ native, G.decodeState bytes = .ok native → native.operations = s.operations)
    (hpassed : Passed G s bytes specs update keys threshold)
    (happly : L.apply t update signatures = some s') :
    Governs slot (g.afterAll specs) (min (n + 1) maxU32) s' := by
  obtain ⟨-, -, hallows⟩ := hpassed.governed hs
  obtain ⟨native, hnative, hsingles⟩ := hpassed.built
  have hslotted : ∀ circuit op v key, s.operations.lookup circuit = some op → op.key v = some key →
      slot key = v := by
    intro circuit op v key hop hkey
    rw [hs.lookup] at hop
    obtain ⟨held, -, rfl⟩ := Option.map_eq_some_iff.mp hop
    exact single_slotted hkey
  have hnamed : ∀ circuit key, g.registry circuit = some key →
      removalVersion G native.operations (fun _ => none) circuit = some (slot key) := by
    intro circuit key hkey
    have hop : s.operations.lookup circuit = some (single slot key) := by
      rw [hs.lookup, hkey, Option.map_some]
    exact nativeState_named hkeeps.toLawful ⟨hserved, hslotted⟩ hnative hop
      (single_versions slot key)
  constructor
  · have hregistered := prepareSingles_registered hkeeps specs hnamed ht.keys hallows hsingles
    exact fun circuit => (hledger.operations _ _ _ _ happly circuit).trans (hregistered circuit)
  · have hruled : Ruled g t.maintenanceAuthority := by
      rw [ht.authority]
      exact ⟨rfl, rfl⟩
    have hcounter : t.maintenanceAuthority.counter = n := by rw [ht.authority]
    obtain ⟨hcommittee, hthreshold⟩ := prepareSingles_ruled specs hruled hsingles
    rw [hledger.authority _ _ _ _ happly]
    simp only [hcommittee, hthreshold, hcounter]

/-- The invariant of a run: the history is versioned by the counter, the newest state
follows the charter, and each prepared batch was checked against a state of the history. -/
structure Inv (G : Generation K) (slot : Bytes → ContractOperationVersion) (g : Charter K)
    (w : World K S) : Prop where
  history : History counterOf contentOf (w.current :: w.past)
  governs : Governs slot (w.charter g) w.landed.length w.current
  sound : (w.charter g).Sound
  prepared : ∀ e ∈ w.prepared, ∃ s ∈ w.current :: w.past, ∃ bytes,
    (∀ native, G.decodeState bytes = .ok native → native.operations = s.operations) ∧
      Passed G s bytes e.2 e.1.update e.1.committee e.1.requiredThreshold

/-- The counter picks the states that a prepared update fits. -/
theorem Inv.fits {w : World K S} (h : Inv G slot g w) (hledger : LawfulLedger L)
    {p : PreparedMaintenance K S} {specs : List (OpSpec K)} {s' : ContractState K}
    (hp : (p, specs) ∈ w.prepared) (happly : L.apply w.current p.update p.signatures = some s') :
    ∃ s bytes, Governs slot (w.charter g) w.landed.length s ∧
      (∀ native, G.decodeState bytes = .ok native → native.operations = s.operations) ∧
      Passed G s bytes specs p.update p.committee p.requiredThreshold := by
  obtain ⟨s, hs, bytes, hserved, hpassed⟩ := h.prepared _ hp
  have hcounter : counterOf s = counterOf w.current :=
    hpassed.counter.symm.trans (hledger.counter _ _ _ _ happly)
  exact ⟨s, bytes, h.governs.of_content (h.history.content_eq s hs hcounter), hserved, hpassed⟩

omit [DecidableEq K] in
theorem afterAll_landed (g : Charter K) (landed : List (List (OpSpec K)))
    (specs : List (OpSpec K)) :
    g.afterAll (landed ++ [specs]).flatten = (g.afterAll landed.flatten).afterAll specs := by
  have hflatten : (landed ++ [specs]).flatten = landed.flatten ++ specs := by simp
  rw [hflatten]
  exact List.foldl_append

theorem Inv.step (hkeeps : KeepsKeys G slot) (hledger : LawfulLedger L) {w w' : World K S}
    {m : Move K S} (hstep : Step G L verify dataToSign w m w') (hcount : w'.landed.length ≤ maxU32)
    (h : Inv G slot g w) : Inv G slot g w' := by
  cases hstep with
  | call data =>
    refine ⟨.keep h.history rfl rfl, h.governs.of_content rfl, h.sound, fun e he => ?_⟩
    obtain ⟨s, hs, hrest⟩ := h.prepared e he
    exact ⟨s, List.mem_cons_of_mem _ hs, hrest⟩
  | prepare hread hserved hprepare =>
    refine ⟨h.history, h.governs, h.sound, fun e he => ?_⟩
    rcases List.mem_cons.mp he with rfl | he
    · obtain ⟨⟨update, keys, threshold⟩, hinner, hp⟩ := exists_of_bind hprepare
      cases Except.ok.inj hp
      exact ⟨_, hread, _, hserved, prepareInner_passed hinner⟩
    · exact h.prepared e he
  | sign hp index signature =>
    refine ⟨h.history, h.governs, h.sound, fun e he => ?_⟩
    rcases List.mem_cons.mp he with rfl | he
    · have hold := h.prepared _ hp
      exact hold
    · exact h.prepared e he
  | land hp hchecked happly =>
    rename_i p specs s'
    obtain ⟨s, bytes, hs, hserved, hpassed⟩ := h.fits hledger hp happly
    have hafter : g.afterAll (w.landed ++ [specs]).flatten = (w.charter g).afterAll specs :=
      afterAll_landed g w.landed specs
    have hlength : (w.landed ++ [specs]).length = w.landed.length + 1 := List.length_append
    have hgoverns := hpassed.applied hkeeps hledger hs h.governs hserved happly
    rw [← hafter, Nat.min_eq_left (hlength ▸ hcount)] at hgoverns
    obtain ⟨n, hreplaces⟩ := hpassed.replaces
    refine ⟨.raise h.history ?_, hlength ▸ hgoverns, ?_, fun e he => ?_⟩
    · show w.current.maintenanceAuthority.counter < s'.maintenanceAuthority.counter
      rw [hgoverns.authority, h.governs.authority]
      exact Nat.lt_succ_self _
    · show (g.afterAll (w.landed ++ [specs]).flatten).Sound
      rw [hafter]
      exact countReplaces_sound specs h.sound hreplaces
    · obtain ⟨s, hs, hrest⟩ := h.prepared e he
      exact ⟨s, List.mem_cons_of_mem _ hs, hrest⟩

theorem landed_step {w w' : World K S} {m : Move K S}
    (hstep : Step G L verify dataToSign w m w') : w.landed.length ≤ w'.landed.length := by
  cases hstep with
  | land hp hchecked happly => simp
  | _ => exact le_rfl

/-- A batch that lands is allowed where it lands, and signed by the members of then. -/
theorem Inv.landing (hledger : LawfulLedger L) {w w' : World K S} (h : Inv G slot g w)
    {p : PreparedMaintenance K S} {specs : List (OpSpec K)}
    (hstep : Step G L verify dataToSign w (.land p specs) w') :
    (w.charter g).Allows specs ∧ ∃ signers : Finset K, (w.charter g).threshold ≤ signers.card ∧
      ∀ vk ∈ signers, vk ∈ (w.charter g).committee ∧ Signed verify dataToSign p vk := by
  cases hstep with
  | land hp hchecked happly =>
    obtain ⟨s, bytes, hs, -, hpassed⟩ := h.fits hledger hp happly
    obtain ⟨hcommittee, hthreshold, hallows⟩ := hpassed.governed hs
    have hquorate := Quorate.of_accepted hchecked
    rw [hcommittee, hthreshold] at hquorate
    exact ⟨hallows, hquorate.signers h.sound.distinct⟩

theorem Inv.follows (hledger : LawfulLedger L) {w : World K S} (h : Inv G slot g w) :
    Follows G L verify dataToSign (w.charter g) w := by
  refine ⟨fun circuit key => (h.governs.tells_keys circuit key).1,
    fun circuit key => (h.governs.tells_keys circuit key).2.1,
    fun circuit key => (h.governs.tells_keys circuit key).2.2,
    fun specs => validate_iff_allows specs h.governs.present,
    fun p specs w' hstep => h.landing hledger hstep, ?_⟩
  intro hretired p specs w' hstep
  -- An empty committee has no member to meet its threshold.
  obtain ⟨-, signers, henough, hsigned⟩ := h.landing hledger hstep
  obtain ⟨vk, hvk⟩ := Finset.card_pos.mp (h.sound.positive.trans_le henough)
  have hmember := (hsigned vk hvk).1
  rw [hretired] at hmember
  cases hmember

/-- Over the whole life of a governed contract, in whatever order batches are prepared,
signed and landed, the chain follows its charter: the keys and the committee of the
deploy, changed by the steps that landed. -/
theorem chain_follows_charter (hkeeps : KeepsKeys G slot) (hledger : LawfulLedger L)
    {view : Generation K} (hnew : NewSingle view slot) {zk : ZkConfigProvider}
    {declared registered : Option (List String)} {committee : List K} {threshold : ℕ}
    {given : Registry} {state s : ContractState K}
    (hstate : Registered slot given (fun c => state.operations.lookup c))
    (hdeploy : deployState view G zk declared registered committee threshold state = .ok s)
    {w : World K S} {ms : List (Move K S)}
    (hrun : Run (Step G L verify dataToSign) (.start s) ms w)
    (hcount : w.landed.length ≤ maxU32) :
    Follows G L verify dataToSign
      (w.charter (deployed given zk declared registered committee threshold)) w := by
  obtain ⟨hgoverns, hsound⟩ := deployState_governs hkeeps hnew hstate hdeploy
  have hstart : Inv G slot (deployed given zk declared registered committee threshold)
      (.start s : World K S) := ⟨.start s, hgoverns, hsound, by simp [World.start]⟩
  have hinv := hrun.invariant
    (fun w => w.landed.length ≤ maxU32 →
      Inv G slot (deployed given zk declared registered committee threshold) w)
    (fun _ _ _ hstep ih hle => (ih ((landed_step hstep).trans hle)).step hkeeps hledger hstep hle)
    (fun _ => hstart)
  exact (hinv hcount).follows hledger

end Runs

section Rotations

/-- The chain's bytes are of an older tag than the generation's, so a state is read
through its view. -/
def viewedGeneration : Generation ℕ where
  ledger := .V9
  tag := "state"
  viewTag := "state"
  peekTag _ := .ok "older"
  decodeState _ := .error "older"
  reencodeState view := .ok view
  reencodeData data := .ok data
  verifierKeyVersion _ := .ok .V6
  contractOperationNew key := .ok (key.elim ⟨none, none⟩ (single plainSlot))
  contractOperationVersionOf op := if op.v3.isSome then .v3 else .v2
  versionedVerifierKey key := .ok (plainSlot key, key)

theorem viewedGeneration_keeps : KeepsKeys viewedGeneration plainSlot where
  operation_versions key op h := by
    obtain rfl := Except.ok.inj h
    exact single_versions plainSlot key
  version_of op v h := plainGeneration_lawful.version_of op v h
  versioned key v k h := by
    cases Except.ok.inj h
    rfl
  reencode view native h := by
    obtain rfl := Except.ok.inj h
    rfl
  operation_new key op h := (Except.ok.inj h).symm
  versioned_key key v k h := by
    cases Except.ok.inj h
    rfl
  reencode_authority view native h := by
    obtain rfl := Except.ok.inj h
    rfl

def applyOperations (operations : Operations) : SingleUpdate ℕ → Operations
  | .replaceAuthority _ => operations
  | .verifierKeyRemove circuit version =>
    match (operations.lookup circuit).bind (clearSlot · version) with
    | some op => setOperation operations circuit op
    | none => operations.filter (fun entry => entry.1 ≠ circuit)
  | .verifierKeyInsert circuit version key =>
    setOperation operations circuit
      (fillSlot ((operations.lookup circuit).getD ⟨none, none⟩) key version)

def plainLedger : Ledger ℕ ℕ where
  apply s u _ :=
    if u.counter = s.maintenanceAuthority.counter then
      some ⟨s.data, u.updates.foldl applyOperations s.operations,
        { u.updates.foldl applyAuthority s.maintenanceAuthority with
          counter := min (s.maintenanceAuthority.counter + 1) maxU32 }⟩
    else none

theorem lookup_applyOperations (operations : Operations) (u : SingleUpdate ℕ) :
    (fun c => (applyOperations operations u).lookup c) =
      applySlots (fun c => operations.lookup c) u := by
  cases u with
  | replaceAuthority authority => rfl
  | verifierKeyInsert circuit version key => exact lookup_setOperation _ _ _
  | verifierKeyRemove circuit version =>
    simp only [applyOperations, applySlots]
    cases (operations.lookup circuit).bind (clearSlot · version) with
    | none => exact lookup_dropOperation _ _
    | some op => exact lookup_setOperation _ _ _

theorem lookup_applyAll (updates : List (SingleUpdate ℕ)) (operations : Operations) :
    (fun c => (updates.foldl applyOperations operations).lookup c) =
      updates.foldl applySlots (fun c => operations.lookup c) := by
  induction updates generalizing operations with
  | nil => rfl
  | cons u updates ih =>
    rw [List.foldl_cons, List.foldl_cons, ih, lookup_applyOperations]

theorem plainLedger_lawful : LawfulLedger plainLedger := by
  have happlied : ∀ s u signatures s', plainLedger.apply s u signatures = some s' →
      u.counter = s.maintenanceAuthority.counter ∧
        s' = ⟨s.data, u.updates.foldl applyOperations s.operations,
          { u.updates.foldl applyAuthority s.maintenanceAuthority with
            counter := min (s.maintenanceAuthority.counter + 1) maxU32 }⟩ := by
    intro s u signatures s' h
    obtain ⟨hcounter, h⟩ := Option.ite_none_right_eq_some.mp h
    exact ⟨hcounter, (Option.some.inj h).symm⟩
  refine ⟨fun s u _ s' h => (happlied s u _ s' h).1, fun s u _ s' h circuit => ?_,
    fun s u _ s' h => ?_⟩
  · obtain ⟨-, rfl⟩ := happlied s u _ s' h
    exact congrFun (lookup_applyAll u.updates s.operations) circuit
  · obtain ⟨-, rfl⟩ := happlied s u _ s' h
    rfl

def plainProvider : ZkConfigProvider where
  listCircuits := .ok (some ["c"])
  verifierKey _ := .ok [6]

def deployedState : ContractState ℕ :=
  ⟨[], [("c", single plainSlot [6])], ⟨[.schnorr 10, .schnorr 11], 2, 0⟩⟩

def keyRotation : List (OpSpec ℕ) := [.remove "c", .insert "c" [7]]

def preparedRotation : PreparedMaintenance ℕ ℕ :=
  ⟨⟨[], [.verifierKeyRemove "c" .v2, .verifierKeyInsert "c" .v3 [7]], 0⟩, [], [10, 11], 2⟩

def signedRotation : PreparedMaintenance ℕ ℕ :=
  (preparedRotation.addSignature 0 10).addSignature 1 11

def rotatedState : ContractState ℕ :=
  ⟨[], [("c", single plainSlot [7])], ⟨[.schnorr 10, .schnorr 11], 2, 1⟩⟩

def rotated : World ℕ ℕ :=
  ⟨rotatedState, [deployedState],
    [(signedRotation, keyRotation), (preparedRotation.addSignature 0 10, keyRotation),
      (preparedRotation, keyRotation)], [keyRotation]⟩

/-- A rotation of the key that both members sign lands, and the chain follows it. -/
theorem chain_follows_charter_rotation :
    checkVerifierKey rotatedState "c" [7] = .ok () ∧
      Follows viewedGeneration plainLedger bySigner toSign
        (rotated.charter (deployed (fun _ => none) plainProvider none none [10, 11] 2))
        rotated := by
  have hnew : NewSingle viewedGeneration plainSlot := fun _ _ h => (Except.ok.inj h).symm
  have hdeploy : deployState viewedGeneration viewedGeneration plainProvider none none [10, 11] 2
      ⟨[], [], ⟨[], 1, 0⟩⟩ = .ok deployedState := rfl
  have hserved : ∀ native, viewedGeneration.decodeState [] = .ok native →
      native.operations = deployedState.operations := by
    intro native h
    cases h
  have hprepare : prepare viewedGeneration ℕ deployedState [] [] keyRotation =
      .ok preparedRotation := rfl
  have hchecked : signedRotation.checkSignatures bySigner toSign = .ok () := by decide
  have happly : plainLedger.apply deployedState signedRotation.update signedRotation.signatures =
      some rotatedState := rfl
  exact ⟨rfl, chain_follows_charter viewedGeneration_keeps plainLedger_lawful hnew (fun _ => rfl)
    hdeploy
    (.cons (.prepare _ List.mem_cons_self hserved hprepare)
      (.cons (.sign _ List.mem_cons_self 0 10)
        (.cons (.sign _ List.mem_cons_self 1 11)
          (.cons (.land _ List.mem_cons_self hchecked happly) (.nil rotated))))) (by decide)⟩

end Rotations

end MidnightRs.Governance
