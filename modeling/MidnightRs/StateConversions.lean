import MidnightRs.MaintenanceBatches

/-!
A contract state in the types of ledger 8, and the view of it in the types of ledger 9.
The chain serves either one. The view of a ledger 8 state has all of its parts, and a
call or a deploy on ledger 8 converts the view back, part by part.
-/
namespace MidnightRs.StateConversions

open Submission Results
open MaintenanceBatches (VerifierKeyVersion ContractMaintenanceVerifyingKey
  ContractMaintenanceAuthority Generation acceptedKey)

/-- A map in the order of its storage, each key once. -/
structure StorageMap (α β : Type) where
  entries : List (α × β)
  nodup : (entries.map Prod.fst).Nodup

namespace StorageMap

variable {α β γ δ ε : Type} [DecidableEq γ]

def empty : StorageMap α β := ⟨[], List.nodup_nil⟩

def insertEntries (key : γ) (value : δ) : List (γ × δ) → List (γ × δ)
  | [] => [(key, value)]
  | entry :: rest =>
    if entry.1 = key then (key, value) :: rest else entry :: insertEntries key value rest

theorem mem_insertEntries_keys {key : γ} {value : δ} {entries : List (γ × δ)} {k : γ} :
    k ∈ (insertEntries key value entries).map Prod.fst ↔ k = key ∨ k ∈ entries.map Prod.fst := by
  induction entries with
  | nil => simp [insertEntries]
  | cons entry rest ih =>
    unfold insertEntries
    by_cases h : entry.1 = key
    · rw [if_pos h, List.map_cons, List.map_cons, List.mem_cons, List.mem_cons, h]
      tauto
    · rw [if_neg h, List.map_cons, List.map_cons, List.mem_cons, List.mem_cons, ih]
      tauto

theorem nodup_insertEntries {key : γ} {value : δ} {entries : List (γ × δ)}
    (h : (entries.map Prod.fst).Nodup) : ((insertEntries key value entries).map Prod.fst).Nodup := by
  induction entries with
  | nil => simp [insertEntries]
  | cons entry rest ih =>
    obtain ⟨hnot, hrest⟩ := List.nodup_cons.mp h
    unfold insertEntries
    by_cases heq : entry.1 = key
    · rw [if_pos heq]
      exact List.nodup_cons.mpr ⟨heq ▸ hnot, hrest⟩
    · rw [if_neg heq]
      refine List.nodup_cons.mpr ⟨fun hmem => ?_, ih hrest⟩
      rcases mem_insertEntries_keys.mp hmem with hkey | hmem
      · exact heq hkey
      · exact hnot hmem

def insert (m : StorageMap γ δ) (key : γ) (value : δ) : StorageMap γ δ :=
  ⟨insertEntries key value m.entries, nodup_insertEntries m.nodup⟩

/-- A new map of what `f` makes of each entry in turn. -/
def convert (f : α × β → Except ε (γ × δ)) (m : StorageMap α β) : Except ε (StorageMap γ δ) :=
  m.entries.foldlM (fun converted entry => (f entry).map fun e => converted.insert e.1 e.2) empty

theorem insertEntries_new {key : γ} {value : δ} {entries : List (γ × δ)}
    (h : key ∉ entries.map Prod.fst) : insertEntries key value entries = entries ++ [(key, value)] := by
  induction entries with
  | nil => rfl
  | cons entry rest ih =>
    obtain ⟨hne, hrest⟩ := not_or.mp (fun hmem => h (List.mem_cons.mpr hmem))
    rw [insertEntries, if_neg (Ne.symm hne), ih hrest]
    rfl

variable {f : α × β → Except ε (γ × δ)} {g : α → γ}

/-- The entries come over one by one, as their keys stay apart. -/
theorem foldlM_insert (hg : Function.Injective g) (hf : ∀ e r, f e = .ok r → r.1 = g e.1)
    (entries : List (α × β)) (hnodup : (entries.map Prod.fst).Nodup) (start : StorageMap γ δ)
    (hstart : ∀ e ∈ entries, g e.1 ∉ start.entries.map Prod.fst) (result : StorageMap γ δ) :
    entries.foldlM (fun converted entry => (f entry).map fun e => converted.insert e.1 e.2) start =
        .ok result ↔
      ∃ tail, result.entries = start.entries ++ tail ∧
        List.Forall₂ (fun e r => f e = .ok r) entries tail := by
  induction entries generalizing start with
  | nil =>
    constructor
    · intro h
      obtain rfl := Except.ok.inj h
      exact ⟨[], (List.append_nil _).symm, .nil⟩
    · rintro ⟨tail, hresult, htail⟩
      cases htail
      obtain ⟨entries, hentries⟩ := result
      obtain rfl : entries = start.entries := by simpa using hresult
      rfl
  | cons e rest ih =>
    obtain ⟨hnot, hrest⟩ := List.nodup_cons.mp hnodup
    rw [List.foldlM_cons]
    cases he : f e with
    | error err =>
      constructor
      · intro h
        cases h
      · rintro ⟨tail, -, htail⟩
        cases htail with
        | cons hr _ =>
          rw [he] at hr
          cases hr
    | ok r =>
      have hkey := hf e r he
      have hnew : (start.insert r.1 r.2).entries = start.entries ++ [r] :=
        insertEntries_new (hkey ▸ hstart e List.mem_cons_self)
      have hlater : ∀ e' ∈ rest, g e'.1 ∉ (start.insert r.1 r.2).entries.map Prod.fst := by
        intro e' he' hmem
        rw [hnew, List.map_append, List.mem_append] at hmem
        rcases hmem with hmem | hmem
        · exact hstart e' (List.mem_cons_of_mem _ he') hmem
        · have hsame : e'.1 = e.1 := hg ((List.mem_singleton.mp hmem).trans hkey)
          exact hnot (hsame ▸ List.mem_map_of_mem he')
      refine (ih hrest (start.insert r.1 r.2) hlater).trans ⟨?_, ?_⟩
      · rintro ⟨tail, hresult, htail⟩
        refine ⟨r :: tail, ?_, .cons he htail⟩
        rw [hresult, hnew, List.append_assoc]
        rfl
      · rintro ⟨tail, hresult, htail⟩
        cases htail with
        | cons hr htail =>
          obtain rfl := Except.ok.inj (he.symm.trans hr)
          refine ⟨_, ?_, htail⟩
          rw [hresult, hnew, List.append_assoc]
          rfl

theorem convert_ok_iff (hg : Function.Injective g) (hf : ∀ e r, f e = .ok r → r.1 = g e.1)
    (m : StorageMap α β) (result : StorageMap γ δ) :
    convert f m = .ok result ↔
      List.Forall₂ (fun e r => f e = .ok r) m.entries result.entries := by
  refine (foldlM_insert hg hf m.entries m.nodup empty (fun _ _ => by simp [empty]) result).trans ?_
  constructor
  · rintro ⟨tail, hresult, htail⟩
    rw [hresult]
    exact htail
  · intro h
    exact ⟨result.entries, rfl, h⟩

end StorageMap

section Model

/-- A value that both ledgers hold in a type of their own and encode alike. -/
structure SharedEncoding (D8 D9 : Type) where
  bytes8 : D8 → Bytes
  bytes9 : D9 → Bytes
  read8 : Bytes → Except String D8
  read9 : Bytes → Except String D9
  read8_bytes8 : ∀ d, read8 (bytes8 d) = .ok d
  across9 : ∀ d, ∃ d', read9 (bytes8 d) = .ok d' ∧ bytes9 d' = bytes8 d
  across8 : ∀ d', ∃ d, read8 (bytes9 d') = .ok d ∧ bytes8 d = bytes9 d'

inductive TokenTypeV8 where
  | shielded (t : Bytes)
  | unshielded (t : Bytes)
  | dust
deriving DecidableEq, Repr

inductive TokenType where
  | shielded (t : Bytes)
  | unshielded (t : Bytes)
  | dust
deriving DecidableEq, Repr

def tokenType : TokenTypeV8 → TokenType
  | .shielded t => .shielded t
  | .unshielded t => .unshielded t
  | .dust => .dust

variable {K : Type} (G : Generation K)

/-- A verifier key of a version, as its tagged encoding. -/
def VerifierKey (version : VerifierKeyVersion) : Type :=
  { key : Bytes // G.verifierKeyVersion key = .ok version }

structure ContractOperationV8 where
  v2 : Option (VerifierKey G .V6)

structure ContractOperation where
  v2 : Option (VerifierKey G .V6)
  v3 : Option (VerifierKey G .V7)

structure ContractMaintenanceAuthorityV8 (K : Type) where
  committee : List K
  threshold : ℕ
  counter : ℕ

/-- A contract state of ledger 8. An entry point is any bytes. -/
structure ContractStateV8 (D8 : Type) where
  data : D8
  operations : StorageMap Bytes (ContractOperationV8 G)
  maintenanceAuthority : ContractMaintenanceAuthorityV8 K
  balance : StorageMap TokenTypeV8 ℕ

/-- A contract state of ledger 9, which is what the Compact side reads. -/
structure ContractState (D9 : Type) where
  data : D9
  operations : StorageMap Bytes (ContractOperation G)
  maintenanceAuthority : ContractMaintenanceAuthority K
  balance : StorageMap TokenType ℕ

/-- The constructor of ledger 8's operations. -/
structure Ledger8 where
  contractOperationNew : Option Bytes → Except String (ContractOperationV8 G)
  is_v8 : G.ledger = .V8
  holds_key : ∀ key : VerifierKey G .V6, contractOperationNew (some key.1) = .ok ⟨some key⟩
  holds_none : contractOperationNew none = .ok ⟨none⟩

/-- The encodings of whole states, by their tags. -/
structure StateCodec (D8 D9 : Type) where
  peekTag : Bytes → Except String String
  tag8 : String
  tag9 : String
  tags_differ : tag8 ≠ tag9
  read8 : Bytes → Except String (ContractStateV8 G D8)
  read9 : Bytes → Except String (ContractState G D9)
  reencode : ContractState G D9 → Except ContractError (ContractStateV8 G D8)

variable {G} {D8 D9 : Type} (data : SharedEncoding D8 D9)

def fromLedger8 (old : ContractStateV8 G D8) : Except String (ContractState G D9) := do
  let newData ← data.read9 (data.bytes8 old.data)
  let operations ← old.operations.convert fun entry =>
    .ok (entry.1, (⟨entry.2.v2, none⟩ : ContractOperation G))
  let authority := old.maintenanceAuthority
  let balance ← old.balance.convert fun entry => .ok (tokenType entry.1, entry.2)
  .ok ⟨newData, operations,
    ⟨authority.committee.map .schnorr, authority.threshold, authority.counter⟩, balance⟩

variable (codec : StateCodec G D8 D9)

def decodeContractState (bytes : Bytes) : Except String (ContractState G D9) :=
  match codec.peekTag bytes with
  | .error e => .error e
  | .ok tag =>
    if tag = codec.tag9 then codec.read9 bytes
    else if tag = codec.tag8 then
      match codec.read8 bytes with
      | .error e => .error e
      | .ok old => fromLedger8 data old
    else .error s!"`{tag}` is not a contract state of ledger 8 or ledger 9"

variable (crates : Ledger8 G) (fromUtf8Lossy : Bytes → String)

def operation (circuit : String) (verifierKey : Bytes) :
    Except ContractError (ContractOperationV8 G) :=
  match acceptedKey G circuit verifierKey with
  | .error e => .error e
  | .ok () =>
    (crates.contractOperationNew (some verifierKey)).mapError fun e =>
      .construction s!"verifier key {circuit}: {e}"

/-- An operation of the view. Of two keys it takes the first one. -/
def nativeOperation (circuit : String) (op : ContractOperation G) :
    Except ContractError (ContractOperationV8 G) :=
  match op.v2, op.v3 with
  | some key, _ => operation crates circuit key.1
  | none, some key => operation crates circuit key.1
  | none, none =>
    (crates.contractOperationNew none).mapError fun e =>
      .construction s!"operation {circuit}: {e}"

def nativeCommittee (G : Generation K) :
    List (ContractMaintenanceVerifyingKey K) → Except ContractError (List K)
  | [] => .ok []
  | .schnorr key :: members => do
    let rest ← nativeCommittee G members
    .ok (key :: rest)
  | .other :: _ =>
    .error (.construction s!"{G.ledger.display} takes Schnorr maintenance committee keys only")

/-- The view of a state, in the types of ledger 8. The state's constructor gives it no
balance. -/
def fromView (view : ContractState G D9) : Except ContractError (ContractStateV8 G D8) :=
  if codec.tag9 = codec.tag8 then codec.reencode view
  else do
    let native ← (data.read8 (data.bytes9 view.data)).mapError fun e =>
      .serialization s!"deserialize contract data: {e}"
    let operations ← view.operations.convert fun entry =>
      (nativeOperation crates (fromUtf8Lossy entry.1) entry.2).map fun op => (entry.1, op)
    let committee ← nativeCommittee G view.maintenanceAuthority.committee
    let authority := view.maintenanceAuthority
    .ok ⟨native, operations, ⟨committee, authority.threshold, authority.counter⟩, .empty⟩

end Model

section Batches

variable {K : Type} {G : Generation K} {D8 D9 : Type}
variable (data : SharedEncoding D8 D9) (codec : StateCodec G D8 D9) (crates : Ledger8 G)
variable (fromUtf8Lossy : Bytes → String)

def ContractOperationV8.forBatches (op : ContractOperationV8 G) :
    MaintenanceBatches.ContractOperation :=
  ⟨op.v2.map Subtype.val, none⟩

def ContractOperation.forBatches (op : ContractOperation G) :
    MaintenanceBatches.ContractOperation :=
  ⟨op.v2.map Subtype.val, op.v3.map Subtype.val⟩

/-- The entries of a state as a maintenance batch reads them, by the circuits' names. -/
def namedOperations {α : Type} (forBatches : α → MaintenanceBatches.ContractOperation)
    (entries : List (Bytes × α)) : MaintenanceBatches.Operations :=
  entries.map fun e => (fromUtf8Lossy e.1, forBatches e.2)

def ContractStateV8.forBatches (native : ContractStateV8 G D8) :
    MaintenanceBatches.ContractState K :=
  ⟨data.bytes8 native.data, namedOperations fromUtf8Lossy
      ContractOperationV8.forBatches native.operations.entries,
    ⟨native.maintenanceAuthority.committee.map .schnorr, native.maintenanceAuthority.threshold,
      native.maintenanceAuthority.counter⟩⟩

def ContractState.forBatches (view : ContractState G D9) : MaintenanceBatches.ContractState K :=
  ⟨data.bytes9 view.data, namedOperations fromUtf8Lossy
      ContractOperation.forBatches view.operations.entries, view.maintenanceAuthority⟩

/-- The crates of a generation, as batches use them, are those of ledger 8. -/
structure SameCrates : Prop where
  tag : G.tag = codec.tag8
  viewTag : G.viewTag = codec.tag9
  reencodeData : ∀ bytes, G.reencodeData bytes = ((data.read8 bytes).mapError
    fun e => ContractError.serialization s!"deserialize contract data: {e}").map data.bytes8
  contractOperationNew : ∀ key, G.contractOperationNew key =
    (crates.contractOperationNew key).map ContractOperationV8.forBatches

variable {data codec crates}

theorem operation_forBatches (h : SameCrates data codec crates) (circuit : String) (key : Bytes) :
    MaintenanceBatches.operation G circuit key =
      (operation crates circuit key).map ContractOperationV8.forBatches := by
  unfold MaintenanceBatches.operation operation
  rw [h.contractOperationNew]
  cases acceptedKey G circuit key with
  | error e => rfl
  | ok u => cases crates.contractOperationNew (some key) <;> rfl

theorem nativeOperation_forBatches (h : SameCrates data codec crates) (circuit : String)
    (op : ContractOperation G) : MaintenanceBatches.nativeOperation G circuit op.forBatches =
      (nativeOperation crates circuit op).map ContractOperationV8.forBatches := by
  obtain ⟨v2, v3⟩ := op
  cases v2 with
  | some key => exact operation_forBatches h circuit key.1
  | none =>
    cases v3 with
    | some key => exact operation_forBatches h circuit key.1
    | none =>
      simp only [ContractOperation.forBatches, MaintenanceBatches.nativeOperation,
        nativeOperation, h.contractOperationNew]
      cases crates.contractOperationNew none <;> rfl

theorem nativeCommittee_forBatches (members : List (ContractMaintenanceVerifyingKey K)) :
    MaintenanceBatches.nativeCommittee G members =
      (nativeCommittee G members).map (List.map .schnorr) := by
  induction members with
  | nil => rfl
  | cons member members ih =>
    cases member with
    | other => rfl
    | schnorr key =>
      rw [MaintenanceBatches.nativeCommittee, nativeCommittee, ih]
      cases nativeCommittee G members <;> rfl

/-- The operations come over one by one, and the first one that is refused stops both. -/
theorem nativeOperations_forBatches (h : SameCrates data codec crates)
    (entries : List (Bytes × ContractOperation G)) (hnodup : (entries.map Prod.fst).Nodup)
    (start : StorageMap Bytes (ContractOperationV8 G))
    (hstart : ∀ e ∈ entries, e.1 ∉ start.entries.map Prod.fst) :
    (entries.foldlM (fun converted entry =>
        ((nativeOperation crates (fromUtf8Lossy entry.1) entry.2).map fun op => (entry.1, op)).map
          fun e => converted.insert e.1 e.2) start).map (fun m =>
        namedOperations fromUtf8Lossy ContractOperationV8.forBatches m.entries) =
      (MaintenanceBatches.nativeOperations G
        (namedOperations fromUtf8Lossy ContractOperation.forBatches entries)).map
        (namedOperations fromUtf8Lossy ContractOperationV8.forBatches start.entries ++ ·) := by
  induction entries generalizing start with
  | nil => exact congrArg Except.ok (List.append_nil _).symm
  | cons e rest ih =>
    obtain ⟨hnot, hrest⟩ := List.nodup_cons.mp hnodup
    rw [List.foldlM_cons]
    show _ = Except.map _ (MaintenanceBatches.nativeOperations G ((fromUtf8Lossy e.1,
      e.2.forBatches) :: namedOperations fromUtf8Lossy ContractOperation.forBatches rest))
    rw [MaintenanceBatches.nativeOperations, nativeOperation_forBatches h]
    cases nativeOperation crates (fromUtf8Lossy e.1) e.2 with
    | error err => rfl
    | ok op =>
      have hnew : (start.insert e.1 op).entries = start.entries ++ [(e.1, op)] :=
        StorageMap.insertEntries_new (hstart e List.mem_cons_self)
      have hlater := ih hrest (start.insert e.1 op) fun e' he' hmem => by
        rw [hnew, List.map_append, List.mem_append] at hmem
        rcases hmem with hmem | hmem
        · exact hstart e' (List.mem_cons_of_mem _ he') hmem
        · exact hnot (List.mem_singleton.mp hmem ▸ List.mem_map_of_mem he')
      refine hlater.trans ?_
      rw [hnew]
      show Except.map _ (MaintenanceBatches.nativeOperations G _) =
        Except.map _ (Except.map _ (MaintenanceBatches.nativeOperations G _))
      cases MaintenanceBatches.nativeOperations G
        (namedOperations fromUtf8Lossy ContractOperation.forBatches rest) with
      | error err => rfl
      | ok native => simp [namedOperations, Except.map]

theorem convert_forBatches (h : SameCrates data codec crates)
    (m : StorageMap Bytes (ContractOperation G)) :
    MaintenanceBatches.nativeOperations G
        (namedOperations fromUtf8Lossy ContractOperation.forBatches m.entries) =
      (m.convert fun entry =>
        (nativeOperation crates (fromUtf8Lossy entry.1) entry.2).map fun op => (entry.1, op)).map
        (fun native =>
          namedOperations fromUtf8Lossy ContractOperationV8.forBatches native.entries) := by
  refine Eq.trans ?_ (nativeOperations_forBatches fromUtf8Lossy h m.entries m.nodup .empty
    fun e _ => by simp [StorageMap.empty]).symm
  cases MaintenanceBatches.nativeOperations G
    (namedOperations fromUtf8Lossy ContractOperation.forBatches m.entries) <;> rfl

/-- A batch on ledger 8 is built against what the view converts to, less its balance. -/
theorem fromView_forBatches (h : SameCrates data codec crates) (view : ContractState G D9) :
    MaintenanceBatches.fromView G (view.forBatches data fromUtf8Lossy) =
      (fromView data codec crates fromUtf8Lossy view).map
        (ContractStateV8.forBatches data fromUtf8Lossy) := by
  unfold MaintenanceBatches.fromView fromView
  rw [if_neg (by rw [h.tag, h.viewTag]; exact codec.tags_differ.symm),
    if_neg codec.tags_differ.symm]
  simp only [ContractState.forBatches, h.reencodeData, nativeCommittee_forBatches,
    convert_forBatches fromUtf8Lossy h]
  generalize view.operations.convert (fun entry =>
    (nativeOperation crates (fromUtf8Lossy entry.1) entry.2).map fun op => (entry.1, op)) =
      operations
  generalize nativeCommittee G view.maintenanceAuthority.committee = committee
  cases data.read8 (data.bytes9 view.data) <;> cases operations <;> cases committee <;> rfl

end Batches

section Parts

variable {K : Type} {G : Generation K} {D8 D9 : Type}
variable (data : SharedEncoding D8 D9) (codec : StateCodec G D8 D9) (crates : Ledger8 G)
variable (fromUtf8Lossy : Bytes → String)

theorem tokenType_injective : Function.Injective tokenType := by
  intro a b h
  cases a <;> cases b <;> simp_all [tokenType]

/-- Ledger 8 takes an operation exactly when it holds an older key, or none at all. -/
theorem nativeOperation_ok_iff (circuit : String) (op : ContractOperation G)
    (native : ContractOperationV8 G) :
    nativeOperation crates circuit op = .ok native ↔
      native.v2 = op.v2 ∧ (op.v2 = none → op.v3 = none) := by
  obtain ⟨v2, v3⟩ := op
  obtain ⟨key⟩ := native
  cases v2 with
  | some old =>
    have haccepted : acceptedKey G circuit old.1 = .ok () := by
      unfold acceptedKey
      rw [old.2]
      simp
    simp only [nativeOperation, operation, haccepted, crates.holds_key]
    simp [Except.mapError, eq_comm]
  | none =>
    cases v3 with
    | some new =>
      have hrefused : ∃ e, acceptedKey G circuit new.1 = .error e := by
        unfold acceptedKey
        rw [new.2]
        simp [crates.is_v8]
      obtain ⟨e, he⟩ := hrefused
      simp [nativeOperation, operation, he]
    | none =>
      simp only [nativeOperation, crates.holds_none]
      simp [Except.mapError, eq_comm]

theorem nativeCommittee_ok_iff (members : List (ContractMaintenanceVerifyingKey K))
    (committee : List K) :
    nativeCommittee G members = .ok committee ↔ members = committee.map .schnorr := by
  induction members generalizing committee with
  | nil =>
    cases committee with
    | nil => exact ⟨fun _ => rfl, fun _ => rfl⟩
    | cons key rest => simp [nativeCommittee]
  | cons member members ih =>
    cases member with
    | other =>
      cases committee <;> simp [nativeCommittee]
    | schnorr key =>
      change (nativeCommittee G members).bind (fun rest => .ok (key :: rest)) = _ ↔ _
      rw [bind_ok_iff]
      constructor
      · rintro ⟨rest, hrest, hall⟩
        obtain rfl := Except.ok.inj hall
        rw [(ih rest).mp hrest]
        rfl
      · intro h
        cases committee with
        | nil => cases h
        | cons key' rest =>
          obtain ⟨hkey, hrest⟩ := List.cons.inj h
          obtain rfl := ContractMaintenanceVerifyingKey.schnorr.inj hkey
          exact ⟨rest, (ih rest).mpr hrest, rfl⟩

/-- The view of a ledger 8 state has each of its parts. -/
structure Views (old : ContractStateV8 G D8) (view : ContractState G D9) : Prop where
  data : data.bytes9 view.data = data.bytes8 old.data
  operations : view.operations.entries = old.operations.entries.map fun e => (e.1, ⟨e.2.v2, none⟩)
  committee : view.maintenanceAuthority.committee = old.maintenanceAuthority.committee.map .schnorr
  threshold : view.maintenanceAuthority.threshold = old.maintenanceAuthority.threshold
  counter : view.maintenanceAuthority.counter = old.maintenanceAuthority.counter
  balance : view.balance.entries = old.balance.entries.map fun e => (tokenType e.1, e.2)

theorem forall₂_map_ok {α β ε : Type} (f : α → β) (entries : List α) (converted : List β) :
    List.Forall₂ (fun e r => (Except.ok (f e) : Except ε β) = .ok r) entries converted ↔
      converted = entries.map f := by
  induction entries generalizing converted with
  | nil => simp
  | cons e rest ih =>
    cases converted with
    | nil => simp
    | cons r converted =>
      rw [List.forall₂_cons, ih, List.map_cons, List.cons_eq_cons]
      exact and_congr ⟨fun h => (Except.ok.inj h).symm, fun h => congrArg _ h.symm⟩ Iff.rfl

theorem exists_convert {α β γ δ ε : Type} [DecidableEq γ] {g : α → γ} (hg : Function.Injective g)
    (h : α × β → δ) (m : StorageMap α β) :
    ∃ result : StorageMap γ δ, m.convert (fun e => .ok (g e.1, h e)) =
        (.ok result : Except ε (StorageMap γ δ)) ∧
      result.entries = m.entries.map fun e => (g e.1, h e) := by
  have hnodup : ((m.entries.map fun e => (g e.1, h e)).map Prod.fst).Nodup := by
    rw [List.map_map, show Prod.fst ∘ (fun e : α × β => (g e.1, h e)) = g ∘ Prod.fst from rfl,
      ← List.map_map]
    exact m.nodup.map hg
  refine ⟨⟨_, hnodup⟩, ?_, rfl⟩
  refine (StorageMap.convert_ok_iff hg (fun e r hr => ?_) m _).mpr ?_
  · rw [← Except.ok.inj hr]
  · exact (forall₂_map_ok _ _ _).mpr rfl

theorem fromLedger8_views (old : ContractStateV8 G D8) :
    ∃ view, fromLedger8 data old = .ok view ∧ Views data old view := by
  obtain ⟨newData, hread, hbytes⟩ := data.across9 old.data
  obtain ⟨operations, hoperations, hentries⟩ := exists_convert Function.injective_id
    (fun e => (⟨e.2.v2, none⟩ : ContractOperation G)) old.operations
  obtain ⟨balance, hbalance, htokens⟩ := exists_convert tokenType_injective (fun e => e.2) old.balance
  have hview : fromLedger8 data old = .ok ⟨newData, operations,
      ⟨old.maintenanceAuthority.committee.map .schnorr, old.maintenanceAuthority.threshold,
        old.maintenanceAuthority.counter⟩, balance⟩ := by
    unfold fromLedger8
    rw [hread]
    change (old.operations.convert _ >>= _) = _
    simp only [id] at hoperations
    rw [hoperations]
    change (old.balance.convert _ >>= _) = _
    rw [hbalance]
    rfl
  exact ⟨_, hview, hbytes, hentries, rfl, rfl, rfl, htokens⟩

/-- What ledger 8 makes of a view that it does not refuse. -/
theorem fromView_ok_iff (view : ContractState G D9) (native : ContractStateV8 G D8) :
    fromView data codec crates fromUtf8Lossy view = .ok native ↔
      data.read8 (data.bytes9 view.data) = .ok native.data ∧
      List.Forall₂ (fun e r => r.1 = e.1 ∧ r.2.v2 = e.2.v2 ∧ (e.2.v2 = none → e.2.v3 = none))
        view.operations.entries native.operations.entries ∧
      view.maintenanceAuthority.committee = native.maintenanceAuthority.committee.map .schnorr ∧
      native.maintenanceAuthority.threshold = view.maintenanceAuthority.threshold ∧
      native.maintenanceAuthority.counter = view.maintenanceAuthority.counter ∧
      native.balance.entries = [] := by
  have hentry : ∀ (e : Bytes × ContractOperation G) (r : Bytes × ContractOperationV8 G),
      (nativeOperation crates (fromUtf8Lossy e.1) e.2).map (fun op => (e.1, op)) = .ok r ↔
        r.1 = e.1 ∧ r.2.v2 = e.2.v2 ∧ (e.2.v2 = none → e.2.v3 = none) := by
    intro e r
    rw [map_ok_iff]
    constructor
    · rintro ⟨op, hop, rfl⟩
      exact ⟨rfl, (nativeOperation_ok_iff crates _ _ _).mp hop⟩
    · rintro ⟨hkey, hop⟩
      exact ⟨r.2, (nativeOperation_ok_iff crates _ _ _).mpr hop, Prod.ext hkey.symm rfl⟩
  have hoperations : ∀ result : StorageMap Bytes (ContractOperationV8 G),
      view.operations.convert (fun entry =>
        (nativeOperation crates (fromUtf8Lossy entry.1) entry.2).map fun op => (entry.1, op)) =
        .ok result ↔
      List.Forall₂ (fun e r => r.1 = e.1 ∧ r.2.v2 = e.2.v2 ∧ (e.2.v2 = none → e.2.v3 = none))
        view.operations.entries result.entries := by
    intro result
    refine (StorageMap.convert_ok_iff Function.injective_id (fun e r hr => ((hentry e r).mp hr).1)
      _ result).trans ⟨fun h => h.imp fun e r => (hentry e r).mp, fun h => ?_⟩
    exact h.imp fun e r => (hentry e r).mpr
  unfold fromView
  rw [if_neg (Ne.symm codec.tags_differ)]
  constructor
  · intro h
    obtain ⟨native', hread, h⟩ := exists_of_bind h
    obtain ⟨operations, hops, h⟩ := exists_of_bind h
    obtain ⟨committee, hcommittee, h⟩ := exists_of_bind h
    obtain rfl := Except.ok.inj h
    exact ⟨mapError_ok hread, (hoperations _).mp hops, (nativeCommittee_ok_iff _ _).mp hcommittee,
      rfl, rfl, rfl⟩
  · rintro ⟨hread, hops, hcommittee, hthreshold, hcounter, hbalance⟩
    obtain ⟨native', operations, ⟨committee, threshold, counter⟩, ⟨balance, hnodup⟩⟩ := native
    simp only at hread hops hcommittee hthreshold hcounter hbalance
    subst hthreshold hcounter hbalance
    rw [hread, (hoperations _).mpr hops]
    change (nativeCommittee G view.maintenanceAuthority.committee >>= _) = _
    rw [(nativeCommittee_ok_iff _ _).mpr hcommittee]
    rfl

theorem committee_schnorr (members : List (ContractMaintenanceVerifyingKey K)) :
    (∃ committee : List K, members = committee.map .schnorr) ↔ .other ∉ members := by
  constructor
  · rintro ⟨committee, rfl⟩ hmem
    obtain ⟨key, -, hkey⟩ := List.mem_map.mp hmem
    cases hkey
  · intro h
    induction members with
    | nil => exact ⟨[], rfl⟩
    | cons member members ih =>
      obtain ⟨committee, rfl⟩ := ih fun hmem => h (List.mem_cons_of_mem _ hmem)
      cases member with
      | schnorr key => exact ⟨key :: committee, rfl⟩
      | other => exact absurd List.mem_cons_self h

/-- Some operation holds a newer key only, or a committee member is no Schnorr key. -/
def Refused (view : ContractState G D9) : Prop :=
  (∃ e ∈ view.operations.entries, e.2.v2 = none ∧ e.2.v3 ≠ none) ∨
    .other ∈ view.maintenanceAuthority.committee

/-- Ledger 8 converts the views that have no part which it refuses. -/
theorem exists_fromView_iff (view : ContractState G D9) :
    (∃ native, fromView data codec crates fromUtf8Lossy view = .ok native) ↔ ¬ Refused view := by
  constructor
  · rintro ⟨native, h⟩ hrefused
    obtain ⟨-, hops, hcommittee, -⟩ := (fromView_ok_iff data codec crates fromUtf8Lossy _ _).mp h
    rcases hrefused with ⟨e, he, hnone, hsome⟩ | hother
    · obtain ⟨i, hi, rfl⟩ := List.getElem_of_mem he
      have hi' : i < native.operations.entries.length := hops.length_eq ▸ hi
      exact hsome ((hops.get hi hi').2.2 hnone)
    · exact (committee_schnorr _).mp ⟨_, hcommittee⟩ hother
  · intro h
    obtain ⟨hops, hother⟩ := not_or.mp h
    obtain ⟨native, hread, -⟩ := data.across8 view.data
    obtain ⟨committee, hcommittee⟩ := (committee_schnorr _).mpr hother
    have hkeys : ((view.operations.entries.map fun e =>
        (e.1, (⟨e.2.v2⟩ : ContractOperationV8 G))).map Prod.fst).Nodup := by
      rw [List.map_map]
      exact view.operations.nodup
    refine ⟨⟨native, ⟨_, hkeys⟩, ⟨committee, view.maintenanceAuthority.threshold,
      view.maintenanceAuthority.counter⟩, .empty⟩,
      (fromView_ok_iff data codec crates fromUtf8Lossy _ _).mpr
        ⟨hread, ?_, hcommittee, rfl, rfl, rfl⟩⟩
    refine List.forall₂_map_right_iff.mpr (List.forall₂_same.mpr fun e he => ⟨rfl, rfl, ?_⟩)
    intro hnone
    by_contra hsome
    exact hops ⟨e, he, hnone, hsome⟩

/-- The state holds every part of the view: its data, every verifier key of every operation,
the committee with its threshold and counter, and the balance. -/
structure Keeps (view : ContractState G D9) (native : ContractStateV8 G D8) : Prop where
  data : data.bytes8 native.data = data.bytes9 view.data
  operations : view.operations.entries =
    native.operations.entries.map fun e => (e.1, ⟨e.2.v2, none⟩)
  committee : view.maintenanceAuthority.committee = native.maintenanceAuthority.committee.map .schnorr
  threshold : native.maintenanceAuthority.threshold = view.maintenanceAuthority.threshold
  counter : native.maintenanceAuthority.counter = view.maintenanceAuthority.counter
  balance : view.balance.entries = native.balance.entries.map fun e => (tokenType e.1, e.2)

theorem operations_kept {entries : List (Bytes × ContractOperation G)}
    {natives : List (Bytes × ContractOperationV8 G)}
    (h : List.Forall₂ (fun e r => r.1 = e.1 ∧ r.2.v2 = e.2.v2 ∧ (e.2.v2 = none → e.2.v3 = none))
      entries natives) :
    entries = natives.map (fun e => (e.1, ⟨e.2.v2, none⟩)) ↔
      ∀ e ∈ entries, e.2.v2 = none ∨ e.2.v3 = none := by
  induction h with
  | nil => simp
  | @cons e r entries natives hhead _ ih =>
    obtain ⟨hkey, hv2, hv3⟩ := hhead
    obtain ⟨key, v2, v3⟩ := e
    obtain ⟨key', ⟨v2'⟩⟩ := r
    simp only at hkey hv2 hv3
    subst hkey hv2
    rw [List.map_cons, List.cons_eq_cons, ih, List.forall_mem_cons]
    refine and_congr ⟨fun heq => Or.inr ?_, fun hone => ?_⟩ Iff.rfl
    · exact congrArg (fun e : Bytes × ContractOperation G => e.2.v3) heq
    · have hnone : v3 = none := hone.elim hv3 id
      rw [hnone]

/-- A converted view is kept whole when it has no balance and no operation with two keys. -/
theorem keeps_iff {view : ContractState G D9} {native : ContractStateV8 G D8}
    (h : fromView data codec crates fromUtf8Lossy view = .ok native) :
    Keeps data view native ↔ view.balance.entries = [] ∧
      ∀ e ∈ view.operations.entries, e.2.v2 = none ∨ e.2.v3 = none := by
  obtain ⟨hread, hops, hcommittee, hthreshold, hcounter, hbalance⟩ :=
    (fromView_ok_iff data codec crates fromUtf8Lossy _ _).mp h
  constructor
  · intro hkeeps
    refine ⟨?_, (operations_kept hops).mp hkeeps.operations⟩
    rw [hkeeps.balance, hbalance]
    rfl
  · rintro ⟨hempty, hone⟩
    obtain ⟨d, hd, hbytes⟩ := data.across8 view.data
    obtain rfl := Except.ok.inj (hd.symm.trans hread)
    refine ⟨hbytes, (operations_kept hops).mpr hone, hcommittee, hthreshold, hcounter, ?_⟩
    rw [hempty, hbalance]
    rfl

/-- Ledger 8 keeps the view whole, or refuses it. -/
def KeepsOrRefuses (view : ContractState G D9) : Prop :=
  ∀ native, fromView data codec crates fromUtf8Lossy view = .ok native → Keeps data view native

theorem keepsOrRefuses_iff (view : ContractState G D9) :
    KeepsOrRefuses data codec crates fromUtf8Lossy view ↔
      Refused view ∨ (view.balance.entries = [] ∧
        ∀ e ∈ view.operations.entries, e.2.v2 = none ∨ e.2.v3 = none) := by
  constructor
  · intro h
    by_cases hrefused : Refused view
    · exact Or.inl hrefused
    · obtain ⟨native, hnative⟩ := (exists_fromView_iff data codec crates fromUtf8Lossy view).mpr hrefused
      exact Or.inr ((keeps_iff data codec crates fromUtf8Lossy hnative).mp (h native hnative))
  · rintro (hrefused | hwhole) native hnative
    · exact absurd hrefused
        ((exists_fromView_iff data codec crates fromUtf8Lossy view).mp ⟨native, hnative⟩)
    · exact (keeps_iff data codec crates fromUtf8Lossy hnative).mpr hwhole

/-- The view of a state converts back to that state. -/
def RoundTrips (bytes : Bytes) (old : ContractStateV8 G D8) : Prop :=
  ∃ view, decodeContractState data codec bytes = .ok view ∧
    fromView data codec crates fromUtf8Lossy view = .ok old

theorem decodeContractState_ledger8 {bytes : Bytes} {old : ContractStateV8 G D8}
    (htag : codec.peekTag bytes = .ok codec.tag8) (hread : codec.read8 bytes = .ok old) :
    decodeContractState data codec bytes = fromLedger8 data old := by
  unfold decodeContractState
  rw [htag]
  simp only
  rw [if_neg codec.tags_differ, if_pos trivial, hread]

theorem roundTrips_iff {bytes : Bytes} {old : ContractStateV8 G D8}
    (htag : codec.peekTag bytes = .ok codec.tag8) (hread : codec.read8 bytes = .ok old) :
    RoundTrips data codec crates fromUtf8Lossy bytes old ↔ old.balance.entries = [] := by
  obtain ⟨view, hview, hparts⟩ := fromLedger8_views data old
  unfold RoundTrips
  rw [decodeContractState_ledger8 data codec htag hread, hview]
  have hback : fromView data codec crates fromUtf8Lossy view = .ok old ↔
      old.balance.entries = [] := by
    rw [fromView_ok_iff, hparts.data, hparts.operations, List.forall₂_map_left_iff,
      List.forall₂_same]
    constructor
    · exact fun h => h.2.2.2.2.2
    · intro hbalance
      exact ⟨data.read8_bytes8 _, fun e _ => ⟨rfl, rfl, fun _ => rfl⟩, hparts.committee,
        hparts.threshold.symm, hparts.counter.symm, hbalance⟩
  constructor
  · rintro ⟨view', hview', h⟩
    obtain rfl := Except.ok.inj hview'
    exact hback.mp h
  · intro h
    exact ⟨view, rfl, hback.mpr h⟩

/-- A ledger 8 state comes back whole exactly when it has no balance, and any view is kept
or refused exactly when it is refused, or has no balance and no operation with two keys. -/
theorem conversion_keeps_iff {bytes : Bytes} {old : ContractStateV8 G D8}
    (htag : codec.peekTag bytes = .ok codec.tag8) (hread : codec.read8 bytes = .ok old)
    (view : ContractState G D9) :
    (RoundTrips data codec crates fromUtf8Lossy bytes old ↔ old.balance.entries = []) ∧
      (KeepsOrRefuses data codec crates fromUtf8Lossy view ↔
        Refused view ∨ (view.balance.entries = [] ∧
          ∀ e ∈ view.operations.entries, e.2.v2 = none ∨ e.2.v3 = none)) :=
  ⟨roundTrips_iff data codec crates fromUtf8Lossy htag hread,
    keepsOrRefuses_iff data codec crates fromUtf8Lossy view⟩

end Parts

section Samples

/-- A ledger 8 generation that reads a key's version off its first byte. -/
def sampleGeneration : Generation Unit where
  ledger := .V8
  tag := "state[v8]"
  viewTag := "state[v9]"
  peekTag _ := .ok "state[v8]"
  decodeState _ := .error "unused"
  reencodeState view := .ok view
  reencodeData data := .ok data
  verifierKeyVersion key := .ok (if key.head? = some 7 then .V7 else .V6)
  contractOperationNew key :=
    if key.any (fun key => key.head? = some 7) then .error "not a key" else .ok ⟨key, none⟩
  contractOperationVersionOf _ := .v2
  versionedVerifierKey key := .ok (.v2, key)

def oldKey : VerifierKey sampleGeneration .V6 := ⟨[6], rfl⟩

def newKey : VerifierKey sampleGeneration .V7 := ⟨[7], rfl⟩

theorem sample_version {key : Bytes} (h : key.head? ≠ some 7) :
    sampleGeneration.verifierKeyVersion key = .ok .V6 :=
  congrArg Except.ok (if_neg h)

def sampleLedger8 : Ledger8 sampleGeneration where
  contractOperationNew
    | none => .ok ⟨none⟩
    | some key =>
      if h : key.head? = some 7 then .error "not a key" else .ok ⟨some ⟨key, sample_version h⟩⟩
  is_v8 := rfl
  holds_key key := by
    have hold : key.1.head? ≠ some 7 := by
      intro h
      have hversion := key.2
      simp [sampleGeneration, h] at hversion
    exact dif_neg hold
  holds_none := rfl

def plainData : SharedEncoding Bytes Bytes where
  bytes8 := id
  bytes9 := id
  read8 := .ok
  read9 := .ok
  read8_bytes8 _ := rfl
  across9 d := ⟨d, rfl, rfl⟩
  across8 d := ⟨d, rfl, rfl⟩

/-- A codec under which all bytes are those of one ledger 8 state. -/
def codecOf (old : ContractStateV8 sampleGeneration Bytes) :
    StateCodec sampleGeneration Bytes Bytes where
  peekTag _ := .ok "state[v8]"
  tag8 := "state[v8]"
  tag9 := "state[v9]"
  tags_differ := by decide
  read8 _ := .ok old
  read9 _ := .error "unused"
  reencode _ := .ok old

theorem sameCrates_sample (old : ContractStateV8 sampleGeneration Bytes) :
    SameCrates plainData (codecOf old) sampleLedger8 where
  tag := rfl
  viewTag := rfl
  reencodeData _ := rfl
  contractOperationNew key := by
    cases key with
    | none => rfl
    | some key =>
      by_cases h : key.head? = some 7
      · simp [sampleGeneration, sampleLedger8, h, Except.map]
      · simp [sampleGeneration, sampleLedger8, h, Except.map, ContractOperationV8.forBatches]
        rfl

/-- A state with one circuit and what it holds of Dust. -/
def counterState (balance : StorageMap TokenTypeV8 ℕ) : ContractStateV8 sampleGeneration Bytes :=
  ⟨[5], ⟨[([105], ⟨some oldKey⟩)], List.nodup_singleton _⟩, ⟨[()], 1, 3⟩, balance⟩

def dustBalance : StorageMap TokenTypeV8 ℕ := ⟨[(.dust, 5)], List.nodup_singleton _⟩

/-- A view of a circuit that has a key for each of the two proof systems. -/
def twoKeys : ContractState sampleGeneration Bytes :=
  ⟨[5], ⟨[([105], ⟨some oldKey, some newKey⟩)], List.nodup_singleton _⟩, ⟨[], 0, 0⟩, .empty⟩

theorem conversion_keeps_counter :
    RoundTrips plainData (codecOf (counterState .empty)) sampleLedger8 (fun _ => "increment") []
      (counterState .empty) :=
  (conversion_keeps_iff plainData (codecOf (counterState .empty)) sampleLedger8
    (fun _ => "increment") rfl rfl twoKeys).1.mpr rfl

/-- The balance of a state, and the second key of an operation, are dropped. -/
theorem conversion_drops :
    ¬ RoundTrips plainData (codecOf (counterState dustBalance)) sampleLedger8
        (fun _ => "increment") [] (counterState dustBalance) ∧
      ¬ KeepsOrRefuses plainData (codecOf (counterState dustBalance)) sampleLedger8
        (fun _ => "increment") twoKeys := by
  constructor
  · intro h
    have hempty := (roundTrips_iff plainData (codecOf (counterState dustBalance)) sampleLedger8
      (fun _ => "increment") rfl rfl).mp h
    cases hempty
  · intro h
    rcases (keepsOrRefuses_iff plainData (codecOf (counterState dustBalance)) sampleLedger8
      (fun _ => "increment") twoKeys).mp h with (⟨e, he, hnone, -⟩ | hother) | ⟨-, hone⟩
    · rw [List.mem_singleton.mp he] at hnone
      cases hnone
    · cases hother
    · rcases hone _ (List.mem_singleton.mpr rfl) with hnone | hnone <;> cases hnone

end Samples

end MidnightRs.StateConversions
