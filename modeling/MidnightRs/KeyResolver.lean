import MidnightRs.Hex
import MidnightRs.Loops
import Mathlib.Logic.Function.Basic

/-!
The registry that finds a circuit's proving keys by the hash of its verifier key. Each
registration puts a zk config last under its hash, where a config that its handle has
dropped no longer answers.
-/
namespace MidnightRs.KeyResolver

structure ZkArtifacts where
  proverKey : Bytes
  verifierKey : Bytes
  zkir : Bytes
deriving DecidableEq, Repr

inductive ZkConfigError where
  | notFound (circuit : String)
  | incomplete (circuit detail : String)
  | io (circuit source : String)
  | directoryNotFound (path : String)
  | invalidCircuitId (circuit : String)
  | backend (message : String)
deriving DecidableEq, Repr

section Directory

/-- The artifact files of a circuit: `keys/{circuit}.prover` and so on. -/
inductive ArtifactFile where
  | prover
  | verifier
  | zkir
deriving DecidableEq, Repr

def ArtifactFile.ext : ArtifactFile → String
  | .prover => "prover"
  | .verifier => "verifier"
  | .zkir => "bzkir"

inductive FileRead where
  | bytes (contents : Bytes)
  | missing
  | failed (source : String)

def validateCircuitId (circuit : String) : Except ZkConfigError Unit :=
  let bad := circuit = "" ∨ circuit = "." ∨ circuit = ".." ∨ '/' ∈ circuit.toList ∨
    '\\' ∈ circuit.toList ∨ Char.ofNat 0 ∈ circuit.toList
  if bad then .error (.invalidCircuitId circuit) else .ok ()

variable (directory : ArtifactFile → String → FileRead)

def readOpt (file : ArtifactFile) (circuit : String) : Except ZkConfigError (Option Bytes) := do
  validateCircuitId circuit
  match directory file circuit with
  | .bytes contents => .ok (some contents)
  | .missing => .ok none
  | .failed source => .error (.io circuit source)

/-- The artifacts of a directory: all of a circuit's files, none of them, or an error. -/
def fsArtifacts (circuit : String) : Except ZkConfigError ZkArtifacts := do
  let proverKey ← readOpt directory .prover circuit
  let verifierKey ← readOpt directory .verifier circuit
  let zkir ← readOpt directory .zkir circuit
  match proverKey, verifierKey, zkir with
  | none, none, none => .error (.notFound circuit)
  | some proverKey, some verifierKey, some zkir => .ok ⟨proverKey, verifierKey, zkir⟩
  | proverKey, verifierKey, zkir =>
    let missing := [(ArtifactFile.prover, proverKey), (.verifier, verifierKey), (.zkir, zkir)].filterMap
      (fun file => if file.2.isSome then none else some file.1.ext)
    .error (.incomplete circuit ("missing [" ++ ", ".intercalate missing ++ "]"))

theorem readOpt_ok_iff {file : ArtifactFile} {circuit : String} {contents : Bytes} :
    readOpt directory file circuit = .ok (some contents) ↔
      validateCircuitId circuit = .ok () ∧ directory file circuit = .bytes contents := by
  unfold readOpt
  cases hvalid : validateCircuitId circuit with
  | error e =>
    constructor
    · intro h
      cases h
    · rintro ⟨h, -⟩
      cases h
  | ok valid =>
    change (match directory file circuit with
      | .bytes contents => Except.ok (some contents)
      | .missing => .ok none
      | .failed source => .error (ZkConfigError.io circuit source)) = _ ↔ _
    cases directory file circuit with
    | bytes found => simp
    | missing => simp
    | failed source => simp

/-- A directory serves a circuit exactly when it holds all three files. -/
theorem fsArtifacts_ok_iff {circuit : String} {found : ZkArtifacts} :
    fsArtifacts directory circuit = .ok found ↔
      validateCircuitId circuit = .ok () ∧
      directory .prover circuit = .bytes found.proverKey ∧
      directory .verifier circuit = .bytes found.verifierKey ∧
      directory .zkir circuit = .bytes found.zkir := by
  constructor
  · intro h
    unfold fsArtifacts at h
    cases hprover : readOpt directory .prover circuit with
    | error e =>
      rw [hprover] at h
      cases h
    | ok proverKey =>
      cases hverifier : readOpt directory .verifier circuit with
      | error e =>
        rw [hprover, hverifier] at h
        cases h
      | ok verifierKey =>
        cases hzkir : readOpt directory .zkir circuit with
        | error e =>
          rw [hprover, hverifier, hzkir] at h
          cases h
        | ok zkir =>
          rw [hprover, hverifier, hzkir] at h
          change (match proverKey, verifierKey, zkir with
            | none, none, none => _
            | some proverKey, some verifierKey, some zkir => _
            | proverKey, verifierKey, zkir => _) = _ at h
          cases proverKey <;> cases verifierKey <;> cases zkir <;> cases h
          obtain ⟨hvalid, hp⟩ := (readOpt_ok_iff directory).mp hprover
          obtain ⟨-, hv⟩ := (readOpt_ok_iff directory).mp hverifier
          obtain ⟨-, hz⟩ := (readOpt_ok_iff directory).mp hzkir
          exact ⟨hvalid, hp, hv, hz⟩
  · rintro ⟨hvalid, hp, hv, hz⟩
    unfold fsArtifacts
    rw [(readOpt_ok_iff directory).mpr ⟨hvalid, hp⟩, (readOpt_ok_iff directory).mpr ⟨hvalid, hv⟩,
      (readOpt_ok_iff directory).mpr ⟨hvalid, hz⟩]
    rfl

end Directory

section Locations

def stripPrefix : List Char → List Char → Option (List Char)
  | [], text => some text
  | _ :: _, [] => none
  | p :: ps, c :: cs => if p = c then stripPrefix ps cs else none

/-- The text before and after the first occurrence of the delimiter. -/
def splitOnce (delimiter : List Char) : List Char → Option (List Char × List Char)
  | [] => (stripPrefix delimiter []).map (fun rest => ([], rest))
  | c :: cs =>
    match stripPrefix delimiter (c :: cs) with
    | some rest => some ([], rest)
    | none => (splitOnce delimiter cs).map (fun parts => (c :: parts.1, parts.2))

/-- `contract:<address>/<circuit>?vk=<hash>` -/
def location (addressHex circuit : String) (hash : Bytes) : String :=
  s!"contract:{addressHex}/{circuit}?vk={Hex.encode hash}"

/-- The circuit and the verifier-key hash of a location. -/
def parse (location : String) : Option (String × Bytes) := do
  let rest ← stripPrefix "contract:".toList location.toList
  let (_, rest) ← splitOnce ['/'] rest
  let (circuit, hash) ← splitOnce "?vk=".toList rest
  let hash ← (Hex.decode (String.ofList hash)).toOption
  if hash.length = 32 ∧ circuit ≠ [] then some (String.ofList circuit, hash) else none

theorem stripPrefix_append (pre text : List Char) : stripPrefix pre (pre ++ text) = some text := by
  induction pre with
  | nil => rfl
  | cons p ps ih => simpa [stripPrefix] using ih

/-- A delimiter is found where it stands when its first character is not in front of it. -/
theorem splitOnce_append {d : Char} {ds : List Char} {before : List Char} (h : d ∉ before)
    (after : List Char) :
    splitOnce (d :: ds) (before ++ (d :: ds ++ after)) = some (before, after) := by
  induction before with
  | nil =>
    have hstrip := stripPrefix_append (d :: ds) after
    simp only [List.nil_append, List.cons_append] at hstrip ⊢
    rw [splitOnce, hstrip]
  | cons c cs ih =>
    obtain ⟨hne, hcs⟩ := not_or.mp (fun hmem => h (List.mem_cons.mpr hmem))
    rw [List.cons_append, splitOnce, stripPrefix, if_neg hne, ih hcs]
    rfl

theorem toList_location (addressHex circuit : String) (hash : Bytes) :
    (location addressHex circuit hash).toList = "contract:".toList ++ (addressHex.toList ++
      ('/' :: [] ++ (circuit.toList ++ ("?vk=".toList ++ (Hex.encode hash).toList)))) := by
  have hkey : ∀ key : String, key = toString key := fun _ => rfl
  unfold location
  simp only [← hkey, String.toList_append, List.append_assoc]
  rfl

theorem slash_not_mem_encode (bytes : Bytes) : '/' ∉ (Hex.encode bytes).toList := by
  intro hmem
  have hhex := Hex.isLowercaseHex_encode bytes
  unfold Hex.isLowercaseHex at hhex
  rw [Bool.and_eq_true, List.all_eq_true] at hhex
  have hslash := hhex.2 '/' hmem
  revert hslash
  decide

/-- A location names its circuit and its hash. No circuit has the empty name. -/
theorem parse_location (address : Bytes) {circuit : String} (hcircuit : '?' ∉ circuit.toList)
    {hash : Bytes} (hhash : hash.length = 32) :
    parse (location (Hex.encode address) circuit hash) =
      if circuit = "" then none else some (circuit, hash) := by
  have haddress : ∀ rest, splitOnce ['/'] ((Hex.encode address).toList ++ ('/' :: [] ++ rest)) =
      some ((Hex.encode address).toList, rest) := splitOnce_append (slash_not_mem_encode address)
  have hkey : splitOnce "?vk=".toList (circuit.toList ++ ("?vk=".toList ++ (Hex.encode hash).toList)) =
      some (circuit.toList, (Hex.encode hash).toList) := splitOnce_append hcircuit _
  have hdecode : (Hex.decode (String.ofList (Hex.encode hash).toList)).toOption = some hash := by
    rw [String.ofList_toList, Hex.decode_encode]
    rfl
  unfold parse
  simp only [toList_location, stripPrefix_append, haddress, hkey, hdecode, Option.bind_eq_bind,
    Option.bind_some]
  by_cases hempty : circuit = ""
  · rw [if_pos hempty, if_neg]
    rintro ⟨-, hne⟩
    exact hne (by rw [hempty]; rfl)
  · have hne : circuit.toList ≠ [] := fun hnil => hempty (String.toList_eq_nil_iff.mp hnil)
    rw [if_neg hempty, if_pos ⟨hhash, hne⟩, String.ofList_toList]

end Locations

section Registry

variable {Config : Type} (sha256 : Bytes → Bytes)

/-- The zk configs under each hash, each one held weakly. A hash with none has no entry. -/
abbrev Registry (Config : Type) := Bytes → List Config

/-- Registers a config last under the hash of the key that it serves the circuit with, and
lets go of the configs that no handle holds any more. -/
def register [DecidableEq Config] (alive : Config → Bool) (addressHex circuit : String) (verifierKey : Bytes)
    (zkConfig : Config) (registry : Registry Config) : Registry Config × String :=
  let hash := sha256 verifierKey
  let retained := fun key => (registry key).filter alive
  let configs := retained hash
  let configs := if zkConfig ∈ configs then configs else configs ++ [zkConfig]
  (Function.update retained hash configs, location addressHex circuit hash)

/-- The artifacts that a location names, or `none` when it names no live registration. -/
def resolve (alive : Config → Bool) (artifacts : Config → String → Except ZkConfigError ZkArtifacts)
    (registry : Registry Config) (location : String) :
    Except ZkConfigError (Option ZkArtifacts) :=
  match parse location with
  | none => .ok none
  | some (circuit, hash) =>
    match (registry hash).find? alive with
    | none => .ok none
    | some zkConfig =>
      match artifacts zkConfig circuit with
      | .error e => .error e
      | .ok found =>
        if sha256 found.verifierKey ≠ hash then
          let changed := "changed after the call registered it"
          .error (.backend s!"the verifier key for circuit `{circuit}` {changed}")
        else .ok (some found)

/-- A call that registers the zk config that it proves with. -/
structure Registration (Config : Type) where
  address : Bytes
  circuit : String
  verifierKey : Bytes
  zkConfig : Config

def Registration.location (r : Registration Config) : String :=
  KeyResolver.location (Hex.encode r.address) r.circuit (sha256 r.verifierKey)

inductive Event (Config : Type) where
  | register (r : Registration Config)
  | drop (zkConfig : Config)

/-- The registry of the process, and the configs whose last handle is gone. -/
structure Process (Config : Type) where
  registry : Registry Config
  dropped : List Config

def Process.alive [DecidableEq Config] (p : Process Config) (zkConfig : Config) : Bool := decide (zkConfig ∉ p.dropped)

def start : Process Config := ⟨fun _ => [], []⟩

/-- A call holds the config that it registers. -/
inductive Step [DecidableEq Config] : Process Config → Event Config → Process Config → Prop where
  | register {p : Process Config} {r : Registration Config} (held : p.alive r.zkConfig = true) :
    Step p (.register r) ⟨(KeyResolver.register sha256 p.alive (Hex.encode r.address) r.circuit
      r.verifierKey r.zkConfig p.registry).1, p.dropped⟩
  | drop {p : Process Config} {zkConfig : Config} :
    Step p (.drop zkConfig) ⟨p.registry, zkConfig :: p.dropped⟩

/-- The registrations of a run, in order. -/
def registrations (events : List (Event Config)) : List (Registration Config) :=
  events.filterMap fun event =>
    match event with
    | .register r => some r
    | .drop _ => none

/-- The configs that calls registered under a key, in order and with repetitions. -/
def configsUnder (verifierKey : Bytes) (past : List (Registration Config)) : List Config :=
  (past.filter (fun r => r.verifierKey = verifierKey)).map (·.zkConfig)

/-- The config that was registered first under a key, of those that are still alive. -/
def oldestLive [DecidableEq Config] (p : Process Config) (events : List (Event Config)) (verifierKey : Bytes) :
    Option Config :=
  (configsUnder verifierKey (registrations events)).find? p.alive

end Registry

section Runs

variable {Config : Type} {sha256 : Bytes → Bytes}

def configsAt (sha256 : Bytes → Bytes) (hash : Bytes) (past : List (Registration Config)) :
    List Config :=
  (past.filter (fun r => sha256 r.verifierKey = hash)).map (·.zkConfig)

theorem find?_filter_live {alive live : Config → Bool} (h : ∀ c, live c = true → alive c = true)
    (configs : List Config) : (configs.filter alive).find? live = configs.find? live := by
  rw [List.find?_filter]
  congr 1
  funext c
  cases hlive : live c with
  | false => simp
  | true => simp [h c hlive]

/-- Adding a config that is there already finds nothing new. -/
theorem find?_append_mem {configs past : List Config} {live : Config → Bool} {c : Config}
    (h : configs.find? live = past.find? live) (hc : c ∈ configs) :
    configs.find? live = (past ++ [c]).find? live := by
  rw [List.find?_append, ← h]
  cases hfind : configs.find? live with
  | some found => rfl
  | none =>
    have hnot := List.find?_eq_none.mp hfind c hc
    simp [hnot]

theorem configsAt_append (hash : Bytes) (past : List (Registration Config))
    (r : Registration Config) :
    configsAt sha256 hash (past ++ [r]) =
      configsAt sha256 hash past ++ if sha256 r.verifierKey = hash then [r.zkConfig] else [] := by
  unfold configsAt
  rw [List.filter_append, List.map_append]
  by_cases h : sha256 r.verifierKey = hash <;> simp [h]

theorem registrations_cons (event : Event Config) (events : List (Event Config)) :
    registrations (event :: events) = registrations [event] ++ registrations events := by
  cases event <;> rfl

variable [DecidableEq Config]

/-- Of the configs that are alive, the registry and the history find the same one first. -/
def Tracks (sha256 : Bytes → Bytes) (past : List (Registration Config)) (p : Process Config) :
    Prop :=
  ∀ (hash : Bytes) (live : Config → Bool), (∀ c, live c = true → p.alive c = true) →
    (p.registry hash).find? live = (configsAt sha256 hash past).find? live

theorem tracks_register {past : List (Registration Config)} {p : Process Config}
    (h : Tracks sha256 past p) (r : Registration Config) :
    Tracks sha256 (past ++ [r]) ⟨(register sha256 p.alive (Hex.encode r.address) r.circuit
      r.verifierKey r.zkConfig p.registry).1, p.dropped⟩ := by
  intro hash live hlive
  change ∀ c, live c = true → p.alive c = true at hlive
  have hretained := (find?_filter_live hlive (p.registry hash)).trans (h hash live hlive)
  rw [configsAt_append]
  by_cases hhash : sha256 r.verifierKey = hash
  · subst hhash
    simp only [register, Function.update_self, if_true]
    by_cases hmem : r.zkConfig ∈ (p.registry (sha256 r.verifierKey)).filter p.alive
    · rw [if_pos hmem]
      exact find?_append_mem hretained hmem
    · rw [if_neg hmem, List.find?_append, List.find?_append, hretained]
  · simp only [register, Function.update_of_ne (Ne.symm hhash), if_neg hhash, List.append_nil]
    exact hretained

theorem tracks_drop {past : List (Registration Config)} {p : Process Config}
    (h : Tracks sha256 past p) (zkConfig : Config) :
    Tracks sha256 past ⟨p.registry, zkConfig :: p.dropped⟩ := by
  intro hash live hlive
  refine h hash live fun c hc => ?_
  have halive := of_decide_eq_true (hlive c hc)
  exact decide_eq_true fun hmem => halive (List.mem_cons_of_mem _ hmem)

theorem tracks_run {past : List (Registration Config)} {p p' : Process Config}
    {events : List (Event Config)} (hrun : Loops.Run (Step sha256) p events p')
    (h : Tracks sha256 past p) : Tracks sha256 (past ++ registrations events) p' := by
  induction hrun generalizing past with
  | nil p => simpa [registrations] using h
  | cons hstep _ ih =>
    rw [registrations_cons, ← List.append_assoc]
    cases hstep with
    | register held => exact ih (tracks_register h _)
    | drop => exact ih (by simpa [registrations] using tracks_drop h _)

variable {p : Process Config} {events : List (Event Config)}
variable (artifacts : Config → String → Except ZkConfigError ZkArtifacts)

/-- The config serves the registration's circuit with the key that was registered. -/
def Serves (r : Registration Config) (zkConfig : Config) : Prop :=
  ∃ found, artifacts zkConfig r.circuit = .ok found ∧ found.verifierKey = r.verifierKey

/-- The verifier keys that a run registers, or that a config serves. -/
def occurring (events : List (Event Config)) : Set Bytes :=
  { key | (∃ r ∈ registrations events, r.verifierKey = key) ∨
    ∃ zkConfig circuit found, artifacts zkConfig circuit = .ok found ∧ found.verifierKey = key }

theorem find?_alive (hrun : Loops.Run (Step sha256) start events p)
    (hinj : Set.InjOn sha256 (occurring artifacts events)) {r : Registration Config}
    (hr : r ∈ registrations events) :
    (p.registry (sha256 r.verifierKey)).find? p.alive = oldestLive p events r.verifierKey := by
  have hstart : Tracks sha256 ([] : List (Registration Config)) start := fun _ _ _ => rfl
  have htracks := tracks_run hrun hstart
  rw [List.nil_append] at htracks
  rw [htracks (sha256 r.verifierKey) p.alive (fun _ h => h)]
  have hsame : ∀ s ∈ registrations events,
      (sha256 s.verifierKey = sha256 r.verifierKey ↔ s.verifierKey = r.verifierKey) := by
    intro s hs
    exact hinj.eq_iff (Or.inl ⟨s, hs, rfl⟩) (Or.inl ⟨r, hr, rfl⟩)
  unfold oldestLive configsUnder configsAt
  rw [List.filter_congr fun s hs => decide_eq_decide.mpr (hsame s hs)]

/-- What a location resolves to, by the history of its key. -/
theorem resolve_location (hrun : Loops.Run (Step sha256) start events p)
    (hsha : ∀ key, (sha256 key).length = 32)
    (hinj : Set.InjOn sha256 (occurring artifacts events)) {r : Registration Config}
    (hr : r ∈ registrations events) (hname : '?' ∉ r.circuit.toList) :
    resolve sha256 p.alive artifacts p.registry (r.location sha256) =
      if r.circuit = "" then .ok none
      else match oldestLive p events r.verifierKey with
        | none => .ok none
        | some zkConfig =>
          match artifacts zkConfig r.circuit with
          | .error e => .error e
          | .ok found =>
            if found.verifierKey = r.verifierKey then .ok (some found)
            else
              let changed := "changed after the call registered it"
              .error (.backend s!"the verifier key for circuit `{r.circuit}` {changed}") := by
  unfold resolve Registration.location
  rw [parse_location r.address hname (hsha r.verifierKey)]
  by_cases hempty : r.circuit = ""
  · rw [if_pos hempty, if_pos hempty]
  · rw [if_neg hempty, if_neg hempty]
    simp only [find?_alive artifacts hrun hinj hr]
    cases oldestLive p events r.verifierKey with
    | none => rfl
    | some zkConfig =>
      simp only
      cases hserved : artifacts zkConfig r.circuit with
      | error e => rfl
      | ok found =>
        have hkey : sha256 found.verifierKey = sha256 r.verifierKey ↔
            found.verifierKey = r.verifierKey :=
          hinj.eq_iff (Or.inr ⟨_, _, _, hserved, rfl⟩) (Or.inl ⟨r, hr, rfl⟩)
        by_cases heq : found.verifierKey = r.verifierKey
        · simp [heq]
        · simp [heq, hkey]

/-- A location resolves to its own circuit's artifacts while a config that was registered for
them serves them, never to those of another key, and to none once no config is left. -/
structure Faithful (sha256 : Bytes → Bytes) (p : Process Config) (events : List (Event Config))
    (r : Registration Config) : Prop where
  own : (∃ s ∈ registrations events, s.circuit = r.circuit ∧ s.verifierKey = r.verifierKey ∧
      p.alive s.zkConfig = true ∧ Serves artifacts r s.zkConfig) →
    ∃ zkConfig found, artifacts zkConfig r.circuit = .ok found ∧
      found.verifierKey = r.verifierKey ∧
      resolve sha256 p.alive artifacts p.registry (r.location sha256) = .ok (some found)
  never_other : ∀ found,
    resolve sha256 p.alive artifacts p.registry (r.location sha256) = .ok (some found) →
    found.verifierKey = r.verifierKey
  gone : (∀ s ∈ registrations events, s.verifierKey = r.verifierKey →
      p.alive s.zkConfig = false) →
    resolve sha256 p.alive artifacts p.registry (r.location sha256) = .ok none

omit [DecidableEq Config] in
theorem mem_configsUnder {verifierKey : Bytes} {zkConfig : Config} :
    zkConfig ∈ configsUnder verifierKey (registrations events) ↔
      ∃ s ∈ registrations events, s.verifierKey = verifierKey ∧ s.zkConfig = zkConfig := by
  simp [configsUnder, and_assoc]

/-- A location is resolved faithfully exactly when the live config that was registered first
under its key serves its circuit with that key, or no config registered for it does. -/
theorem location_faithful_iff (hrun : Loops.Run (Step sha256) start events p)
    (hsha : ∀ key, (sha256 key).length = 32)
    (hinj : Set.InjOn sha256 (occurring artifacts events)) {r : Registration Config}
    (hr : r ∈ registrations events) (hname : '?' ∉ r.circuit.toList) :
    Faithful artifacts sha256 p events r ↔
      ((∃ s ∈ registrations events, s.circuit = r.circuit ∧ s.verifierKey = r.verifierKey ∧
          p.alive s.zkConfig = true ∧ Serves artifacts r s.zkConfig) →
        r.circuit ≠ "" ∧
          ∃ zkConfig ∈ oldestLive p events r.verifierKey, Serves artifacts r zkConfig) := by
  have hresolve := resolve_location artifacts hrun hsha hinj hr hname
  constructor
  · intro h hserved
    obtain ⟨-, found, -, -, hfound⟩ := h.own hserved
    rw [hresolve] at hfound
    by_cases hempty : r.circuit = ""
    · rw [if_pos hempty] at hfound
      cases hfound
    · refine ⟨hempty, ?_⟩
      rw [if_neg hempty] at hfound
      cases holdest : oldestLive p events r.verifierKey with
      | none =>
        rw [holdest] at hfound
        cases hfound
      | some zkConfig =>
        refine ⟨zkConfig, rfl, ?_⟩
        rw [holdest] at hfound
        simp only at hfound
        cases hartifacts : artifacts zkConfig r.circuit with
        | error e =>
          rw [hartifacts] at hfound
          cases hfound
        | ok served =>
          rw [hartifacts] at hfound
          simp only at hfound
          by_cases hkey : served.verifierKey = r.verifierKey
          · exact ⟨served, hartifacts, hkey⟩
          · rw [if_neg hkey] at hfound
            cases hfound
  · intro h
    refine ⟨fun hserved => ?_, fun found hfound => ?_, fun hgone => ?_⟩
    · obtain ⟨hempty, zkConfig, holdest, found, hartifacts, hkey⟩ := h hserved
      refine ⟨zkConfig, found, hartifacts, hkey, ?_⟩
      rw [hresolve, if_neg hempty, Option.mem_def.mp holdest]
      simp only [hartifacts, if_pos hkey]
    · rw [hresolve] at hfound
      split at hfound
      · cases hfound
      · split at hfound
        · cases hfound
        · split at hfound
          · cases hfound
          · split at hfound
            · rename_i hkey
              cases hfound
              exact hkey
            · cases hfound
    · have hnone : oldestLive p events r.verifierKey = none := by
        refine List.find?_eq_none.mpr fun zkConfig hmem halive => ?_
        obtain ⟨s, hs, hkey, rfl⟩ := mem_configsUnder.mp hmem
        rw [hgone s hs hkey] at halive
        cases halive
      rw [hresolve, hnone]
      simp

end Runs

section Samples

/-- A stand-in for the hash that keeps short keys apart. -/
def shortHash (key : Bytes) : Bytes := (key ++ List.replicate 32 0).take 32

theorem length_shortHash (key : Bytes) : (shortHash key).length = 32 := by
  simp [shortHash]

/-- The circuit of each of two contract directories, whose verifier keys are equal. -/
def held (directory : ℕ) : String := if directory = 0 then "increment" else "decrement"

def twoDirectories (directory : ℕ) (file : ArtifactFile) (circuit : String) : FileRead :=
  if circuit = held directory then
    match file with
    | .prover => .bytes [1]
    | .verifier => .bytes [2]
    | .zkir => .bytes [3]
  else .missing

def artifactsOf (directory : ℕ) : String → Except ZkConfigError ZkArtifacts :=
  fsArtifacts (twoDirectories directory)

def increment : Registration ℕ := ⟨[170], "increment", [2], 0⟩

def decrement : Registration ℕ := ⟨[187], "decrement", [2], 1⟩

theorem artifactsOf_verifierKey {directory : ℕ} {circuit : String} {found : ZkArtifacts}
    (h : artifactsOf directory circuit = .ok found) : found.verifierKey = [2] := by
  obtain ⟨-, -, hverifier, -⟩ := (fsArtifacts_ok_iff _).mp h
  unfold twoDirectories at hverifier
  split at hverifier
  · exact (FileRead.bytes.inj hverifier).symm
  · cases hverifier

def bothCalls : List (Event ℕ) := [.register increment, .register decrement]

theorem injOn_bothCalls : Set.InjOn shortHash (occurring artifactsOf bothCalls) := by
  have hkey : ∀ key ∈ occurring artifactsOf bothCalls, key = [2] := by
    rintro key (⟨r, hr, rfl⟩ | ⟨directory, circuit, found, hfound, rfl⟩)
    · rcases List.mem_pair.mp (show r ∈ [increment, decrement] from hr) with rfl | rfl <;> rfl
    · exact artifactsOf_verifierKey hfound
  intro a ha b hb _
  rw [hkey a ha, hkey b hb]

def afterBoth : Process ℕ :=
  ⟨(register shortHash (fun _ => true) "bb" "decrement" [2] 1
    (register shortHash (fun _ => true) "aa" "increment" [2] 0 (fun _ => [])).1).1, []⟩

theorem run_bothCalls : Loops.Run (Step shortHash) start bothCalls afterBoth :=
  .cons (.register rfl) (.cons (.register rfl) (.nil _))

theorem serves_increment : Serves artifactsOf increment 0 :=
  ⟨⟨[1], [2], [3]⟩, (fsArtifacts_ok_iff _).mpr ⟨rfl, rfl, rfl, rfl⟩, rfl⟩

theorem serves_decrement : Serves artifactsOf decrement 1 :=
  ⟨⟨[1], [2], [3]⟩, (fsArtifacts_ok_iff _).mpr ⟨rfl, rfl, rfl, rfl⟩, rfl⟩

theorem location_faithful_increment :
    Faithful artifactsOf shortHash afterBoth bothCalls increment :=
  (location_faithful_iff artifactsOf run_bothCalls length_shortHash injOn_bothCalls
    (List.mem_cons_self) (by decide)).mpr fun _ =>
      ⟨by decide, 0, by decide, serves_increment⟩

/-- The circuit of the second contract is looked for in the first one's directory. -/
theorem location_unfaithful_decrement :
    Loops.Run (Step shortHash) start bothCalls afterBoth ∧
      decrement ∈ registrations bothCalls ∧ afterBoth.alive 1 = true ∧
      Serves artifactsOf decrement 1 ∧
      resolve shortHash afterBoth.alive artifactsOf afterBoth.registry
        (decrement.location shortHash) = .error (.notFound "decrement") ∧
      ¬ Faithful artifactsOf shortHash afterBoth bothCalls decrement := by
  have hmem : decrement ∈ registrations bothCalls := List.mem_cons_of_mem _ List.mem_cons_self
  have hresolve := resolve_location artifactsOf run_bothCalls length_shortHash injOn_bothCalls
    hmem (by decide)
  have hlost : resolve shortHash afterBoth.alive artifactsOf afterBoth.registry
      (decrement.location shortHash) = .error (.notFound "decrement") := by
    rw [hresolve]
    rfl
  refine ⟨run_bothCalls, hmem, rfl, serves_decrement, hlost, fun h => ?_⟩
  obtain ⟨_, found, -, -, hfound⟩ := h.own ⟨decrement, hmem, rfl, rfl, rfl, serves_decrement⟩
  rw [hlost] at hfound
  cases hfound

end Samples

end MidnightRs.KeyResolver
