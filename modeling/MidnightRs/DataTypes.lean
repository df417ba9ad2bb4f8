import MidnightRs.Bindings
import MidnightRs.InitialStates

/-!
The Rust definitions of a contract's structs and enums. A walk over the types of every
position emits one definition for each name, at the first occurrence that has it, and
compares the later structs with it by their Rust fields.
-/
namespace MidnightRs.DataTypes

open MidnightRs.Compact

/-- What Rust says of identifiers: the characters that one takes, their upper case, and the
words that are reserved. -/
structure RustIdents where
  isAlphanumeric : Char → Bool
  toUppercase : Char → Char
  isReserved : String → Bool

section Tokens

variable (rust : RustIdents)

def sanitizeIdent (name : String) : String :=
  String.ofList (name.toList.map fun c => if rust.isAlphanumeric c || c = '_' then c else '_')

/-- A reserved word takes the raw syntax. -/
def makeIdent (name : String) : String :=
  let sanitized := sanitizeIdent rust name
  if rust.isReserved sanitized then "r#" ++ sanitized else sanitized

def toPascalCaseFrom : Bool → List Char → List Char
  | _, [] => []
  | cap, c :: cs =>
    if c = '_' || c = '-' || c = '$' then toPascalCaseFrom true cs
    else if cap then rust.toUppercase c :: toPascalCaseFrom false cs
    else c :: toPascalCaseFrom false cs

def toPascalCase (s : String) : String := String.ofList (toPascalCaseFrom rust true s.toList)

def maxTupleLen : ℕ := 11

def uintText (maxval : ℕ) : String :=
  match uintTokens maxval with
  | .primitive bytes => s!"u{8 * bytes}"
  | .uint bits => s!"Uint < {bits} >"
  | .compileError => s!"compile_error ! (\"the Compact type Uint<0..{maxval + 1}> is wider than 128 bits, and the SDK holds a Uint in a u128\")"

def opaqueText (name : String) : String :=
  match opaqueTokens name with
  | .embeddedGroupAffine => "EmbeddedGroupAffine"
  | .transientFr => "TransientFr"
  | .vecU8 => "Vec < u8 >"

def fieldText (f : FieldType) : String :=
  match ForeignField.of f with
  | some foreign => s!"midnight_contract :: runtime :: {foreign.name}"
  | none => "TransientFr"

def pointText : Curve → String
  | .jubjub => opaqueText "JubjubPoint"
  | .secp256k1 => "midnight_contract :: runtime :: Secp256k1Point"
  | .secp256r1 => "midnight_contract :: runtime :: Secp256r1Point"
  | .curve25519 => "midnight_contract :: runtime :: Curve25519Point"

/-- The generic type that a standard-library struct binds to, which its shape decides. Its
arguments are the types of the fields after the first one. -/
def libraryStruct (name : String) (fields : List (String × Ty)) : Option String :=
  match name, fields with
  | "Maybe", [("is_some", .boolean), ("value", _)] => some "midnight_contract :: runtime :: Maybe"
  | "Either", [("is_left", .boolean), ("left", _), ("right", _)] =>
    some "midnight_contract :: runtime :: Either"
  | _, _ => none

mutual

/-- The text of the Rust type of a Compact type. -/
def typeToTokens : Ty → String
  | .boolean => "bool"
  | .field f => fieldText f
  | .unsigned maxval => uintText maxval
  | .bytes length => s!"Bytes < {length} >"
  | .vector len ty => s!"Vector < {len} , {typeToTokens ty} >"
  | .tuple types =>
    let inner := typesToTokens types
    if maxTupleLen < types.length then
      s!"compile_error ! (\"the bindings decode a Compact tuple of at most {maxTupleLen} elements, and a tuple in this contract has {types.length}. Declare a struct instead\")"
    else if types.length = 1 then "(" ++ " , ".intercalate inner ++ " ,)"
    else "(" ++ " , ".intercalate inner ++ ")"
  | .struct name fields =>
    match libraryStruct name fields with
    | some library => s!"{library} < " ++ " , ".intercalate (fieldsToTokens fields).tail ++ " >"
    | none => makeIdent rust name
  | .enum name _ => makeIdent rust name
  | .aliasOf _ _ ty => typeToTokens ty
  | .point curve => pointText curve
  | .opaqueData name => opaqueText name
  | .contract _ => makeIdent rust "ContractAddress"
  | .adt _ => "Vec < u8 >"
  | .typeVar _ => "Vec < u8 >"
  | .unknown => "Vec < u8 >"

def typesToTokens : List Ty → List String
  | [] => []
  | ty :: types => typeToTokens ty :: typesToTokens types

def fieldsToTokens : List (String × Ty) → List String
  | [] => []
  | (_, ty) :: fields => typeToTokens ty :: fieldsToTokens fields

end

/-- The fields of the Rust struct that a struct type generates, under their own names. -/
def rustFields (fields : List (String × Ty)) : List (String × String) :=
  fields.map fun field => (field.1, typeToTokens rust field.2)

/-- An item of the generated code. A definition comes with its conversions. -/
inductive Item where
  | struct (ident : String) (fields : List (String × String))
  | enum (ident : String) (variants : List String)
  | compileError (message : String)
deriving DecidableEq, Repr

def emitStruct (name : String) (fields : List (String × Ty)) : Item :=
  .struct (makeIdent rust name)
    ((rustFields rust fields).map fun field => (makeIdent rust field.1, field.2))

def emitEnum (name : String) (variants : List String) : Item :=
  .enum (makeIdent rust name) (variants.map (toPascalCase rust))

end Tokens

section Walk

variable (rust : RustIdents)

/-- The first type of each name, and the items so far. -/
structure Emission where
  emitted : String → Option Ty
  items : List Item

def Emission.insert (s : Emission) (name : String) (ty : Ty) : Emission :=
  ⟨fun n => if n = name then some ty else s.emitted n, s.items⟩

def Emission.push (s : Emission) (item : Item) : Emission := ⟨s.emitted, s.items ++ [item]⟩

def instantiationsDiffer (name : String) : String :=
  s!"the Compact struct `{name}` has two instantiations with different fields, and the bindings give one Rust struct per name"

/-- What one struct of the walk adds. `collect` goes on with the types of its fields. -/
def collectStruct (refuseCollisions : Bool) (name : String) (fields : List (String × Ty))
    (collect : Emission → Emission) (s : Emission) : Emission :=
  match s.emitted name with
  | some (.struct _ first) =>
    if rustFields rust first = rustFields rust fields then collect s
    else if refuseCollisions then s.push (.compileError (instantiationsDiffer name))
    else s
  | some _ => s
  | none => (collect (s.insert name (.struct name fields))).push (emitStruct rust name fields)

mutual

/-- Collects the definitions that a type needs. The boolean of a library struct needs none,
so that its fields collect as its arguments do. -/
def collectTypes (refuseCollisions : Bool) : Ty → Emission → Emission
  | .struct name fields => fun s =>
    match libraryStruct name fields with
    | some _ => collectFields refuseCollisions fields s
    | none => collectStruct rust refuseCollisions name fields (collectFields refuseCollisions fields) s
  | .enum name variants => fun s =>
    let inserted := s.insert name (.enum name variants)
    if (s.emitted name).isNone then inserted.push (emitEnum rust name variants) else inserted
  | .aliasOf _ _ ty => collectTypes refuseCollisions ty
  | .vector _ ty => collectTypes refuseCollisions ty
  | .tuple types => collectEach refuseCollisions types
  | .contract _ => collectStruct rust refuseCollisions "ContractAddress" [("bytes", .bytes 32)] id
  | .boolean => id
  | .field _ => id
  | .unsigned _ => id
  | .point _ => id
  | .bytes _ => id
  | .opaqueData _ => id
  | .adt _ => id
  | .typeVar _ => id
  | .unknown => id

def collectEach (refuseCollisions : Bool) : List Ty → Emission → Emission
  | [] => id
  | ty :: types => fun s => collectEach refuseCollisions types (collectTypes refuseCollisions ty s)

def collectFields (refuseCollisions : Bool) : List (String × Ty) → Emission → Emission
  | [] => id
  | (_, ty) :: fields => fun s =>
    collectFields refuseCollisions fields (collectTypes refuseCollisions ty s)

end

structure LedgerField where
  storage : TypedState.StorageKind
  elementType : Option Ty
  key : Option Ty
  value : Option Ty

structure Signature where
  arguments : List (String × Ty)
  resultType : Ty

structure Artifact where
  ledger : List LedgerField
  circuits : List Signature
  constructor : Option (List (String × Ty))
  witnesses : List Signature

def LedgerField.isTree (field : LedgerField) : Bool :=
  field.storage = .merkleTree || field.storage = .historicMerkleTree

def LedgerField.types (field : LedgerField) : List Ty :=
  [field.elementType, field.key, field.value].filterMap id

def Signature.types (s : Signature) : List Ty := s.arguments.map (·.2) ++ [s.resultType]

/-- The types of the positions that the generated code names, in the order of the walk. -/
def Artifact.rootTypes (a : Artifact) : List Ty :=
  (a.ledger.filter (fun field => !field.isTree)).flatMap LedgerField.types ++
    a.circuits.flatMap Signature.types ++
    (a.constructor.getD []).map (·.2) ++ a.witnesses.flatMap Signature.types

end Walk

section Occurrences

/-- A struct or an enum that a type has somewhere in it. -/
inductive Named where
  | struct (name : String) (fields : List (String × Ty))
  | enum (name : String) (variants : List String)

def Named.name : Named → String
  | .struct name _ => name
  | .enum name _ => name

def Named.ty : Named → Ty
  | .struct name fields => .struct name fields
  | .enum name variants => .enum name variants

mutual

/-- The structs and enums of a type that have a generated name. -/
def namedIn : Ty → List Named
  | .struct name fields =>
    match libraryStruct name fields with
    | some _ => namedInFields fields
    | none => .struct name fields :: namedInFields fields
  | .enum name variants => [.enum name variants]
  | .aliasOf _ _ ty => namedIn ty
  | .vector _ ty => namedIn ty
  | .tuple types => namedInEach types
  | .contract _ => [.struct "ContractAddress" [("bytes", .bytes 32)]]
  | .boolean => []
  | .field _ => []
  | .unsigned _ => []
  | .point _ => []
  | .bytes _ => []
  | .opaqueData _ => []
  | .adt _ => []
  | .typeVar _ => []
  | .unknown => []

def namedInEach : List Ty → List Named
  | [] => []
  | ty :: types => namedIn ty ++ namedInEach types

def namedInFields : List (String × Ty) → List Named
  | [] => []
  | (_, ty) :: fields => namedIn ty ++ namedInFields fields

end

variable (rust : RustIdents)

/-- The definition that the generated code would give the occurrence on its own. -/
def Named.definition : Named → Item
  | .struct name fields => emitStruct rust name fields
  | .enum name variants => emitEnum rust name variants

def Item.ident : Item → Option String
  | .struct ident _ => some ident
  | .enum ident _ => some ident
  | .compileError _ => none

end Occurrences

section Invariant

variable (rust : RustIdents) (all : List Named)

/-- Each name stands for one of the occurrences, whose definition is there or still to come. -/
def Sound (pending : List Item) (s : Emission) : Prop :=
  ∀ name ty, s.emitted name = some ty → ∃ n ∈ all, n.name = name ∧ n.ty = ty ∧
    (n.definition rust ∈ s.items ∨ n.definition rust ∈ pending)

/-- The walk keeps the state sound, and has a definition for each of the occurrences unless
it refuses one. -/
def Walks (walk : Emission → Emission) (named : List Named) : Prop :=
  ∀ pending s, Sound rust all pending s → Sound rust all pending (walk s) ∧
    (∀ item ∈ s.items, item ∈ (walk s).items) ∧
    ((∀ message, .compileError message ∉ (walk s).items) →
      ∀ n ∈ named, n.definition rust ∈ (walk s).items ∨ n.definition rust ∈ pending)

variable {rust all}

theorem Walks.id : Walks rust all id [] :=
  fun _ _ hs => ⟨hs, fun _ hitem => hitem, fun _ _ hn => absurd hn List.not_mem_nil⟩

end Invariant

section Emission

variable (rust : RustIdents)

/-- The structs and enums of the positions that the generated code names. -/
def Artifact.named (a : Artifact) : List Named := namedInEach a.rootTypes

end Emission

section Samples

def asciiIdents : RustIdents := ⟨Char.isAlphanum, Char.toUpper, fun name => name = "gen"⟩

def entry (value : Ty) : Ty := .struct "Entry" [("value", value)]

/-- A circuit and a witness with two instantiations of a struct that have the same Rust
fields, and a tree with one that has others. -/
def entries : Artifact where
  ledger := [⟨.merkleTree, some (entry .boolean), none, none⟩]
  circuits := [⟨[("x", entry (.unsigned 9))], .tuple []⟩]
  constructor := none
  witnesses := [⟨[], entry (.unsigned 200)⟩]

end Samples

end MidnightRs.DataTypes
