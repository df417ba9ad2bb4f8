import MidnightRs.Results
import MidnightRs.CompactTypes

/-!
The state of a contract as a tree of values, and the ways that the typed bindings
read it: a cell, a slot of an array, and a path of slots from the root down.
-/
namespace MidnightRs.TypedState

open MidnightRs.Compact

/-- A value of the contract state. The Merkle trees are the ledger's own. -/
inductive StateValue (Tree : Type) where
  | null
  | cell (av : AlignedValue)
  | map (entries : List (AlignedValue × StateValue Tree))
  | array (elements : List (StateValue Tree))
  | boundedMerkleTree (tree : Tree)

inductive StateError where
  | indexOutOfBounds (index : ℕ)
  | unexpectedVariant (expected actual : String)
  | conversion (type : String)
deriving DecidableEq, Repr

section Nav

variable {Tree : Type}

def variantName : StateValue Tree → String
  | .null => "Null"
  | .cell _ => "Cell"
  | .map _ => "Map"
  | .array _ => "Array"
  | .boundedMerkleTree _ => "BoundedMerkleTree"

def cellValue (sv : StateValue Tree) : Except StateError AlignedValue :=
  match sv with
  | .cell av => .ok av
  | other => .error (.unexpectedVariant "Cell" (variantName other))

/-- The value of a cell, as the type that `decode` reads. -/
def cellAs {T : Type} (decode : List Atom → Except String T) (sv : StateValue Tree) :
    Except StateError T :=
  match cellValue sv with
  | .error e => .error e
  | .ok av => (decode av.value).mapError .conversion

def getField (sv : StateValue Tree) (index : ℕ) : Except StateError (StateValue Tree) :=
  match sv with
  | .array elements =>
    match elements[index]? with
    | some element => .ok element
    | none => .error (.indexOutOfBounds index)
  | other => .error (.unexpectedVariant "Array" (variantName other))

/-- Each index of the path is one into the array at its level. -/
def getFieldPath (sv : StateValue Tree) (path : List ℕ) : Except StateError (StateValue Tree) :=
  path.foldlM getField sv

variable {sv : StateValue Tree}

@[simp] theorem getFieldPath_nil : getFieldPath sv [] = .ok sv := rfl

theorem getFieldPath_cons (i : ℕ) (path : List ℕ) :
    getFieldPath sv (i :: path) = getField sv i >>= fun next => getFieldPath next path := rfl

theorem getField_ok_iff {i : ℕ} {element : StateValue Tree} :
    getField sv i = .ok element ↔ ∃ elements, sv = .array elements ∧ elements[i]? = some element := by
  cases sv with
  | array elements =>
    unfold getField
    simp only [StateValue.array.injEq, exists_eq_left']
    cases elements[i]? with
    | none => simp
    | some found => simp
  | null => simp [getField]
  | cell av => simp [getField]
  | map entries => simp [getField]
  | boundedMerkleTree tree => simp [getField]

end Nav

end MidnightRs.TypedState
