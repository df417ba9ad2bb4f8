import MidnightRs.ByteArrays

/-!
The typed values of the contract state. Each type has an encoder, which writes its atoms
one after another, and a decoder of its own, which takes the atoms apart by the alignments
of the parts. The conversions of the primitive types are the ledger's.
-/
namespace MidnightRs.TypedValues

open MidnightRs.Compact Results

/-- The unsigned integers of Rust. -/
inductive Primitive where
  | u8
  | u16
  | u32
  | u64
  | u128
deriving DecidableEq, Repr

def Primitive.bytes : Primitive → ℕ
  | u8 => 1
  | u16 => 2
  | u32 => 4
  | u64 => 8
  | u128 => 16

/-- A Rust type of the bindings. A generated enum has its variants as discriminants. -/
inductive StateType where
  | boolean
  | primitive (p : Primitive)
  | uint (bits : ℕ)
  | bytes (length : ℕ)
  | vector (length : ℕ) (element : StateType)
  | maybe (value : StateType)
  | either (left right : StateType)
  | enum (variants : List String)
deriving Repr

/-- The values of a type. `Uint<BITS>` is below `2^BITS` in a `u128`, and a discriminant is
a `u8`. -/
def Val : StateType → Type
  | .boolean => Bool
  | .primitive p => { n : ℕ // n < 256 ^ p.bytes }
  | .uint bits => { n : ℕ // n < 2 ^ bits ∧ n < u128Bound }
  | .bytes length => { bytes : Bytes // bytes.length = length }
  | .vector length element => { xs : List (Val element) // xs.length = length }
  | .maybe value => Bool × Val value
  | .either left right => Bool × Val left × Val right
  | .enum variants => { i : ℕ // i < variants.length ∧ i < 256 }

/-- What the ledger's crates do with slices of atoms, for the primitive types and tuples. -/
structure Conversions where
  Fits : AlignmentAtom → Atom → Prop
  arrayAlignment : ℕ → AlignmentAtom
  consume : List AlignmentSegment → List Atom → Option (List Atom × List Atom)
  bool : List Atom → Except String Bool
  integer : Primitive → List Atom → Except String ℕ
  array : ℕ → Atom → Except String Bytes
  pair : ∀ {A B : Type}, List AlignmentSegment × (List Atom → Except String A) →
    List AlignmentSegment × (List Atom → Except String B) → List Atom → Except String (A × B)
  triple : ∀ {A B C : Type}, List AlignmentSegment × (List Atom → Except String A) →
    List AlignmentSegment × (List Atom → Except String B) →
    List AlignmentSegment × (List Atom → Except String C) → List Atom → Except String (A × B × C)
  /-- Bytes without trailing zeros fit an atom that is as long, and an array its own one. -/
  fits_bytes : ∀ length a, a.length ≤ length → trim a = a → Fits (.bytes length) a
  fits_array : ∀ bytes : Bytes, Fits (arrayAlignment bytes.length) (trim bytes)
  /-- A slice is split after as many atoms as the alignment has, when they fit it. -/
  consume_takes : ∀ (alignment : List AlignmentAtom) (chunk rest : List Atom),
    List.Forall₂ Fits alignment chunk →
    consume (alignment.map .atom) (chunk ++ rest) = some (chunk, rest)
  consume_splits : ∀ (alignment : List AlignmentAtom) (atoms chunk rest : List Atom),
    consume (alignment.map .atom) atoms = some (chunk, rest) →
    atoms = chunk ++ rest ∧ chunk.length = alignment.length
  bool_ok_iff : ∀ atoms b, bool atoms = .ok b ↔ atoms = (ofBool b).value
  integer_encoded : ∀ p n, n < 256 ^ p.bytes → integer p [trim (toLeBytes p.bytes n)] = .ok n
  integer_ok : ∀ p atoms n, integer p atoms = .ok n →
    n < 256 ^ p.bytes ∧ ∃ a, atoms = [a] ∧ ofLeBytes a = n
  array_encoded : ∀ bytes : Bytes, array bytes.length (trim bytes) = .ok bytes
  array_ok : ∀ length a bytes, array length a = .ok bytes → bytes.length = length
  pair_ok_iff : ∀ {A B : Type} (x : List AlignmentSegment × (List Atom → Except String A))
    (y : List AlignmentSegment × (List Atom → Except String B)) atoms a b,
    pair x y atoms = .ok (a, b) ↔ ∃ first rest second, consume x.1 atoms = some (first, rest) ∧
      consume y.1 rest = some (second, []) ∧ x.2 first = .ok a ∧ y.2 second = .ok b
  triple_ok_iff : ∀ {A B C : Type} (x : List AlignmentSegment × (List Atom → Except String A))
    (y : List AlignmentSegment × (List Atom → Except String B))
    (z : List AlignmentSegment × (List Atom → Except String C)) atoms a b c,
    triple x y z atoms = .ok (a, b, c) ↔ ∃ first rest second rest' third,
      consume x.1 atoms = some (first, rest) ∧ consume y.1 rest = some (second, rest') ∧
      consume z.1 rest' = some (third, []) ∧
      x.2 first = .ok a ∧ y.2 second = .ok b ∧ z.2 third = .ok c

section Model

variable (crates : Conversions)

/-- The atoms of an alignment, in order. -/
def alignmentAtoms : StateType → List AlignmentAtom
  | .boolean => [.bytes 1]
  | .primitive p => [.bytes p.bytes]
  | .uint bits => [.bytes (max ((bits + 7) / 8) 1)]
  | .bytes length => [crates.arrayAlignment length]
  | .vector length element => (List.replicate length (alignmentAtoms element)).flatten
  | .maybe value => .bytes 1 :: alignmentAtoms value
  | .either left right => .bytes 1 :: (alignmentAtoms left ++ alignmentAtoms right)
  | .enum _ => [.bytes Primitive.u8.bytes]

def alignment (t : StateType) : List AlignmentSegment := (alignmentAtoms crates t).map .atom

/-- The atoms that a value is written as. -/
def encode : (t : StateType) → Val t → List Atom
  | .boolean, b => (ofBool b).value
  | .primitive p, n => [trim (toLeBytes p.bytes n.val)]
  | .uint _, n => [trim (toLeBytes u128Bytes n.val)]
  | .bytes _, bytes => [trim bytes.val]
  | .vector _ element, xs => (xs.val.map (encode element)).flatten
  | .maybe value, (isSome, x) => (ofBool isSome).value ++ encode value x
  | .either left right, (isLeft, x, y) => (ofBool isLeft).value ++ encode left x ++ encode right y
  | .enum _, i => [trim (toLeBytes Primitive.u8.bytes i.val)]

/-- A `u128` holds a value of the type when no bit from `bits` on is set. -/
def uintFits (bits n : ℕ) : Bool := decide (128 ≤ bits) || n >>> bits == 0

/-- Takes the elements off the slice one by one. -/
def decodeElements {T : Type} (element : List AlignmentSegment)
    (decode : List Atom → Except String T) :
    ℕ → List Atom → Except String (List T × List Atom)
  | 0, rest => .ok ([], rest)
  | n + 1, rest =>
    match crates.consume element rest with
    | none => .error "Vector"
    | some (chunk, tail) => do
      let x ← decode chunk
      let (xs, rest) ← decodeElements element decode n tail
      .ok (x :: xs, rest)

def decode : (t : StateType) → List Atom → Except String (Val t)
  | .boolean, atoms => crates.bool atoms
  | .primitive p, atoms =>
    match crates.integer p atoms with
    | .error e => .error e
    | .ok n => if h : n < 256 ^ p.bytes then .ok ⟨n, h⟩ else .error "integer"
  | .uint bits, atoms =>
    match crates.integer .u128 atoms with
    | .error _ => .error "Uint"
    | .ok n =>
      if uintFits bits n then
        if h : n < 2 ^ bits ∧ n < u128Bound then .ok ⟨n, h⟩ else .error "Uint"
      else .error "Uint"
  | .bytes length, atoms =>
    match atoms with
    | [a] =>
      match crates.array length a with
      | .error e => .error e
      | .ok bytes => if h : bytes.length = length then .ok ⟨bytes, h⟩ else .error "[u8; N]"
    | _ => .error "[u8; N]"
  | .vector length element, atoms => do
    let (xs, rest) ← decodeElements crates (alignment crates element) (decode element) length atoms
    if rest ≠ [] then .error "Vector"
    else if h : xs.length = length then .ok ⟨xs, h⟩
    else .error "Vector"
  | .maybe value, atoms =>
    crates.pair (alignment crates .boolean, crates.bool) (alignment crates value, decode value) atoms
  | .either left right, atoms =>
    crates.triple (alignment crates .boolean, crates.bool) (alignment crates left, decode left)
      (alignment crates right, decode right) atoms
  | .enum variants, atoms =>
    match crates.integer .u8 atoms with
    | .error e => .error e
    | .ok i => if h : i < variants.length ∧ i < 256 then .ok ⟨i, h⟩ else .error "invalid variant"

end Model

section Fitting

variable (crates : Conversions)

theorem length_trim_toLeBytes_le (width n : ℕ) : (trim (toLeBytes width n)).length ≤ width :=
  (length_trim_le _).trans (length_toLeBytes width n).le

theorem fits_ofBool (b : Bool) : List.Forall₂ crates.Fits [.bytes 1] (ofBool b).value := by
  refine .cons (crates.fits_bytes 1 _ ?_ ?_) .nil
  · cases b <;> decide
  · cases b <;> decide

theorem fits_integer (width n : ℕ) :
    List.Forall₂ crates.Fits [.bytes width] [trim (toLeBytes width n)] :=
  .cons (crates.fits_bytes _ _ (length_trim_toLeBytes_le width n) (Circuits.trim_trim _)) .nil

/-- The atom of a `Uint` has the bytes that its bits need. -/
theorem lt_pow_uint {bits n : ℕ} (h : n < 2 ^ bits) : n < 256 ^ max ((bits + 7) / 8) 1 := by
  have hpow : (256 : ℕ) ^ max ((bits + 7) / 8) 1 = 2 ^ (8 * max ((bits + 7) / 8) 1) := by
    rw [Nat.pow_mul]
  rw [hpow]
  exact lt_of_lt_of_le h (Nat.pow_le_pow_right (by omega) (by omega))

theorem fits_elements {T : Type} {element : List AlignmentAtom} {encode : T → List Atom}
    (h : ∀ x, List.Forall₂ crates.Fits element (encode x)) (xs : List T) :
    List.Forall₂ crates.Fits (List.replicate xs.length element).flatten
      (xs.map encode).flatten := by
  induction xs with
  | nil => exact .nil
  | cons x xs ih => exact List.rel_append (h x) ih

/-- The atoms of a value fit the alignment of its type. -/
theorem encode_fits (t : StateType) (x : Val t) :
    List.Forall₂ crates.Fits (alignmentAtoms crates t) (encode t x) := by
  induction t with
  | boolean => exact fits_ofBool crates x
  | primitive p => exact fits_integer crates _ _
  | uint bits =>
    unfold encode
    rw [trim_toLeBytes_eq u128Bytes (max ((bits + 7) / 8) 1) x.val x.property.2
      (lt_pow_uint x.property.1)]
    exact fits_integer crates _ _
  | bytes length =>
    obtain ⟨bytes, rfl⟩ := x
    exact .cons (crates.fits_array bytes) .nil
  | vector length element ih =>
    obtain ⟨xs, rfl⟩ := x
    exact fits_elements crates ih xs
  | maybe value ih =>
    obtain ⟨isSome, x⟩ := x
    exact List.rel_append (fits_ofBool crates isSome) (ih x)
  | either left right ihleft ihright =>
    obtain ⟨isLeft, x, y⟩ := x
    change List.Forall₂ _ _ ((ofBool isLeft).value ++ encode left x ++ encode right y)
    rw [List.append_assoc]
    exact List.rel_append (fits_ofBool crates isLeft) (List.rel_append (ihleft x) (ihright y))
  | enum variants => exact fits_integer crates _ _

/-- A decoder's alignment takes an encoding off the front of a slice. -/
theorem consume_encode (t : StateType) (x : Val t) (rest : List Atom) :
    crates.consume (alignment crates t) (encode t x ++ rest) = some (encode t x, rest) :=
  crates.consume_takes _ _ _ (encode_fits crates t x)

theorem consume_all (t : StateType) (x : Val t) :
    crates.consume (alignment crates t) (encode t x) = some (encode t x, []) := by
  have h := consume_encode crates t x []
  rwa [List.append_nil] at h

end Fitting

section RoundTrip

variable (crates : Conversions)

theorem uintFits_iff (bits n : ℕ) (hn : n < u128Bound) : uintFits bits n = true ↔ n < 2 ^ bits := by
  unfold uintFits
  rw [Bool.or_eq_true, decide_eq_true_eq, beq_iff_eq, Nat.shiftRight_eq_div_pow,
    Nat.div_eq_zero_iff]
  have hpos : 0 < 2 ^ bits := Nat.two_pow_pos bits
  constructor
  · rintro (hbits | hzero | hlt)
    · exact lt_of_lt_of_le hn (show u128Bound ≤ 2 ^ bits from
        (show u128Bound = 2 ^ 128 by decide) ▸ Nat.pow_le_pow_right (by omega) hbits)
    · omega
    · exact hlt
  · exact fun hlt => Or.inr (Or.inr hlt)

theorem decodeElements_encode (element : StateType)
    (h : ∀ x, decode crates element (encode element x) = .ok x) (xs : List (Val element))
    (rest : List Atom) :
    decodeElements crates (alignment crates element) (decode crates element) xs.length
      ((xs.map (encode element)).flatten ++ rest) = .ok (xs, rest) := by
  induction xs with
  | nil => rfl
  | cons x xs ih =>
    rw [List.length_cons, decodeElements, List.map_cons, List.flatten_cons, List.append_assoc,
      consume_encode]
    simp only [h, ih]
    rfl

theorem decode_encode (t : StateType) (x : Val t) : decode crates t (encode t x) = .ok x := by
  induction t with
  | boolean => exact (crates.bool_ok_iff _ _).mpr rfl
  | primitive p =>
    simp only [decode, encode, crates.integer_encoded p x.val x.property, dif_pos x.property]
    rfl
  | uint bits =>
    have hread := crates.integer_encoded .u128 x.val x.property.2
    have hfits := (uintFits_iff bits x.val x.property.2).mpr x.property.1
    simp only [decode, encode]
    rw [show toLeBytes u128Bytes x.val = toLeBytes Primitive.u128.bytes x.val from rfl, hread]
    simp only [hfits, if_true, dif_pos x.property]
    rfl
  | bytes length =>
    obtain ⟨bytes, rfl⟩ := x
    simp only [decode, encode, crates.array_encoded, dite_true]
  | vector length element ih =>
    obtain ⟨xs, rfl⟩ := x
    have hall := decodeElements_encode crates element ih xs []
    rw [List.append_nil] at hall
    simp only [decode, encode, hall]
    exact dif_pos rfl
  | maybe value ih =>
    obtain ⟨isSome, x⟩ := x
    exact (crates.pair_ok_iff _ _ _ _ _).mpr ⟨_, _, _, consume_encode crates .boolean isSome _,
      consume_all crates value x, (crates.bool_ok_iff _ _).mpr rfl, ih x⟩
  | either left right ihleft ihright =>
    obtain ⟨isLeft, x, y⟩ := x
    change decode crates _ ((ofBool isLeft).value ++ encode left x ++ encode right y) = _
    rw [List.append_assoc]
    exact (crates.triple_ok_iff _ _ _ _ _ _ _).mpr ⟨_, _, _, _, _,
      consume_encode crates .boolean isLeft _, consume_encode crates left x _,
      consume_all crates right y, (crates.bool_ok_iff _ _).mpr rfl, ihleft x, ihright y⟩
  | enum variants =>
    simp only [decode, encode, crates.integer_encoded .u8 x.val x.property.2, dif_pos x.property]
    rfl

end RoundTrip

section Refusals

variable (crates : Conversions)

/-- What each atom of a type's values may be: one of the two booleans, an integer within the
bound, an array's bytes, or the discriminant of a variant. -/
def ranges : StateType → List (Atom → Prop)
  | .boolean => [fun a => a = [] ∨ a = [1]]
  | .primitive p => [fun a => ofLeBytes a < 256 ^ p.bytes]
  | .uint bits => [fun a => ofLeBytes a < 2 ^ bits]
  | .bytes length => [fun a => ∃ bytes : Bytes, crates.array length a = .ok bytes ∧ bytes.length = length]
  | .vector length element => (List.replicate length (ranges element)).flatten
  | .maybe value => (fun a => a = [] ∨ a = [1]) :: ranges value
  | .either left right => (fun a => a = [] ∨ a = [1]) :: (ranges left ++ ranges right)
  | .enum variants => [fun a => ofLeBytes a < variants.length]

/-- The atoms are as many as the type's values have, each one in its range. -/
def InRange (t : StateType) (atoms : List Atom) : Prop :=
  List.Forall₂ (fun range a => range a) (ranges crates t) atoms

theorem length_ranges (t : StateType) : (ranges crates t).length = (alignment crates t).length := by
  unfold alignment
  rw [List.length_map]
  induction t with
  | vector length element ih => simp [ranges, alignmentAtoms, ih]
  | maybe value ih => simp [ranges, alignmentAtoms, ih]
  | either left right ihleft ihright => simp [ranges, alignmentAtoms, ihleft, ihright]
  | boolean => rfl
  | primitive p => rfl
  | uint bits => rfl
  | bytes length => rfl
  | enum variants => rfl

theorem inRange_boolean {atoms : List Atom} {b : Bool} (h : crates.bool atoms = .ok b) :
    List.Forall₂ (fun (range : Atom → Prop) a => range a) [fun a => a = [] ∨ a = [1]] atoms := by
  rw [(crates.bool_ok_iff _ _).mp h]
  refine .cons ?_ .nil
  cases b with
  | false => exact Or.inl rfl
  | true => exact Or.inr rfl

theorem inRange_elements {T : Type} {element : List AlignmentAtom}
    {decode : List Atom → Except String T} {range : List (Atom → Prop)}
    (h : ∀ chunk x, decode chunk = .ok x → List.Forall₂ (fun range a => range a) range chunk)
    {n : ℕ} {atoms rest : List Atom} {xs : List T}
    (hdecode : decodeElements crates (element.map .atom) decode n atoms = .ok (xs, rest)) :
    ∃ taken, atoms = taken ++ rest ∧
      List.Forall₂ (fun range a => range a) (List.replicate n range).flatten taken := by
  induction n generalizing atoms xs with
  | zero =>
    obtain ⟨-, rfl⟩ := Prod.mk.inj (Except.ok.inj hdecode)
    exact ⟨[], rfl, .nil⟩
  | succ n ih =>
    rw [decodeElements] at hdecode
    cases hconsume : crates.consume (element.map .atom) atoms with
    | none =>
      rw [hconsume] at hdecode
      cases hdecode
    | some taken =>
      obtain ⟨chunk, tail⟩ := taken
      rw [hconsume] at hdecode
      obtain ⟨x, hx, hdecode⟩ := exists_of_bind hdecode
      obtain ⟨⟨xs', rest'⟩, hrest, hdecode⟩ := exists_of_bind hdecode
      obtain ⟨-, rfl⟩ := Prod.mk.inj (Except.ok.inj hdecode)
      obtain ⟨taken, rfl, htaken⟩ := ih hrest
      obtain ⟨rfl, -⟩ := crates.consume_splits _ _ _ _ hconsume
      refine ⟨chunk ++ taken, (List.append_assoc _ _ _).symm, ?_⟩
      rw [List.replicate_succ, List.flatten_cons]
      exact List.rel_append (h chunk x hx) htaken

theorem inRange_integer {p : Primitive} {atoms : List Atom} {n : ℕ} {bound : ℕ}
    (h : crates.integer p atoms = .ok n) (hn : n < bound) :
    List.Forall₂ (fun (range : Atom → Prop) a => range a) [fun a => ofLeBytes a < bound] atoms := by
  obtain ⟨-, a, rfl, hvalue⟩ := crates.integer_ok _ _ _ h
  exact .cons (lt_of_eq_of_lt hvalue hn) .nil

/-- What a decoder accepts is as many atoms as its type has, each one in its range. -/
theorem decode_inRange (t : StateType) (atoms : List Atom) (x : Val t)
    (h : decode crates t atoms = .ok x) : InRange crates t atoms := by
  induction t generalizing atoms with
  | boolean => exact inRange_boolean crates h
  | primitive p =>
    simp only [decode] at h
    split at h
    · cases h
    · rename_i n hread
      split at h
      · rename_i hn
        exact inRange_integer crates hread hn
      · cases h
  | uint bits =>
    simp only [decode] at h
    split at h
    · cases h
    · rename_i n hread
      split at h
      · split at h
        · rename_i hn
          exact inRange_integer crates hread hn.1
        · cases h
      · cases h
  | bytes length =>
    simp only [decode] at h
    split at h
    · split at h
      · cases h
      · rename_i bytes hread
        split at h
        · rename_i hlength
          exact .cons ⟨bytes, hread, hlength⟩ .nil
        · cases h
    · cases h
  | vector length element ih =>
    obtain ⟨⟨xs, rest⟩, hdecode, hall⟩ := exists_of_bind h
    obtain ⟨taken, rfl, htaken⟩ := inRange_elements crates (fun chunk x => ih chunk x) hdecode
    by_cases hrest : rest = []
    · subst hrest
      rw [List.append_nil]
      exact htaken
    · simp only [if_pos hrest] at hall
      cases hall
  | maybe value ih =>
    obtain ⟨isSome, x⟩ := x
    obtain ⟨first, rest, second, hfirst, hsecond, hbool, hvalue⟩ :=
      (crates.pair_ok_iff _ _ _ _ _).mp h
    obtain ⟨rfl, -⟩ := crates.consume_splits _ _ _ _ hfirst
    obtain ⟨rfl, -⟩ := crates.consume_splits _ _ _ _ hsecond
    rw [List.append_nil]
    exact List.rel_append (inRange_boolean crates hbool) (ih second x hvalue)
  | either left right ihleft ihright =>
    obtain ⟨isLeft, x, y⟩ := x
    obtain ⟨first, rest, second, rest', third, hfirst, hsecond, hthird, hbool, hleft, hright⟩ :=
      (crates.triple_ok_iff _ _ _ _ _ _ _).mp h
    obtain ⟨rfl, -⟩ := crates.consume_splits _ _ _ _ hfirst
    obtain ⟨rfl, -⟩ := crates.consume_splits _ _ _ _ hsecond
    obtain ⟨rfl, -⟩ := crates.consume_splits _ _ _ _ hthird
    rw [List.append_nil]
    exact List.rel_append (inRange_boolean crates hbool)
      (List.rel_append (ihleft second x hleft) (ihright third y hright))
  | enum variants =>
    simp only [decode] at h
    split at h
    · cases h
    · rename_i n hread
      split at h
      · rename_i hn
        exact inRange_integer crates hread hn.1
      · cases h

/-- Every value comes back from its encoding, and a slice with another number of atoms, or
with an integer or a discriminant outside its range, is refused. -/
theorem typed_values_round_trip (t : StateType) :
    (∀ x : Val t, decode crates t (encode t x) = .ok x) ∧
      (∀ atoms, atoms.length ≠ (alignment crates t).length →
        ∀ x, decode crates t atoms ≠ .ok x) ∧
      ∀ atoms, ¬ InRange crates t atoms → ∀ x, decode crates t atoms ≠ .ok x := by
  refine ⟨decode_encode crates t, fun atoms hlength x h => hlength ?_, fun atoms hrange x h =>
    hrange (decode_inRange crates t atoms x h)⟩
  rw [← length_ranges, (decode_inRange crates t atoms x h).length_eq]

end Refusals

section Samples

def takeAtoms (alignment : List AlignmentSegment) (atoms : List Atom) :
    Option (List Atom × List Atom) :=
  if alignment.length ≤ atoms.length then
    some (atoms.take alignment.length, atoms.drop alignment.length)
  else none

def readBool : List Atom → Except String Bool
  | [[]] => .ok false
  | [[1]] => .ok true
  | _ => .error "bool"

def readInteger (p : Primitive) : List Atom → Except String ℕ
  | [a] => if ofLeBytes a < 256 ^ p.bytes then .ok (ofLeBytes a) else .error "integer"
  | _ => .error "integer"

def readArray (length : ℕ) (a : Atom) : Except String Bytes :=
  if a.length ≤ length then .ok (Circuits.padded length a) else .error "[u8; N]"

def readPair {A B : Type} (x : List AlignmentSegment × (List Atom → Except String A))
    (y : List AlignmentSegment × (List Atom → Except String B)) (atoms : List Atom) :
    Except String (A × B) :=
  match takeAtoms x.1 atoms with
  | none => .error "tuple"
  | some (first, rest) =>
    match takeAtoms y.1 rest with
    | some (second, []) =>
      match x.2 first, y.2 second with
      | .ok a, .ok b => .ok (a, b)
      | _, _ => .error "tuple"
    | _ => .error "tuple"

theorem readPair_ok_iff {A B : Type} (x : List AlignmentSegment × (List Atom → Except String A))
    (y : List AlignmentSegment × (List Atom → Except String B)) (atoms : List Atom) (a : A) (b : B) :
    readPair x y atoms = .ok (a, b) ↔ ∃ first rest second, takeAtoms x.1 atoms = some (first, rest) ∧
      takeAtoms y.1 rest = some (second, []) ∧ x.2 first = .ok a ∧ y.2 second = .ok b := by
  unfold readPair
  constructor
  · intro h
    split at h
    · cases h
    · rename_i first rest hfirst
      split at h
      · rename_i second hsecond
        split at h
        · rename_i hx hy
          obtain ⟨rfl, rfl⟩ := Prod.mk.inj (Except.ok.inj h)
          exact ⟨first, rest, second, hfirst, hsecond, hx, hy⟩
        · cases h
      · cases h
  · rintro ⟨first, rest, second, hfirst, hsecond, hx, hy⟩
    simp only [hfirst, hsecond, hx, hy]

/-- A triple takes the first part off, and reads the others as a pair. -/
def readTriple {A B C : Type} (x : List AlignmentSegment × (List Atom → Except String A))
    (y : List AlignmentSegment × (List Atom → Except String B))
    (z : List AlignmentSegment × (List Atom → Except String C)) (atoms : List Atom) :
    Except String (A × B × C) :=
  match takeAtoms x.1 atoms with
  | none => .error "tuple"
  | some (first, rest) =>
    match x.2 first, readPair y z rest with
    | .ok a, .ok (b, c) => .ok (a, b, c)
    | _, _ => .error "tuple"

theorem takeAtoms_splits {alignment : List AlignmentSegment} {atoms chunk rest : List Atom}
    (h : takeAtoms alignment atoms = some (chunk, rest)) :
    atoms = chunk ++ rest ∧ chunk.length = alignment.length := by
  unfold takeAtoms at h
  split at h
  · rename_i hlength
    obtain ⟨rfl, rfl⟩ := Prod.mk.inj (Option.some.inj h)
    exact ⟨(List.take_append_drop _ _).symm, List.length_take_of_le hlength⟩
  · cases h

theorem readTriple_ok_iff {A B C : Type} (x : List AlignmentSegment × (List Atom → Except String A))
    (y : List AlignmentSegment × (List Atom → Except String B))
    (z : List AlignmentSegment × (List Atom → Except String C)) (atoms : List Atom)
    (a : A) (b : B) (c : C) :
    readTriple x y z atoms = .ok (a, b, c) ↔ ∃ first rest second rest' third,
      takeAtoms x.1 atoms = some (first, rest) ∧ takeAtoms y.1 rest = some (second, rest') ∧
      takeAtoms z.1 rest' = some (third, []) ∧
      x.2 first = .ok a ∧ y.2 second = .ok b ∧ z.2 third = .ok c := by
  unfold readTriple
  constructor
  · intro h
    split at h
    · cases h
    · rename_i first rest hfirst
      split at h
      · rename_i hx hyz
        obtain ⟨rfl, hbc⟩ := Prod.mk.inj (Except.ok.inj h)
        obtain ⟨rfl, rfl⟩ := Prod.mk.inj hbc
        obtain ⟨second, rest', third, hsecond, hthird, hy, hz⟩ := (readPair_ok_iff y z _ _ _).mp hyz
        exact ⟨first, rest, second, rest', third, hfirst, hsecond, hthird, hx, hy, hz⟩
      · cases h
  · rintro ⟨first, rest, second, rest', third, hfirst, hsecond, hthird, hx, hy, hz⟩
    have hyz := (readPair_ok_iff y z rest b c).mpr ⟨second, rest', third, hsecond, hthird, hy, hz⟩
    simp only [hfirst, hx, hyz]

/-- The conversions as the ledger documents them. -/
def plainConversions : Conversions where
  Fits
    | .bytes length, a => a.length ≤ length ∧ trim a = a
    | _, _ => False
  arrayAlignment := .bytes
  consume := takeAtoms
  bool := readBool
  integer := readInteger
  array := readArray
  pair := readPair
  triple := readTriple
  fits_bytes length a hlength htrim := ⟨hlength, htrim⟩
  fits_array bytes := ⟨length_trim_le bytes, Circuits.trim_trim bytes⟩
  consume_takes alignment chunk rest h := by
    have hlength : (alignment.map AlignmentSegment.atom).length = chunk.length := by
      rw [List.length_map, h.length_eq]
    unfold takeAtoms
    rw [hlength, List.length_append, if_pos (Nat.le_add_right _ _), List.take_left, List.drop_left]
  consume_splits alignment atoms chunk rest h := by
    obtain ⟨hatoms, hlength⟩ := takeAtoms_splits h
    exact ⟨hatoms, by rw [hlength, List.length_map]⟩
  bool_ok_iff atoms b := by
    unfold readBool
    split <;> cases b <;> simp_all [ofBool, AlignedValue.single]
  integer_encoded p n h := by
    unfold readInteger
    simp only [ofLeBytes_trim, ofLeBytes_toLeBytes p.bytes n h, if_pos h]
  integer_ok p atoms n h := by
    unfold readInteger at h
    split at h
    · rename_i a
      split at h
      · rename_i hlt
        obtain rfl := Except.ok.inj h
        exact ⟨hlt, a, rfl, rfl⟩
      · cases h
    · cases h
  array_encoded bytes := by
    unfold readArray
    rw [if_pos (length_trim_le bytes), Circuits.padded_trim]
  array_ok length a bytes h := by
    unfold readArray at h
    split at h
    · rename_i hlength
      rw [← Except.ok.inj h]
      exact Circuits.length_padded hlength
    · cases h
  pair_ok_iff := readPair_ok_iff
  triple_ok_iff := readTriple_ok_iff

def maybes : StateType := .vector 2 (.maybe (.uint 9))

def someAndNone : Val maybes := ⟨[(true, ⟨300, by decide⟩), (false, ⟨0, by decide⟩)], rfl⟩

/-- Two values that may be absent, the same atoms with a fifth one after them,
and the number 512, which takes ten bits. -/
theorem typed_values_round_trip_maybes :
    encode maybes someAndNone = [[1], [44, 1], [], []] ∧
      decode plainConversions maybes (encode maybes someAndNone) = .ok someAndNone ∧
      (∀ x, decode plainConversions maybes [[1], [44, 1], [], [], []] ≠ .ok x) ∧
      ∀ x, decode plainConversions maybes [[1], [0, 2], [], []] ≠ .ok x := by
  obtain ⟨hround, hlength, hrange⟩ := typed_values_round_trip plainConversions maybes
  refine ⟨rfl, hround _, hlength _ (by decide), hrange _ fun h => ?_⟩
  obtain - | ⟨-, - | ⟨hsecond, -⟩⟩ := h
  exact absurd hsecond (by decide)

end Samples

end MidnightRs.TypedValues
