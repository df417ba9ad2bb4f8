import MidnightRs.TypedValues
import MidnightRs.DataTypes

/-!
The decoders of the bindings. Each Rust type takes its value from a slice of atoms; a
struct decodes as a tuple of its fields, and one of many fields as nested tuples, because
no tuple of more than eleven parts has a decoder.
-/
namespace MidnightRs.TypedCalls

open MidnightRs.Compact DataTypes Results
open TypedValues (Conversions Primitive decodeElements uintFits)

section Slices

/-- The parts of a slice, taken off one after another with nothing left over. -/
def consumeEach (consume : List AlignmentSegment → List Atom → Option (List Atom × List Atom)) :
    List (List AlignmentSegment) → List Atom → Option (List (List Atom))
  | [], [] => some []
  | [], _ :: _ => none
  | part :: parts, atoms => do
    let (chunk, rest) ← consume part atoms
    let chunks ← consumeEach consume parts rest
    some (chunk :: chunks)

/-- Each atom fits the atom of the alignment at its place. -/
def FitsEach (Fits : AlignmentAtom → Atom → Prop) (alignment : List AlignmentSegment)
    (atoms : List Atom) : Prop :=
  List.Forall₂ (fun segment a => ∃ atom, segment = .atom atom ∧ Fits atom a) alignment atoms

/-- What the crates do for the types that only the bindings decode: tuples of any parts,
the bytes of an opaque value, and the elements of the native field. -/
structure Decoding (c : Codecs) extends Conversions where
  tuple : List (List AlignmentSegment) → List Atom → Option (List (List Atom))
  vecU8 : List Atom → Except String Bytes
  fr : Codec [.atom .field]
  /-- Tuples of up to eleven parts take the parts in order. -/
  tuple_eq : ∀ parts atoms, parts.length ≤ maxTupleLen →
    tuple parts atoms = consumeEach consume parts atoms
  vecU8_ok : ∀ a, vecU8 [a] = .ok a
  arrayAlignment_eq : ∀ length, arrayAlignment length = .bytes (asU32 length)
  fits_opaque : ∀ bytes : Bytes, Fits .compress (trim bytes)
  fits_fr : ∀ atoms, fr.reencode atoms = some atoms → FitsEach Fits [.atom .field] atoms
  fits_field : ∀ f atoms, (c.field f).reencode atoms = some atoms → FitsEach Fits f.alignment atoms
  fits_point : ∀ p atoms, (c.point p).reencode atoms = some atoms → FitsEach Fits p.alignment atoms

end Slices

section Tuples

/-- A tuple type of the decoder's pattern. -/
inductive Shape where
  | leaf (alignment : List AlignmentSegment)
  | tuple (parts : List Shape)

mutual

def Shape.alignment : Shape → List AlignmentSegment
  | .leaf segments => segments
  | .tuple parts => (alignments parts).flatten

def alignments : List Shape → List (List AlignmentSegment)
  | [] => []
  | part :: parts => part.alignment :: alignments parts

end

/-- The items in chunks of at most as many as a tuple has. -/
def tupleChunks {α : Type} : List α → List (List α)
  | [] => []
  | x :: xs => (x :: xs.take (maxTupleLen - 1)) :: tupleChunks (xs.drop (maxTupleLen - 1))
termination_by xs => xs.length
decreasing_by
  simp only [List.length_drop, List.length_cons]
  omega

theorem length_tupleChunks_le {α : Type} (xs : List α) :
    maxTupleLen * (tupleChunks xs).length ≤ xs.length + (maxTupleLen - 1) := by
  fun_induction tupleChunks xs with
  | case1 => simp
  | case2 x xs ih =>
    simp only [maxTupleLen, List.length_cons, List.length_drop] at ih ⊢
    omega

/-- The tuple pattern of a list of items. A chunk is short enough to be one tuple. -/
def nestedTuple (items : List Shape) : Shape :=
  if items.length ≤ maxTupleLen then .tuple items
  else nestedTuple ((tupleChunks items).map .tuple)
termination_by items.length
decreasing_by
  rename_i hlong
  have hle := length_tupleChunks_le items
  rw [List.length_map]
  unfold maxTupleLen at hle hlong
  omega

variable {c : Codecs} (crates : Decoding c)

mutual

/-- The atoms of each leaf of a pattern. -/
def Shape.split : Shape → List Atom → Option (List (List Atom))
  | .leaf _, atoms => some [atoms]
  | .tuple parts, atoms => (crates.tuple (alignments parts) atoms).bind (splitEach parts)

def splitEach : List Shape → List (List Atom) → Option (List (List Atom))
  | part :: parts, chunk :: chunks => do
    let own ← part.split chunk
    let rest ← splitEach parts chunks
    some (own ++ rest)
  | _, _ => some []

end

end Tuples

section Parts

variable {c : Codecs} (crates : Decoding c)

/-- What the crate of a field makes of atoms. -/
def fieldCodec (f : FieldType) : List Atom → Option (List Atom) :=
  match ForeignField.of f with
  | some foreign => (c.field foreign).reencode
  | none => crates.fr.reencode

instance decidableFieldAtoms (f : FieldType) (atoms : List Atom) :
    Decidable (FieldAtoms c f atoms) :=
  match h : ForeignField.of f with
  | some foreign => decidable_of_iff ((c.field foreign).reencode atoms = some atoms)
      (by simp only [FieldAtoms, h])
  | none => decidable_of_iff (atoms.length = 1) (by simp only [FieldAtoms, h])

instance decidablePointAtoms (curve : Curve) (atoms : List Atom) :
    Decidable (PointAtoms c curve atoms) :=
  match curve with
  | .jubjub => inferInstanceAs (Decidable (atoms.length = 2))
  | .secp256k1 => inferInstanceAs (Decidable ((c.point .secp256k1).reencode atoms = some atoms))
  | .secp256r1 => inferInstanceAs (Decidable ((c.point .secp256r1).reencode atoms = some atoms))
  | .curve25519 => inferInstanceAs (Decidable ((c.point .curve25519).reencode atoms = some atoms))

def fieldName (f : FieldType) : String :=
  match ForeignField.of f with
  | some foreign => foreign.name
  | none => "Fr"

def decodeField (f : FieldType) (atoms : List Atom) :
    Except String { atoms : List Atom // FieldAtoms c f atoms } :=
  match fieldCodec crates f atoms with
  | none => .error (fieldName f)
  | some element => if h : FieldAtoms c f element then .ok ⟨element, h⟩ else .error (fieldName f)

def decodePoint (curve : Curve) (atoms : List Atom) :
    Except String { atoms : List Atom // PointAtoms c curve atoms } :=
  match (c.point curve).reencode atoms with
  | none => .error curve.pointName
  | some point => if h : PointAtoms c curve point then .ok ⟨point, h⟩ else .error curve.pointName

def decodeOpaque : (tokens : OpaqueTokens) → List Atom → Except String tokens.Val
  | .embeddedGroupAffine, atoms =>
    match (c.point .jubjub).reencode atoms with
    | some [x, y] => .ok (x, y)
    | _ => .error "EmbeddedGroupAffine"
  | .transientFr, atoms =>
    match crates.fr.reencode atoms with
    | some [a] => .ok a
    | _ => .error "Fr"
  | .vecU8, atoms => crates.vecU8 atoms

def primitiveOf : ℕ → Primitive
  | 1 => .u8
  | 2 => .u16
  | 4 => .u32
  | 8 => .u64
  | _ => .u128

def decodeUint : (tokens : UintTokens) → List Atom → Except String { n : ℕ // tokens.Holds n }
  | .primitive bytes, atoms =>
    match crates.integer (primitiveOf bytes) atoms with
    | .error e => .error e
    | .ok n => if h : n < 256 ^ bytes then .ok ⟨n, h⟩ else .error "integer"
  | .uint bits, atoms => TypedValues.decode crates.toConversions (.uint bits) atoms
  | .compileError, _ => .error "compile_error"

end Parts

section Decode

variable {c : Codecs} (crates : Decoding c)

def fieldShapes (fields : List (String × Ty)) : List Shape :=
  fields.map fun field => .leaf (alignmentExpr field.2)

def decodeBytes (length : ℕ) (atoms : List Atom) :
    Except String { bytes : Bytes // bytes.length = length } :=
  TypedValues.decode crates.toConversions (.bytes length) atoms

mutual

/-- The value that the Rust type of a Compact type takes from atoms. -/
def decodeValue : (ty : Ty) → List Atom → Except String (RustVal c ty)
  | .boolean, atoms => crates.bool atoms
  | .field f, atoms => decodeField crates f atoms
  | .unsigned maxval, atoms => decodeUint crates (uintTokens maxval) atoms
  | .point curve, atoms => decodePoint curve atoms
  | .bytes length, atoms => decodeBytes crates length atoms
  | .opaqueData name, atoms => decodeOpaque crates (opaqueTokens name) atoms
  | .vector len ty, atoms => do
    let (xs, rest) ←
      decodeElements crates.toConversions (alignmentExpr ty) (decodeValue ty) len atoms
    if rest ≠ [] then .error "Vector"
    else if h : xs.length = len then .ok ⟨xs, h⟩
    else .error "Vector"
  | .tuple types, atoms =>
    -- A longer tuple is an error when the bindings compile.
    if maxTupleLen < types.length then .error "compile_error"
    else
      match crates.tuple (types.map alignmentExpr) atoms with
      | none => .error "tuple"
      | some chunks => decodeTuple types chunks
  | .struct _ fields, atoms =>
    match (nestedTuple (fieldShapes fields)).split crates atoms with
    | none => .error "tuple"
    | some chunks => decodeFields fields chunks
  | .enum name variants, atoms =>
    match crates.integer .u8 atoms with
    | .error e => .error e
    | .ok i =>
      if h : i < variants.length ∧ variants.length ≤ 256 then .ok ⟨i, h⟩
      else .error s!"invalid {name} variant"
  | .aliasOf _ _ ty, atoms => decodeValue ty atoms
  | .contract _, atoms =>
    match (nestedTuple (fieldShapes [("bytes", .bytes 32)])).split crates atoms with
    | some [chunk] =>
      match decodeBytes crates 32 chunk with
      | .ok bytes => .ok (bytes, ())
      | .error e => .error e
    | _ => .error "tuple"
  | .adt _, atoms => crates.vecU8 atoms
  | .typeVar _, atoms => crates.vecU8 atoms
  | .unknown, atoms => crates.vecU8 atoms

def decodeTuple : (types : List Ty) → List (List Atom) → Except String (RustTuple c types)
  | [], _ => .ok ()
  | ty :: types, chunk :: chunks => do
    let x ← decodeValue ty chunk
    let xs ← decodeTuple types chunks
    .ok (x, xs)
  | _ :: _, [] => .error "tuple"

def decodeFields :
    (fields : List (String × Ty)) → List (List Atom) → Except String (RustFields c fields)
  | [], _ => .ok ()
  | (_, ty) :: fields, chunk :: chunks => do
    let x ← decodeValue ty chunk
    let xs ← decodeFields fields chunks
    .ok (x, xs)
  | _ :: _, [] => .error "tuple"

end

end Decode

section Values

variable {c : Codecs} (crates : Decoding c)

mutual

/-- No tuple has more parts than a Rust tuple decodes. -/
def NarrowTuples : Ty → Prop
  | .vector _ ty => NarrowTuples ty
  | .tuple types => types.length ≤ maxTupleLen ∧ NarrowEach types
  | .struct _ fields => NarrowFields fields
  | .aliasOf _ _ ty => NarrowTuples ty
  | .boolean => True
  | .field _ => True
  | .unsigned _ => True
  | .point _ => True
  | .bytes _ => True
  | .opaqueData _ => True
  | .enum _ _ => True
  | .contract _ => True
  | .adt _ => True
  | .typeVar _ => True
  | .unknown => True

def NarrowEach : List Ty → Prop
  | [] => True
  | ty :: types => NarrowTuples ty ∧ NarrowEach types

def NarrowFields : List (String × Ty) → Prop
  | [] => True
  | (_, ty) :: fields => NarrowTuples ty ∧ NarrowFields fields

end

/-- The atoms are those that the crate of the type writes. -/
def WrittenOpaque : (tokens : OpaqueTokens) → tokens.Val → Prop
  | .embeddedGroupAffine, (x, y) => (c.point .jubjub).reencode [x, y] = some [x, y]
  | .transientFr, a => crates.fr.reencode [a] = some [a]
  | .vecU8, _ => True

/-- The value without the zeros at its end. -/
def settledOpaque : (tokens : OpaqueTokens) → tokens.Val → tokens.Val
  | .embeddedGroupAffine, x => x
  | .transientFr, a => a
  | .vecU8, bytes => trim bytes

mutual

/-- Every field element and point of the value has the atoms that its crate writes. -/
def Written : (ty : Ty) → RustVal c ty → Prop
  | .field f, x => fieldCodec crates f x.val = some x.val
  | .point curve, x => (c.point curve).reencode x.val = some x.val
  | .opaqueData name, x => WrittenOpaque crates (opaqueTokens name) x
  | .vector _ ty, xs => ∀ x ∈ xs.val, Written ty x
  | .tuple types, xs => WrittenEach types xs
  | .struct _ fields, xs => WrittenFields fields xs
  | .aliasOf _ _ ty, x => Written ty x
  | .boolean, _ => True
  | .unsigned _, _ => True
  | .bytes _, _ => True
  | .enum _ _, _ => True
  | .contract _, _ => True
  | .adt _, _ => True
  | .typeVar _, _ => True
  | .unknown, _ => True

def WrittenEach : (types : List Ty) → RustTuple c types → Prop
  | [], _ => True
  | ty :: types, (x, xs) => Written ty x ∧ WrittenEach types xs

def WrittenFields : (fields : List (String × Ty)) → RustFields c fields → Prop
  | [], _ => True
  | (_, ty) :: fields, (x, xs) => Written ty x ∧ WrittenFields fields xs

end

mutual

/-- The value that comes back: an opaque byte string loses the zeros at its end, because an
atom has none there. -/
def settled : (ty : Ty) → RustVal c ty → RustVal c ty
  | .opaqueData name, x => settledOpaque (opaqueTokens name) x
  | .vector _ ty, xs => ⟨xs.val.map (settled ty), (List.length_map _).trans xs.property⟩
  | .tuple types, xs => settledEach types xs
  | .struct _ fields, xs => settledFields fields xs
  | .aliasOf _ _ ty, x => settled ty x
  | .boolean, b => b
  | .field _, x => x
  | .unsigned _, n => n
  | .point _, x => x
  | .bytes _, x => x
  | .enum _ _, i => i
  | .contract _, x => x
  | .adt _, x => x
  | .typeVar _, x => x
  | .unknown, x => x

def settledEach : (types : List Ty) → RustTuple c types → RustTuple c types
  | [], xs => xs
  | ty :: types, (x, xs) => (settled ty x, settledEach types xs)

def settledFields : (fields : List (String × Ty)) → RustFields c fields → RustFields c fields
  | [], xs => xs
  | (_, ty) :: fields, (x, xs) => (settled ty x, settledFields fields xs)

end

mutual

/-- No opaque byte string of the value ends in a zero. -/
def Trimmed : (ty : Ty) → RustVal c ty → Prop
  | .opaqueData name, x => settledOpaque (opaqueTokens name) x = x
  | .vector _ ty, xs => ∀ x ∈ xs.val, Trimmed ty x
  | .tuple types, xs => TrimmedEach types xs
  | .struct _ fields, xs => TrimmedFields fields xs
  | .aliasOf _ _ ty, x => Trimmed ty x
  | .boolean, _ => True
  | .field _, _ => True
  | .unsigned _, _ => True
  | .point _, _ => True
  | .bytes _, _ => True
  | .enum _ _, _ => True
  | .contract _, _ => True
  | .adt _, _ => True
  | .typeVar _, _ => True
  | .unknown, _ => True

def TrimmedEach : (types : List Ty) → RustTuple c types → Prop
  | [], _ => True
  | ty :: types, (x, xs) => Trimmed ty x ∧ TrimmedEach types xs

def TrimmedFields : (fields : List (String × Ty)) → RustFields c fields → Prop
  | [], _ => True
  | (_, ty) :: fields, (x, xs) => Trimmed ty x ∧ TrimmedFields fields xs

end

end Values

section Splitting

variable {c : Codecs} (crates : Decoding c)

theorem fitsEach_atoms {Fits : AlignmentAtom → Atom → Prop} {part : List AlignmentSegment}
    {chunk : List Atom} (h : FitsEach Fits part chunk) :
    ∃ atoms, part = atoms.map .atom ∧ List.Forall₂ Fits atoms chunk := by
  induction h with
  | nil => exact ⟨[], rfl, .nil⟩
  | cons ha _ ih =>
    obtain ⟨atom, rfl, hfits⟩ := ha
    obtain ⟨atoms, rfl, hrest⟩ := ih
    exact ⟨atom :: atoms, rfl, .cons hfits hrest⟩

theorem consume_fits {part : List AlignmentSegment} {chunk : List Atom}
    (h : FitsEach crates.Fits part chunk) (rest : List Atom) :
    crates.consume part (chunk ++ rest) = some (chunk, rest) := by
  obtain ⟨atoms, rfl, hfits⟩ := fitsEach_atoms h
  exact crates.consume_takes atoms chunk rest hfits

/-- Chunks that fit the parts of a tuple are what its decoder takes apart. -/
theorem tuple_fits {parts : List (List AlignmentSegment)} {chunks : List (List Atom)}
    (hlen : parts.length ≤ maxTupleLen) (h : List.Forall₂ (FitsEach crates.Fits) parts chunks) :
    crates.tuple parts chunks.flatten = some chunks := by
  rw [crates.tuple_eq parts _ hlen]
  clear hlen
  induction h with
  | nil => rfl
  | cons hpart _ ih =>
    rw [List.flatten_cons, consumeEach, consume_fits crates hpart]
    show (consumeEach crates.consume _ _ >>= fun chunks => some (_ :: chunks)) = _
    rw [ih]
    rfl

mutual

def Shape.leaves : Shape → List (List AlignmentSegment)
  | .leaf segments => [segments]
  | .tuple parts => leavesEach parts

def leavesEach : List Shape → List (List AlignmentSegment)
  | [] => []
  | part :: parts => part.leaves ++ leavesEach parts

end

mutual

/-- Each tuple of the pattern has a decoder. -/
def Shape.Narrow : Shape → Prop
  | .leaf _ => True
  | .tuple parts => parts.length ≤ maxTupleLen ∧ NarrowParts parts

def NarrowParts : List Shape → Prop
  | [] => True
  | part :: parts => part.Narrow ∧ NarrowParts parts

end

theorem narrowParts_iff {parts : List Shape} : NarrowParts parts ↔ ∀ part ∈ parts, part.Narrow := by
  induction parts with
  | nil => simp [NarrowParts]
  | cons part parts ih => simp [NarrowParts, ih]

theorem length_alignments (parts : List Shape) : (alignments parts).length = parts.length := by
  induction parts with
  | nil => rfl
  | cons part parts ih => rw [alignments, List.length_cons, ih, List.length_cons]

theorem leavesEach_append (parts parts' : List Shape) :
    leavesEach (parts ++ parts') = leavesEach parts ++ leavesEach parts' := by
  induction parts with
  | nil => rfl
  | cons part parts ih => rw [List.cons_append, leavesEach, ih, leavesEach, List.append_assoc]

theorem exists_append_of_forall₂ {α β : Type} {R : α → β → Prop} {xs ys : List α} {zs : List β}
    (h : List.Forall₂ R (xs ++ ys) zs) :
    ∃ zs₁ zs₂, zs = zs₁ ++ zs₂ ∧ List.Forall₂ R xs zs₁ ∧ List.Forall₂ R ys zs₂ := by
  induction xs generalizing zs with
  | nil => exact ⟨[], zs, rfl, .nil, h⟩
  | cons x xs ih =>
    cases h with
    | cons hx hxs =>
      obtain ⟨zs₁, zs₂, rfl, h₁, h₂⟩ := ih hxs
      exact ⟨_ :: zs₁, zs₂, rfl, .cons hx h₁, h₂⟩

mutual

/-- A pattern gives each of its leaves the chunk that fits it, however deep it nests. -/
theorem split_leaves : (s : Shape) → s.Narrow → (chunks : List (List Atom)) →
    List.Forall₂ (FitsEach crates.Fits) s.leaves chunks →
    FitsEach crates.Fits s.alignment chunks.flatten ∧ s.split crates chunks.flatten = some chunks
  | .leaf segments, _, chunks, h => by
    cases h with
    | cons hchunk hnil =>
      cases hnil
      simp only [List.flatten_cons, List.flatten_nil, List.append_nil]
      exact ⟨hchunk, rfl⟩
  | .tuple parts, hnarrow, chunks, h => by
    obtain ⟨groups, hfits, hflat, hsplit⟩ := splitEach_leaves parts hnarrow.2 chunks h
    rw [← hflat]
    refine ⟨List.rel_flatten hfits, ?_⟩
    have hlen : (alignments parts).length ≤ maxTupleLen :=
      (length_alignments parts).trans_le hnarrow.1
    rw [Shape.split, tuple_fits crates hlen hfits]
    exact hsplit

theorem splitEach_leaves : (parts : List Shape) → NarrowParts parts →
    (chunks : List (List Atom)) → List.Forall₂ (FitsEach crates.Fits) (leavesEach parts) chunks →
    ∃ groups, List.Forall₂ (FitsEach crates.Fits) (alignments parts) groups ∧
      groups.flatten = chunks.flatten ∧ splitEach crates parts groups = some chunks
  | [], _, chunks, h => by
    cases h
    exact ⟨[], .nil, rfl, rfl⟩
  | part :: parts, hnarrow, chunks, h => by
    obtain ⟨own, rest, rfl, hown, hrest⟩ := exists_append_of_forall₂ h
    obtain ⟨hfits, hsplit⟩ := split_leaves part hnarrow.1 own hown
    obtain ⟨groups, hgroups, hflat, hsplits⟩ := splitEach_leaves parts hnarrow.2 rest hrest
    refine ⟨own.flatten :: groups, .cons hfits hgroups, ?_, ?_⟩
    · rw [List.flatten_cons, hflat, List.flatten_append]
    · rw [splitEach, hsplit, hsplits]
      rfl

end

theorem tupleChunks_spec {α : Type} (xs : List α) :
    (tupleChunks xs).flatten = xs ∧ ∀ chunk ∈ tupleChunks xs, chunk.length ≤ maxTupleLen := by
  fun_induction tupleChunks xs with
  | case1 => simp
  | case2 x xs ih =>
    constructor
    · rw [List.flatten_cons, ih.1, List.cons_append, List.take_append_drop]
    · intro chunk hchunk
      rcases List.mem_cons.mp hchunk with rfl | hchunk
      · simp only [List.length_cons, List.length_take, maxTupleLen]
        omega
      · exact ih.2 chunk hchunk

/-- Nesting keeps the leaves in order, and makes every tuple narrow. -/
theorem nestedTuple_spec (items : List Shape) (h : NarrowParts items) :
    (nestedTuple items).Narrow ∧ (nestedTuple items).leaves = leavesEach items := by
  fun_induction nestedTuple items with
  | case1 items hlen => exact ⟨⟨hlen, h⟩, rfl⟩
  | case2 items hlong ih =>
    obtain ⟨hflat, hshort⟩ := tupleChunks_spec items
    have hnarrow : NarrowParts ((tupleChunks items).map Shape.tuple) := by
      refine narrowParts_iff.mpr fun part hpart => ?_
      obtain ⟨chunk, hchunk, rfl⟩ := List.mem_map.mp hpart
      refine ⟨hshort chunk hchunk, narrowParts_iff.mpr fun item hitem => ?_⟩
      refine narrowParts_iff.mp h item ?_
      rw [← hflat]
      exact List.mem_flatten.mpr ⟨chunk, hchunk, hitem⟩
    refine ⟨(ih hnarrow).1, (ih hnarrow).2.trans ?_⟩
    have hleaves : ∀ chunks : List (List Shape),
        leavesEach (chunks.map Shape.tuple) = leavesEach chunks.flatten := by
      intro chunks
      induction chunks with
      | nil => rfl
      | cons chunk chunks ih =>
        rw [List.map_cons, leavesEach, ih, List.flatten_cons, leavesEach_append, Shape.leaves]
    rw [hleaves, hflat]

/-- A struct of any number of fields takes its slice apart at the fields. -/
theorem split_fields (fields : List (String × Ty)) {chunks : List (List Atom)}
    (h : List.Forall₂ (FitsEach crates.Fits) (fields.map fun field => alignmentExpr field.2)
      chunks) :
    (nestedTuple (fieldShapes fields)).split crates chunks.flatten = some chunks := by
  have hparts : NarrowParts (fieldShapes fields) ∧
      leavesEach (fieldShapes fields) = fields.map fun field => alignmentExpr field.2 := by
    clear h
    induction fields with
    | nil => exact ⟨trivial, rfl⟩
    | cons field fields ih => exact ⟨⟨trivial, ih.1⟩, congrArg (_ :: ·) ih.2⟩
  obtain ⟨hnarrow, hleaves⟩ := nestedTuple_spec _ hparts.1
  rw [hparts.2] at hleaves
  exact (split_leaves crates _ hnarrow chunks (by rwa [hleaves])).2

end Splitting

section Fitting

variable {c : Codecs} (crates : Decoding c)

theorem holds_lt_u128 {maxval n : ℕ} (h : (uintTokens maxval).Holds n) : n < u128Bound := by
  unfold uintTokens at h
  split at h
  · exact h.elim
  · split at h
    · rename_i hwidth
      have hle : uintByteWidth maxval ≤ u128Bytes := by
        simp only [List.mem_cons, List.not_mem_nil, or_false] at hwidth
        unfold u128Bytes
        omega
      exact lt_of_lt_of_le h (Nat.pow_le_pow_right (by omega) hle)
    · exact h.2

theorem fits_integer (width : ℕ) {n : ℕ} (hn : n < u128Bound) (hwidth : n < 256 ^ width) :
    FitsEach crates.Fits [.atom (.bytes width)] [trim (toLeBytes u128Bytes n)] := by
  rw [trim_toLeBytes_eq u128Bytes width n hn hwidth]
  exact .cons ⟨_, rfl, crates.fits_bytes _ _ (TypedValues.length_trim_toLeBytes_le width n)
    (Circuits.trim_trim _)⟩ .nil

theorem fits_uint {maxval n : ℕ} (h : (uintTokens maxval).Holds n) :
    FitsEach crates.Fits [.atom (uintTokens maxval).alignment]
      ((uintTokens maxval).toAligned n).value := by
  have hn := holds_lt_u128 h
  revert h
  cases uintTokens maxval with
  | primitive bytes => exact fits_integer crates bytes hn
  | uint bits => exact fun h => fits_integer crates _ hn (TypedValues.lt_pow_uint h.1)
  | compileError => exact fun h => h.elim

theorem fits_byteArray {length : ℕ} (x : { bytes : Bytes // bytes.length = length }) :
    FitsEach crates.Fits [.atom (.bytes (asU32 length))] (bytesToAligned length x.val).value := by
  obtain ⟨bytes, rfl⟩ := x
  refine .cons ⟨_, rfl, ?_⟩ .nil
  rw [← crates.arrayAlignment_eq]
  exact crates.fits_array bytes

theorem fits_opaque (tokens : OpaqueTokens) (x : tokens.Val) (h : WrittenOpaque crates tokens x) :
    FitsEach crates.Fits tokens.alignment (tokens.toAligned x).value := by
  cases tokens with
  | embeddedGroupAffine => exact crates.fits_point .jubjub _ h
  | transientFr => exact crates.fits_fr _ h
  | vecU8 => exact .cons ⟨_, rfl, crates.fits_opaque x⟩ .nil

theorem fits_field (f : FieldType) {atoms : List Atom}
    (h : fieldCodec crates f atoms = some atoms) :
    FitsEach crates.Fits (fieldAlignment f) atoms := by
  unfold fieldCodec at h
  unfold fieldAlignment
  cases hf : ForeignField.of f with
  | some foreign =>
    rw [hf] at h
    exact crates.fits_field foreign atoms h
  | none =>
    rw [hf] at h
    exact crates.fits_fr atoms h

theorem alignmentOfEach_eq (types : List Ty) :
    alignmentOfEach types = (types.map alignmentExpr).flatten := by
  induction types with
  | nil => rfl
  | cons ty types ih => rw [alignmentOfEach, ih, List.map_cons, List.flatten_cons]

theorem alignmentOfFields_eq (fields : List (String × Ty)) :
    alignmentOfFields fields = (fields.map fun field => alignmentExpr field.2).flatten := by
  induction fields with
  | nil => rfl
  | cons field fields ih => rw [alignmentOfFields, ih, List.map_cons, List.flatten_cons]

mutual

/-- The atoms of a value fit the alignment of its type. -/
theorem encode_fits : (ty : Ty) → Executable ty → (x : RustVal c ty) → Written crates ty x →
    FitsEach crates.Fits (alignmentExpr ty) (encodeToAlignedValue ty x).value
  | .boolean, _, b, _ =>
    .cons ⟨_, rfl, crates.fits_bytes 1 _ (by cases b <;> decide) (by cases b <;> decide)⟩ .nil
  | .field f, _, _, hx => fits_field crates f hx
  | .unsigned _, _, n, _ => fits_uint crates n.property
  | .point curve, _, x, hx => crates.fits_point curve x.val hx
  | .bytes _, _, x, _ => fits_byteArray crates x
  | .opaqueData name, _, x, hx => fits_opaque crates (opaqueTokens name) x hx
  | .vector len ty, hty, xs, hxs => by
    have hlen : List.replicate len (alignmentExpr ty) = xs.val.map fun _ => alignmentExpr ty := by
      rw [List.map_const']
      exact congrArg (List.replicate · _) xs.property.symm
    simp only [encodeToAlignedValue, alignmentExpr, AlignedValue.concat]
    refine List.rel_flatten ?_
    rw [hlen, List.map_map, List.forall₂_map_left_iff, List.forall₂_map_right_iff,
      List.forall₂_same]
    exact fun x hx => encode_fits ty hty x (hxs x hx)
  | .tuple types, hty, xs, hxs => by
    have h := List.rel_flatten (encodeElements_fits types hty xs hxs)
    simp only [encodeToAlignedValue, alignmentExpr, AlignedValue.concat, alignmentOfEach_eq]
    exact h
  | .struct _ fields, hty, xs, hxs => by
    have h := List.rel_flatten (encodeFieldValues_fits fields hty xs hxs)
    simp only [encodeToAlignedValue, alignmentExpr, AlignedValue.concat, alignmentOfFields_eq]
    exact h
  | .enum _ _, _, i, _ => by
    refine .cons ⟨_, rfl, crates.fits_bytes 1 _ ?_ (Circuits.trim_trim _)⟩ .nil
    exact TypedValues.length_trim_toLeBytes_le 1 i.val
  | .aliasOf _ _ ty, hty, x, hx => encode_fits ty hty x hx
  | .contract _, _, x, _ => by
    simp only [encodeToAlignedValue, AlignedValue.concat, List.map_cons, List.map_nil,
      List.flatten_cons, List.flatten_nil, List.append_nil]
    exact fits_byteArray crates x.1

theorem encodeElements_fits : (types : List Ty) → AllExecutable types → (xs : RustTuple c types) →
    WrittenEach crates types xs →
    List.Forall₂ (FitsEach crates.Fits) (types.map alignmentExpr)
      ((encodeElements types xs).map AlignedValue.value)
  | [], _, _, _ => .nil
  | ty :: types, hty, (x, xs), hxs =>
    .cons (encode_fits ty hty.1 x hxs.1) (encodeElements_fits types hty.2 xs hxs.2)

theorem encodeFieldValues_fits : (fields : List (String × Ty)) → FieldsExecutable fields →
    (xs : RustFields c fields) → WrittenFields crates fields xs →
    List.Forall₂ (FitsEach crates.Fits) (fields.map fun field => alignmentExpr field.2)
      ((encodeFieldValues fields xs).map AlignedValue.value)
  | [], _, _, _ => .nil
  | (_, ty) :: fields, hty, (x, xs), hxs =>
    .cons (encode_fits ty hty.1 x hxs.1) (encodeFieldValues_fits fields hty.2 xs hxs.2)

end

end Fitting

section RoundTrip

variable {c : Codecs} (crates : Decoding c)

theorem bytes_primitiveOf {maxval bytes : ℕ} (h : uintTokens maxval = .primitive bytes) :
    (primitiveOf bytes).bytes = bytes := by
  unfold uintTokens at h
  split at h
  · cases h
  · split at h
    · rename_i hwidth
      cases h
      simp only [List.mem_cons, List.not_mem_nil, or_false] at hwidth
      rcases hwidth with h | h | h | h | h <;> rw [h] <;> rfl
    · cases h

theorem decodeUint_encode {maxval n : ℕ} (h : (uintTokens maxval).Holds n) :
    decodeUint crates (uintTokens maxval) ((uintTokens maxval).toAligned n).value = .ok ⟨n, h⟩ := by
  have hn := holds_lt_u128 h
  have hprimitive := fun bytes => @bytes_primitiveOf maxval bytes
  revert h hprimitive
  cases uintTokens maxval with
  | primitive bytes =>
    intro h hprimitive
    have hbytes := hprimitive bytes rfl
    have hlt : n < 256 ^ (primitiveOf bytes).bytes := hbytes.symm ▸ h
    have hread := crates.integer_encoded (primitiveOf bytes) n hlt
    rw [← trim_toLeBytes_eq u128Bytes _ n hn hlt] at hread
    simp only [decodeUint, UintTokens.toAligned, AlignedValue.single, hread]
    exact dif_pos h
  | uint bits => exact fun h _ => TypedValues.decode_encode crates.toConversions (.uint bits) ⟨n, h⟩
  | compileError => exact fun h => h.elim

theorem decodeField_encode (f : FieldType) (x : { atoms : List Atom // FieldAtoms c f atoms })
    (h : fieldCodec crates f x.val = some x.val) : decodeField crates f x.val = .ok x := by
  simp only [decodeField, h]
  exact dif_pos x.property

theorem decodePoint_encode (curve : Curve) (x : { atoms : List Atom // PointAtoms c curve atoms })
    (h : (c.point curve).reencode x.val = some x.val) : decodePoint curve x.val = .ok x := by
  simp only [decodePoint, h]
  exact dif_pos x.property

theorem decodeBytes_encode {length : ℕ} (x : { bytes : Bytes // bytes.length = length }) :
    decodeBytes crates length (bytesToAligned length x.val).value = .ok x :=
  TypedValues.decode_encode crates.toConversions (.bytes length) x

theorem decodeOpaque_encode (tokens : OpaqueTokens) (x : tokens.Val)
    (h : WrittenOpaque crates tokens x) :
    decodeOpaque crates tokens (tokens.toAligned x).value = .ok (settledOpaque tokens x) := by
  cases tokens with
  | embeddedGroupAffine =>
    obtain ⟨a, b⟩ := x
    have h : (c.point .jubjub).reencode [a, b] = some [a, b] := h
    simp only [decodeOpaque, OpaqueTokens.toAligned]
    rw [h]
    rfl
  | transientFr =>
    have h : crates.fr.reencode [x] = some [x] := h
    simp only [decodeOpaque, OpaqueTokens.toAligned, AlignedValue.single, h]
    rfl
  | vecU8 => exact crates.vecU8_ok (trim x)

/-- A vector takes its elements off one by one. -/
theorem decodeElements_fits {S T : Type} {segments : List AlignmentSegment}
    {decode : List Atom → Except String T} {encode : S → List Atom} {out : S → T} (xs : List S)
    (h : ∀ x ∈ xs, FitsEach crates.Fits segments (encode x) ∧ decode (encode x) = .ok (out x)) :
    decodeElements crates.toConversions segments decode xs.length (xs.map encode).flatten =
      .ok (xs.map out, []) := by
  induction xs with
  | nil => rfl
  | cons x xs ih =>
    obtain ⟨hfits, hdecode⟩ := h x List.mem_cons_self
    rw [List.length_cons, decodeElements, List.map_cons, List.flatten_cons,
      consume_fits crates hfits]
    simp only [hdecode, ih fun y hy => h y (List.mem_cons_of_mem x hy)]
    rfl

mutual

/-- The Rust type of a Compact type takes back what its values are written as. -/
theorem decodeValue_encode : (ty : Ty) → Executable ty → NarrowTuples ty → (x : RustVal c ty) →
    Written crates ty x →
    decodeValue crates ty (encodeToAlignedValue ty x).value = .ok (settled ty x)
  | .boolean, _, _, b, _ => (crates.bool_ok_iff _ b).mpr rfl
  | .field f, _, _, x, hx => decodeField_encode crates f x hx
  | .unsigned _, _, _, n, _ => decodeUint_encode crates n.property
  | .point curve, _, _, x, hx => decodePoint_encode curve x hx
  | .bytes _, _, _, x, _ => decodeBytes_encode crates x
  | .opaqueData name, _, _, x, hx => decodeOpaque_encode crates (opaqueTokens name) x hx
  | .vector len ty, hty, hnarrow, xs, hxs => by
    have hlen : xs.val.length = len := xs.property
    have hall := decodeElements_fits crates xs.val fun x hx =>
      ⟨encode_fits crates ty hty x (hxs x hx), decodeValue_encode ty hty hnarrow x (hxs x hx)⟩
    rw [hlen] at hall
    simp only [decodeValue, encodeToAlignedValue, AlignedValue.concat, List.map_map,
      Function.comp_def]
    rw [hall]
    exact dif_pos ((List.length_map _).trans hlen)
  | .tuple types, hty, hnarrow, xs, hxs => by
    have hlen : ¬ maxTupleLen < types.length := Nat.not_lt.mpr hnarrow.1
    have htuple := tuple_fits crates ((List.length_map _).trans_le hnarrow.1)
      (encodeElements_fits crates types hty xs hxs)
    simp only [decodeValue, encodeToAlignedValue, AlignedValue.concat, htuple]
    exact (if_neg hlen).trans (decodeTuple_encode types hty hnarrow.2 xs hxs)
  | .struct _ fields, hty, hnarrow, xs, hxs => by
    have hsplit := split_fields crates fields (encodeFieldValues_fits crates fields hty xs hxs)
    simp only [decodeValue, encodeToAlignedValue, AlignedValue.concat, hsplit]
    exact decodeFields_encode fields hty hnarrow xs hxs
  | .enum _ variants, _, _, i, _ => by
    have hbyte : i.val < 256 := Nat.lt_of_lt_of_le i.property.1 i.property.2
    have hread := crates.integer_encoded .u8 i.val hbyte
    simp only [decodeValue, encodeToAlignedValue, ofU8, AlignedValue.single]
    rw [show toLeBytes 1 i.val = toLeBytes Primitive.u8.bytes i.val from rfl, hread]
    exact dif_pos i.property
  | .aliasOf _ _ ty, hty, hnarrow, x, hx => decodeValue_encode ty hty hnarrow x hx
  | .contract _, _, _, x, _ => by
    have hsplit := @split_fields c crates [("bytes", .bytes 32)]
      [(bytesToAligned 32 x.1.val).value] (.cons (fits_byteArray crates x.1) .nil)
    rw [List.flatten_singleton] at hsplit
    simp only [decodeValue, encodeToAlignedValue, AlignedValue.concat, List.map_cons, List.map_nil,
      List.flatten_singleton, hsplit, decodeBytes_encode crates x.1]
    rfl

theorem decodeTuple_encode : (types : List Ty) → AllExecutable types → NarrowEach types →
    (xs : RustTuple c types) → WrittenEach crates types xs →
    decodeTuple crates types ((encodeElements types xs).map AlignedValue.value) =
      .ok (settledEach types xs)
  | [], _, _, _, _ => rfl
  | ty :: types, hty, hnarrow, (x, xs), hxs => by
    have hx := decodeValue_encode ty hty.1 hnarrow.1 x hxs.1
    have hrest := decodeTuple_encode types hty.2 hnarrow.2 xs hxs.2
    simp only [encodeElements, List.map_cons, decodeTuple, hx, hrest]
    rfl

theorem decodeFields_encode : (fields : List (String × Ty)) → FieldsExecutable fields →
    NarrowFields fields → (xs : RustFields c fields) → WrittenFields crates fields xs →
    decodeFields crates fields ((encodeFieldValues fields xs).map AlignedValue.value) =
      .ok (settledFields fields xs)
  | [], _, _, _, _ => rfl
  | (_, ty) :: fields, hty, hnarrow, (x, xs), hxs => by
    have hx := decodeValue_encode ty hty.1 hnarrow.1 x hxs.1
    have hrest := decodeFields_encode fields hty.2 hnarrow.2 xs hxs.2
    simp only [encodeFieldValues, List.map_cons, decodeFields, hx, hrest]
    rfl

end

mutual

/-- A value comes back as it was exactly when no opaque byte string in it ends in a zero. -/
theorem settled_eq_iff : (ty : Ty) → (x : RustVal c ty) → (settled ty x = x ↔ Trimmed ty x)
  | .opaqueData name, x => Iff.rfl
  | .vector len ty, xs => by
    have hxs : settled (.vector len ty) xs = xs ↔ xs.val.map (settled ty) = xs.val :=
      Subtype.ext_iff
    have hmap := @List.map_inj_left _ _ xs.val (settled ty) id
    rw [List.map_id] at hmap
    exact (hxs.trans hmap).trans (forall₂_congr fun x _ => settled_eq_iff ty x)
  | .tuple types, xs => settledEach_eq_iff types xs
  | .struct _ fields, xs => settledFields_eq_iff fields xs
  | .aliasOf _ _ ty, x => settled_eq_iff ty x
  | .boolean, _ => iff_of_true rfl trivial
  | .field _, _ => iff_of_true rfl trivial
  | .unsigned _, _ => iff_of_true rfl trivial
  | .point _, _ => iff_of_true rfl trivial
  | .bytes _, _ => iff_of_true rfl trivial
  | .enum _ _, _ => iff_of_true rfl trivial
  | .contract _, _ => iff_of_true rfl trivial
  | .adt _, _ => iff_of_true rfl trivial
  | .typeVar _, _ => iff_of_true rfl trivial
  | .unknown, _ => iff_of_true rfl trivial

theorem settledEach_eq_iff : (types : List Ty) → (xs : RustTuple c types) →
    (settledEach types xs = xs ↔ TrimmedEach types xs)
  | [], _ => iff_of_true rfl trivial
  | ty :: types, (x, xs) =>
    Prod.mk_inj.trans (and_congr (settled_eq_iff ty x) (settledEach_eq_iff types xs))

theorem settledFields_eq_iff : (fields : List (String × Ty)) → (xs : RustFields c fields) →
    (settledFields fields xs = xs ↔ TrimmedFields fields xs)
  | [], _ => iff_of_true rfl trivial
  | (_, ty) :: fields, (x, xs) =>
    Prod.mk_inj.trans (and_congr (settled_eq_iff ty x) (settledFields_eq_iff fields xs))

end

end RoundTrip

section Samples

theorem fitsEach_of_length {segments : List AlignmentSegment} {atoms : List Atom}
    (hsegments : ∀ segment ∈ segments, ∃ atom, segment = .atom atom)
    (hlen : atoms.length = segments.length) : FitsEach (fun _ _ => True) segments atoms := by
  refine List.forall₂_iff_get.mpr ⟨hlen.symm, fun i hi hi' => ?_⟩
  obtain ⟨atom, hatom⟩ := hsegments _ (List.get_mem segments ⟨i, hi⟩)
  exact ⟨atom, hatom, trivial⟩

theorem length_of_plainCodec {segments : List AlignmentSegment} {atoms : List Atom}
    (h : (plainCodec segments).reencode atoms = some atoms) : atoms.length = segments.length :=
  (plainCodec segments).length_reencode atoms atoms h

/-- Crates that take as many atoms as an alignment has, whatever the atoms are. -/
def plainDecoding : Decoding plainCodecs where
  toConversions :=
    { TypedValues.plainConversions with
      Fits := fun _ _ => True
      arrayAlignment := fun length => .bytes (asU32 length)
      fits_bytes := fun _ _ _ _ => trivial
      fits_array := fun _ => trivial
      consume_takes := fun alignment chunk rest h => by
        have hlength : (alignment.map AlignmentSegment.atom).length = chunk.length := by
          rw [List.length_map, h.length_eq]
        show TypedValues.takeAtoms _ _ = _
        unfold TypedValues.takeAtoms
        rw [hlength, List.length_append, if_pos (Nat.le_add_right _ _), List.take_left,
          List.drop_left] }
  tuple := consumeEach TypedValues.takeAtoms
  vecU8
    | [a] => .ok a
    | _ => .error "Vec<u8>"
  fr := plainCodec [.atom .field]
  tuple_eq _ _ _ := rfl
  vecU8_ok _ := rfl
  arrayAlignment_eq _ := rfl
  fits_opaque _ := trivial
  fits_fr atoms h := fitsEach_of_length (by simp) (length_of_plainCodec h)
  fits_field f atoms h :=
    fitsEach_of_length (by cases f <;> simp [ForeignField.alignment]) (length_of_plainCodec h)
  fits_point p atoms h :=
    fitsEach_of_length (by cases p <;> simp [Curve.alignment, ForeignField.alignment])
      (length_of_plainCodec h)

end Samples

end MidnightRs.TypedCalls
