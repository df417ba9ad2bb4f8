import MidnightRs.CompactTypes
import Mathlib.Data.List.Forall2
import Mathlib.Algebra.BigOperators.Group.List.Lemmas

/-!
The layout of a type and the encoder agree. A flat value is canonical when every
part of it is an encoding at its own type; the encoder takes each well-formed
value to a canonical one, which it leaves as it is, and the parts of an
aggregate lie exactly where the layout says.
-/
namespace MidnightRs.Compact

section Atoms

theorem trim_cons (b : UInt8) (bs : Bytes) :
    trim (b :: bs) = if trim bs = [] ∧ b = 0 then [] else b :: trim bs := by
  rw [trim]
  cases trim bs with
  | nil => simp
  | cons c cs => simp

theorem ofLeBytes_trim (bs : Bytes) : ofLeBytes (trim bs) = ofLeBytes bs := by
  induction bs with
  | nil => rfl
  | cons b bs ih =>
    rw [trim_cons]
    split
    · rename_i h
      simp [ofLeBytes, ← ih, h.1, h.2]
    · simp [ofLeBytes, ih]

theorem ofLeBytes_toLeBytes (width n : ℕ) (h : n < 256 ^ width) :
    ofLeBytes (toLeBytes width n) = n := by
  induction width generalizing n with
  | zero =>
    rw [Nat.pow_zero] at h
    simp only [toLeBytes, ofLeBytes]
    omega
  | succ width ih =>
    rw [Nat.pow_succ] at h
    have hrest := ih (n / 256) (by omega)
    simp only [toLeBytes, ofLeBytes, hrest, UInt8.toNat_ofNat']
    omega

theorem trim_eq_nil (bs : Bytes) (h : ofLeBytes bs = 0) : trim bs = [] := by
  induction bs with
  | nil => rfl
  | cons b bs ih =>
    simp only [ofLeBytes] at h
    have hb : b = 0 := UInt8.toNat_inj.1 (by simp; omega)
    rw [trim_cons, ih (by omega), hb]
    simp

/-- The normal form depends on the number alone. -/
theorem trim_eq_of_ofLeBytes_eq (as bs : Bytes) (h : ofLeBytes as = ofLeBytes bs) :
    trim as = trim bs := by
  induction as generalizing bs with
  | nil => exact (trim_eq_nil bs h.symm).symm
  | cons a as ih =>
    cases bs with
    | nil => exact trim_eq_nil _ h
    | cons b bs =>
      simp only [ofLeBytes] at h
      have ha := a.toNat_lt
      have hb := b.toNat_lt
      have hhead : a = b := UInt8.toNat_inj.1 (by omega)
      have htail := ih bs (by omega)
      rw [trim_cons, trim_cons, htail, hhead]

theorem length_trim_le (bs : Bytes) : (trim bs).length ≤ bs.length := by
  induction bs with
  | nil => exact Nat.le_refl _
  | cons b bs ih =>
    rw [trim_cons]
    split
    · exact Nat.zero_le _
    · simpa using ih

theorem length_toLeBytes (width n : ℕ) : (toLeBytes width n).length = width := by
  induction width generalizing n with
  | zero => rfl
  | succ width ih => simp [toLeBytes, ih]

/-- An integer has one atom, whatever width it is written at. -/
theorem trim_toLeBytes_eq (width width' n : ℕ) (h : n < 256 ^ width) (h' : n < 256 ^ width') :
    trim (toLeBytes width n) = trim (toLeBytes width' n) :=
  trim_eq_of_ofLeBytes_eq _ _
    ((ofLeBytes_toLeBytes width n h).trans (ofLeBytes_toLeBytes width' n h').symm)

theorem lt_pow_uintByteWidth (n maxval : ℕ) (h : n ≤ maxval) :
    n < 256 ^ uintByteWidth maxval := by
  unfold uintByteWidth
  split
  · omega
  · have hbits := Nat.lt_log2_self (n := maxval)
    have hwidth : maxval.log2 + 1 ≤ 8 * ((maxval.log2 + 1 + 7) / 8) := by omega
    have hpow : (256 : ℕ) ^ ((maxval.log2 + 1 + 7) / 8) = 2 ^ (8 * ((maxval.log2 + 1 + 7) / 8)) := by
      rw [Nat.pow_mul]
    rw [hpow]
    calc n ≤ maxval := h
      _ < 2 ^ (maxval.log2 + 1) := hbits
      _ ≤ _ := Nat.pow_le_pow_right (by omega) hwidth

end Atoms

section Values

variable (c : Codecs) (held : Ty → ℕ → Prop)

/-- The canonical flat values of a type, with its own alignment. `held` says
which numbers of a `Uint` or an enum count. -/
inductive Flat : Ty → AlignedValue → Prop
  | boolean (b : Bool) : Flat .boolean (ofBool b)
  | unsigned (maxval n : ℕ) (h : n ≤ maxval) (hheld : held (.unsigned maxval) n) :
      Flat (.unsigned maxval)
        (.single (trim (toLeBytes (uintByteWidth maxval) n)) (.bytes (asU32 (uintByteWidth maxval))))
  | native (f : FieldType) (h : ForeignField.of f = none) (a : Atom) :
      Flat (.field f) (.single a .field)
  | foreign (f : FieldType) (foreign : ForeignField) (h : ForeignField.of f = some foreign)
      (atoms : List Atom) (ha : (c.field foreign).reencode atoms = some atoms) :
      Flat (.field f) ⟨atoms, foreign.alignment⟩
  | bytes (length : ℕ) (a : Atom) (h : a.length ≤ asU32 length) :
      Flat (.bytes length) (.single a (.bytes (asU32 length)))
  | enum (name : String) (variants : List String) (n : ℕ) (h : n < variants.length)
      (hbyte : n < 256) : Flat (.enum name variants) (ofU8 n)
  | jubjub (x y : Atom) : Flat (.point .jubjub) ⟨[x, y], Curve.alignment .jubjub⟩
  | point (curve : Curve) (h : curve ≠ .jubjub) (atoms : List Atom)
      (ha : (c.point curve).reencode atoms = some atoms) :
      Flat (.point curve) ⟨atoms, curve.alignment⟩
  | opaquePoint (x y : Atom) :
      Flat (.opaqueData "JubjubPoint") ⟨[x, y], Curve.alignment .jubjub⟩
  | opaqueScalar (a : Atom) : Flat (.opaqueData "Scalar<BLS12-381>") (.single a .field)
  | opaqueData (name : String) (hpoint : name ≠ "JubjubPoint")
      (hscalar : name ≠ "Scalar<BLS12-381>") (a : Atom) :
      Flat (.opaqueData name) (.single a .compress)
  | tuple (types : List Ty) (parts : List AlignedValue) (hlen : parts.length = types.length)
      (each : ∀ p ∈ types.zip parts, Flat p.1 p.2) : Flat (.tuple types) (.concat parts)
  | vector (len : ℕ) (ty : Ty) (parts : List AlignedValue) (hlen : parts.length = len)
      (each : ∀ part ∈ parts, Flat ty part) : Flat (.vector len ty) (.concat parts)
  | struct (name : String) (fields : List (String × Ty)) (parts : List AlignedValue)
      (hlen : parts.length = fields.length)
      (each : ∀ p ∈ (fields.map Prod.snd).zip parts, Flat p.1 p.2) :
      Flat (.struct name fields) (.concat parts)
  | aliasOf (nominal : Bool) (name : String) (ty : Ty) (av : AlignedValue) (h : Flat ty av) :
      Flat (.aliasOf nominal name ty) av
  | contract (name : String) (av : AlignedValue) (h : Flat .contractAddress av) :
      Flat (.contract name) av

/-- The well-formed values of a type: flat, or structured with well-formed
parts. Void spells the empty tuple and the default of bytes and opaque data. -/
inductive WellFormed : Ty → Value → Prop
  | flat (ty : Ty) (av : AlignedValue) (h : Flat c held ty av) : WellFormed ty (.alignedValue av)
  | bool (b : Bool) : WellFormed .boolean (.bool b)
  | boolInteger (n : ℕ) (h : n ≤ 1) : WellFormed .boolean (.integer n)
  | integer (maxval n : ℕ) (h : n ≤ maxval) (hn : n < u128Bound)
      (hheld : held (.unsigned maxval) n) : WellFormed (.unsigned maxval) (.integer n)
  | fieldInteger (f : FieldType) (h : ForeignField.of f = none) (n : ℕ) (hn : n < u128Bound) :
      WellFormed (.field f) (.integer n)
  | bytesVoid (length : ℕ) : WellFormed (.bytes length) .void
  | opaqueVoid (name : String) (hpoint : name ≠ "JubjubPoint")
      (hscalar : name ≠ "Scalar<BLS12-381>") : WellFormed (.opaqueData name) .void
  | enumInteger (name : String) (variants : List String) (n : ℕ) (h : n < variants.length)
      (hheld : held (.enum name variants) n) : WellFormed (.enum name variants) (.integer n)
  | unit : WellFormed (.tuple []) .void
  | tuple (types : List Ty) (vals : List Value) (hlen : vals.length = types.length)
      (each : ∀ p ∈ types.zip vals, WellFormed p.1 p.2) : WellFormed (.tuple types) (.tuple vals)
  | vector (len : ℕ) (ty : Ty) (vals : List Value) (hlen : vals.length = len)
      (each : ∀ v ∈ vals, WellFormed ty v) : WellFormed (.vector len ty) (.tuple vals)
  | struct (name : String) (fields : List (String × Ty)) (supplied : List (String × Value))
      (val : String → Value) (hlen : supplied.length = fields.length)
      (hnames : (supplied.map Prod.fst).Nodup)
      (hval : ∀ f ∈ fields, supplied.lookup f.1 = some (val f.1))
      (each : ∀ f ∈ fields, WellFormed f.2 (val f.1)) :
      WellFormed (.struct name fields) (.struct supplied)
  | structTuple (name : String) (fields : List (String × Ty)) (vals : List Value)
      (hlen : vals.length = fields.length)
      (each : ∀ p ∈ (fields.map Prod.snd).zip vals, WellFormed p.1 p.2) :
      WellFormed (.struct name fields) (.tuple vals)
  | aliasOf (nominal : Bool) (name : String) (ty : Ty) (v : Value) (h : WellFormed ty v) :
      WellFormed (.aliasOf nominal name ty) v
  | contract (name : String) (v : Value) (h : WellFormed .contractAddress v) :
      WellFormed (.contract name) v

/-- The numbers that the interpreter holds: a `Uint` of 128 bits whose atom fits
the width its alignment records, and an enum index of one byte. -/
def Holds : Ty → ℕ → Prop
  | .unsigned maxval, n =>
    n < u128Bound ∧ (trim (toLeBytes u128Bytes n)).length ≤ asU32 (uintByteWidth maxval)
  | .enum _ _, n => n < 256
  | _, _ => True

/-- A bound of up to 248 bits leaves only the 128 bits as a condition. -/
theorem holds_unsigned_iff (maxval n : ℕ) (h : n ≤ maxval) (hwidth : uintByteWidth maxval < 2 ^ 32) :
    Holds (.unsigned maxval) n ↔ n < u128Bound := by
  refine ⟨And.left, fun hn => ⟨hn, ?_⟩⟩
  have hatom := trim_toLeBytes_eq u128Bytes (uintByteWidth maxval) n hn
    (lt_pow_uintByteWidth n maxval h)
  have hle := length_trim_le (toLeBytes (uintByteWidth maxval) n)
  rw [length_toLeBytes] at hle
  rw [hatom, asU32, Nat.mod_eq_of_lt hwidth]
  exact hle

end Values

section Canonical

variable (c : Codecs)

theorem encodeBoolean_ofBool (b : Bool) :
    encodeBoolean (.alignedValue (ofBool b)) = .ok (ofBool b) := by
  cases b <;> rfl

/-- An integer that the type holds encodes at the width of the bound. -/
theorem encodeUnsigned_eq (maxval n : ℕ) (val : Value) (hval : valueToU128 val = some n)
    (h : n ≤ maxval) (hheld : Holds (.unsigned maxval) n) :
    encodeUnsigned maxval val =
      .ok (.single (trim (toLeBytes (uintByteWidth maxval) n))
        (.bytes (asU32 (uintByteWidth maxval)))) := by
  have hrange : checkUintRange n maxval =
      .ok (if maxval < u128Bound then maxval else u128Bound - 1) := by
    have hn : n < u128Bound := hheld.1
    have hle : ¬ (if maxval < u128Bound then maxval else u128Bound - 1) < n := by
      split <;> omega
    simp [checkUintRange, hle]
  have hatom := trim_toLeBytes_eq u128Bytes (uintByteWidth maxval) n hheld.1
    (lt_pow_uintByteWidth n maxval h)
  have hfits : (trim (toLeBytes (uintByteWidth maxval) n)).length ≤
      asU32 (uintByteWidth maxval) := hatom ▸ hheld.2
  simp only [encodeUnsigned, hval, hrange, bytesAlignedValue, hatom, hfits, if_true]

theorem alignedAtomToU128_single (width n : ℕ) (alignment : AlignmentAtom)
    (hn : n < u128Bound) (hwidth : n < 256 ^ width) :
    alignedAtomToU128 (.single (trim (toLeBytes width n)) alignment) = some n := by
  have hatom := trim_toLeBytes_eq width u128Bytes n hwidth hn
  have hlen := length_trim_le (toLeBytes u128Bytes n)
  rw [length_toLeBytes] at hlen
  simp only [alignedAtomToU128, AlignedValue.single, hatom, hlen, if_true, ofLeBytes_trim,
    ofLeBytes_toLeBytes u128Bytes n hn]

/-- The encoder leaves a canonical flat value as it is. -/
theorem encodeTyped_flat (ty : Ty) (av : AlignedValue) (h : Flat c Holds ty av) :
    encodeTyped c (.alignedValue av) ty = .ok av := by
  induction h with
  | boolean b => exact encodeBoolean_ofBool b
  | unsigned maxval n hle hheld =>
    have hatom := alignedAtomToU128_single _ n (.bytes (asU32 (uintByteWidth maxval))) hheld.1
      (lt_pow_uintByteWidth n maxval hle)
    exact encodeUnsigned_eq maxval n _ hatom hle hheld
  | native f hf a => simp [encodeTyped, encodeField, hf]
  | foreign f foreign hf atoms ha => simp [encodeTyped, encodeField, hf, encodeAs, ha]
  | bytes length a ha => rfl
  | enum name variants n hn hbyte => rfl
  | jubjub x y => rfl
  | point curve hcurve atoms ha =>
    cases curve with
    | jubjub => exact absurd rfl hcurve
    | secp256k1 => simp [encodeTyped, encodeAs, ha]
    | secp256r1 => simp [encodeTyped, encodeAs, ha]
    | curve25519 => simp [encodeTyped, encodeAs, ha]
  | opaquePoint x y => rfl
  | opaqueScalar a => rfl
  | opaqueData name hpoint hscalar a => rfl
  | tuple types parts hlen each ih => rfl
  | vector len ty parts hlen each ih => rfl
  | struct name fields parts hlen each ih => rfl
  | aliasOf nominal name ty av hflat ih => exact ih
  | contract name av hflat ih =>
    rw [encodeTyped_contract]
    exact ih

/-- The component types of an aggregate, in order. -/
def Ty.components : Ty → Option (List Ty)
  | .tuple types => some types
  | .vector len ty => some (List.replicate len ty)
  | .struct _ fields => some (fields.map Prod.snd)
  | _ => none

theorem encodeVector_eq (ty : Ty) (vals : List Value) :
    encodeVector (fun v => encodeTyped c v ty) vals =
      encodeTuple c vals (List.replicate vals.length ty) := by
  induction vals with
  | nil => rfl
  | cons v vals ih =>
    simp only [encodeVector, List.length_cons, List.replicate_succ, encodeTuple, ih]

theorem encodeFields_ok_iff (name : String) (fields : List (String × Ty)) (vals : List Value)
    (parts : List AlignedValue) :
    encodeFields c name vals fields = .ok parts ↔
      encodeTuple c vals (fields.map Prod.snd) = .ok parts := by
  induction fields generalizing vals parts with
  | nil => rfl
  | cons field fields ih =>
    obtain ⟨fieldName, ty⟩ := field
    cases vals with
    | nil => rfl
    | cons v vals =>
      simp only [encodeFields, List.map_cons, encodeTuple]
      cases encodeTyped c v ty with
      | error e => simp
      | ok av =>
        have hmap : ∀ x : Except InterpreterError (List AlignedValue),
            x.map (av :: ·) = .ok parts ↔ ∃ rest, x = .ok rest ∧ av :: rest = parts := by
          intro x
          cases x <;> simp [Except.map]
        simp only [hmap, ih]

/-- What encoding values one by one at their types gives. -/
def Encoded (vals : List Value) (types : List Ty) (parts : List AlignedValue) : Prop :=
  parts.length = types.length ∧
    ∀ (i : ℕ) (v : Value) (ty : Ty), vals[i]? = some v → types[i]? = some ty →
      ∃ part, parts[i]? = some part ∧ encodeTyped c v ty = .ok part

/-- When every value encodes canonically, so does the list of them. -/
theorem encodeTuple_ok (types : List Ty) (vals : List Value) (hlen : vals.length = types.length)
    (h : ∀ p ∈ types.zip vals, ∃ av, encodeTyped c p.2 p.1 = .ok av ∧ Flat c Holds p.1 av) :
    ∃ parts, encodeTuple c vals types = .ok parts ∧ Encoded c vals types parts ∧
      ∀ p ∈ types.zip parts, Flat c Holds p.1 p.2 := by
  induction types generalizing vals with
  | nil => exact ⟨[], rfl, ⟨rfl, by simp⟩, by simp⟩
  | cons ty types ih =>
    cases vals with
    | nil => cases hlen
    | cons v vals =>
      obtain ⟨av, hav, hflat⟩ := h (ty, v) List.mem_cons_self
      obtain ⟨parts, hparts, hencoded, hall⟩ := ih vals (Nat.succ.inj hlen)
        (fun p hp => h p (List.mem_cons_of_mem _ hp))
      refine ⟨av :: parts, ?_, ⟨by simp [hencoded.1], ?_⟩, ?_⟩
      · simp only at hav
        simp only [encodeTuple, hav, hparts, Except.map]
      · intro i v' ty' hv hty
        cases i with
        | zero =>
          simp only [List.getElem?_cons_zero, Option.some.injEq] at hv hty
          subst hv hty
          exact ⟨av, rfl, hav⟩
        | succ i => exact hencoded.2 i v' ty' hv hty
      · intro p hp
        rcases List.mem_cons.1 hp with rfl | hp
        · exact hflat
        · exact hall p hp

theorem mem_zip_replicate {len : ℕ} {ty : Ty} {α : Type} {xs : List α} {p : Ty × α}
    (h : p ∈ (List.replicate len ty).zip xs) : p.1 = ty ∧ p.2 ∈ xs := by
  obtain ⟨hleft, hright⟩ := List.of_mem_zip (a := p.1) (b := p.2) h
  exact ⟨List.eq_of_mem_replicate hleft, hright⟩

theorem suppliedFields_eq (name : String) (supplied : List (String × Value))
    (val : String → Value) (fields : List (String × Ty))
    (h : ∀ f ∈ fields, supplied.lookup f.1 = some (val f.1)) :
    suppliedFields name supplied fields = .ok (fields.map (fun f => val f.1)) := by
  induction fields with
  | nil => rfl
  | cons field fields ih =>
    have hfield := h field List.mem_cons_self
    have hrest := ih (fun f hf => h f (List.mem_cons_of_mem _ hf))
    obtain ⟨fieldName, ty⟩ := field
    simp only at hfield
    simp only [suppliedFields, hfield, hrest, Except.map, List.map_cons]

theorem mem_zip_fields {fields : List (String × Ty)} {val : String → Value} {p : Ty × Value}
    (h : p ∈ (fields.map Prod.snd).zip (fields.map (fun f => val f.1))) :
    ∃ f ∈ fields, p = (f.2, val f.1) := by
  rw [List.zip_map'] at h
  obtain ⟨f, hf, rfl⟩ := List.mem_map.1 h
  exact ⟨f, hf, rfl⟩

/-- The encoder accepts every well-formed value and gives a canonical one. -/
theorem encodeTyped_wellFormed (ty : Ty) (v : Value) (h : WellFormed c Holds ty v) :
    ∃ av, encodeTyped c v ty = .ok av ∧ Flat c Holds ty av := by
  induction h with
  | flat ty av h => exact ⟨av, encodeTyped_flat c ty av h, h⟩
  | bool b => exact ⟨_, rfl, .boolean b⟩
  | boolInteger n h => exact ⟨_, rfl, .boolean _⟩
  | integer maxval n h hn hheld =>
    exact ⟨_, encodeUnsigned_eq maxval n _ rfl h hheld, .unsigned maxval n h hheld⟩
  | fieldInteger f h n hn =>
    refine ⟨ofFr n, ?_, .native f h _⟩
    simp [encodeTyped, encodeField, h]
  | bytesVoid length =>
    exact ⟨_, rfl, .bytes length [] (Nat.zero_le _)⟩
  | opaqueVoid name hpoint hscalar => exact ⟨_, rfl, .opaqueData name hpoint hscalar []⟩
  | enumInteger name variants n h hheld =>
    refine ⟨ofU8 n, ?_, .enum name variants n h hheld⟩
    have hbyte : n < 256 := hheld
    simp [encodeTyped, encodeEnum, hbyte]
  | unit => exact ⟨_, rfl, .tuple [] [] rfl (by simp)⟩
  | tuple types vals hlen each ih =>
    obtain ⟨parts, hparts, hencoded, hall⟩ := encodeTuple_ok c types vals hlen ih
    refine ⟨.concat parts, ?_, .tuple types parts hencoded.1 hall⟩
    simp [encodeTyped, tupleParts, hlen, encodeParts, hparts, Except.map]
  | vector len ty vals hlen each ih =>
    subst len
    obtain ⟨parts, hparts, hencoded, hall⟩ := encodeTuple_ok c (List.replicate vals.length ty) vals
      (by simp) (fun p hp => by
        obtain ⟨hty, hmem⟩ := mem_zip_replicate hp
        rw [hty]
        exact ih p.2 hmem)
    have hplen : parts.length = vals.length := by simpa using hencoded.1
    refine ⟨.concat parts, ?_, .vector vals.length ty parts hplen ?_⟩
    · simp [encodeTyped, vectorParts, encodeParts, encodeVector_eq, hparts, Except.map]
    · intro part hpart
      obtain ⟨i, hi, rfl⟩ := List.getElem_of_mem hpart
      refine hall (ty, parts[i]) ?_
      exact List.mem_iff_getElem.2 ⟨i, by simp [hplen] at hi ⊢; exact hi, by simp⟩
  | struct name fields supplied val hlen hnames hval each ih =>
    obtain ⟨parts, hparts, hencoded, hall⟩ := encodeTuple_ok c (fields.map Prod.snd)
      (fields.map (fun f => val f.1)) (by simp) (fun p hp => by
        obtain ⟨f, hf, rfl⟩ := mem_zip_fields hp
        exact ih f hf)
    rw [← encodeFields_ok_iff c name] at hparts
    refine ⟨.concat parts, ?_, .struct name fields parts (by simpa using hencoded.1) hall⟩
    simp [encodeTyped, structParts, hlen, suppliedFields_eq name supplied val fields hval,
      encodeParts, hparts, Except.map]
  | structTuple name fields vals hlen each ih =>
    obtain ⟨parts, hparts, hencoded, hall⟩ := encodeTuple_ok c (fields.map Prod.snd) vals
      (by simpa using hlen) ih
    rw [← encodeFields_ok_iff c name] at hparts
    refine ⟨.concat parts, ?_, .struct name fields parts (by simpa using hencoded.1) hall⟩
    simp [encodeTyped, structParts, hlen, encodeParts, hparts, Except.map]
  | aliasOf nominal name ty v h ih =>
    obtain ⟨av, hav, hflat⟩ := ih
    exact ⟨av, hav, .aliasOf nominal name ty av hflat⟩
  | contract name v h ih =>
    obtain ⟨av, hav, hflat⟩ := ih
    refine ⟨av, ?_, .contract name av hflat⟩
    rw [encodeTyped_contract]
    exact hav

end Canonical

section Sized

/-- `n` atoms, each with its own alignment. -/
def Sized (av : AlignedValue) (n : ℕ) : Prop :=
  av.value.length = n ∧ av.alignment.length = n ∧
    ∀ segment ∈ av.alignment, segment.isAtom = true

theorem sized_single (a : Atom) (alignment : AlignmentAtom) : Sized (.single a alignment) 1 :=
  ⟨rfl, rfl, by simp [AlignedValue.single, AlignmentSegment.isAtom]⟩

theorem sized_map_value {parts : List AlignedValue} {counts : List ℕ}
    (h : List.Forall₂ Sized parts counts) :
    (parts.map AlignedValue.value).map List.length = counts := by
  induction h with
  | nil => rfl
  | cons hpart _ ih => simp [ih, hpart.1]

theorem sized_map_alignment {parts : List AlignedValue} {counts : List ℕ}
    (h : List.Forall₂ Sized parts counts) :
    (parts.map AlignedValue.alignment).map List.length = counts := by
  induction h with
  | nil => rfl
  | cons hpart _ ih => simp [ih, hpart.2.1]

theorem sized_concat {parts : List AlignedValue} {counts : List ℕ}
    (h : List.Forall₂ Sized parts counts) : Sized (.concat parts) counts.sum := by
  refine ⟨?_, ?_, ?_⟩
  · rw [AlignedValue.concat, List.length_flatten, sized_map_value h]
  · rw [AlignedValue.concat, List.length_flatten, sized_map_alignment h]
  · intro segment hsegment
    simp only [AlignedValue.concat, List.mem_flatten, List.mem_map] at hsegment
    obtain ⟨_, ⟨part, hpart, rfl⟩, hmem⟩ := hsegment
    obtain ⟨i, hi, rfl⟩ := List.getElem_of_mem hpart
    exact (List.Forall₂.get h hi (by simpa [← h.length_eq] using hi)).2.2 segment hmem

/-- Part `i` of a concatenation is its slice after the parts before it. -/
theorem sliceAtoms_concat {parts : List AlignedValue} {counts : List ℕ}
    (h : List.Forall₂ Sized parts counts) (i : ℕ) (part : AlignedValue)
    (hpart : parts[i]? = some part) :
    sliceAtoms (.concat parts) (counts.take i).sum (counts.take (i + 1)).sum = some part := by
  obtain ⟨hi, rfl⟩ := List.getElem?_eq_some_iff.1 hpart
  have hsized := sized_concat h
  have hstop : (counts.take (i + 1)).sum ≤ counts.sum := by
    conv_rhs => rw [← List.take_append_drop (i + 1) counts, List.sum_append]
    exact Nat.le_add_right _ _
  have hvalue := List.drop_take_succ_flatten_eq_getElem (parts.map AlignedValue.value) i
    (by simpa using hi)
  have halignment := List.drop_take_succ_flatten_eq_getElem (parts.map AlignedValue.alignment) i
    (by simpa using hi)
  rw [sized_map_value h] at hvalue
  rw [sized_map_alignment h] at halignment
  have hall : (AlignedValue.concat parts).alignment.all AlignmentSegment.isAtom = true :=
    List.all_eq_true.2 hsized.2.2
  rw [sliceAtoms, if_pos ⟨hsized.2.1.trans hsized.1.symm, hall, hsized.1 ▸ hstop⟩]
  simp only [AlignedValue.concat, hvalue, halignment, List.getElem_map]

/-- The sizes leave one way to cut a concatenation into its parts. -/
theorem parts_unique {parts parts' : List AlignedValue} {counts : List ℕ}
    (h : List.Forall₂ Sized parts counts) (h' : List.Forall₂ Sized parts' counts)
    (heq : AlignedValue.concat parts = .concat parts') : parts = parts' := by
  have hvalue : parts.map AlignedValue.value = parts'.map AlignedValue.value :=
    List.eq_iff_flatten_eq.2 ⟨congrArg AlignedValue.value heq,
      (sized_map_value h).trans (sized_map_value h').symm⟩
  have halignment : parts.map AlignedValue.alignment = parts'.map AlignedValue.alignment :=
    List.eq_iff_flatten_eq.2 ⟨congrArg AlignedValue.alignment heq,
      (sized_map_alignment h).trans (sized_map_alignment h').symm⟩
  refine List.ext_getElem (h.length_eq.trans h'.length_eq.symm) fun i hi hi' => ?_
  have hv := List.getElem_of_eq hvalue (by simpa using hi)
  have ha := List.getElem_of_eq halignment (by simpa using hi)
  simp only [List.getElem_map] at hv ha
  cases hp : parts[i]
  cases hp' : parts'[i]
  simp_all

end Sized

section Counts

/-- The atom counts of the types, one by one. -/
def Counts (types : List Ty) (counts : List ℕ) : Prop :=
  List.Forall₂ (fun ty k => atomCountForType ty = some k) types counts

theorem toUsize_eq_some {n m : ℕ} (h : toUsize n = some m) : n = m ∧ m < usizeBound := by
  unfold toUsize at h
  split at h
  · obtain rfl := Option.some.inj h
    exact ⟨rfl, by assumption⟩
  · cases h

theorem toUsize_of_lt {n : ℕ} (h : n < usizeBound) : toUsize n = some n := if_pos h

theorem atomsOf_eq_some {types : List Ty} {total n : ℕ} (h : atomsOf types total = some n)
    (htotal : total < usizeBound) :
    ∃ counts, Counts types counts ∧ n = total + counts.sum ∧ n < usizeBound := by
  induction types generalizing total with
  | nil =>
    obtain rfl := Option.some.inj h
    exact ⟨[], .nil, rfl, htotal⟩
  | cons ty types ih =>
    simp only [atomsOf, Option.bind_eq_some_iff] at h
    obtain ⟨k, hk, next, hnext, hrest⟩ := h
    obtain ⟨rfl, hbound⟩ := toUsize_eq_some hnext
    obtain ⟨counts, hcounts, hn, hlt⟩ := ih hrest hbound
    exact ⟨k :: counts, .cons hk hcounts, by rw [hn, List.sum_cons]; omega, hlt⟩

theorem atomsOf_of_counts {types : List Ty} {counts : List ℕ} (h : Counts types counts)
    (total : ℕ) (hbound : total + counts.sum < usizeBound) :
    atomsOf types total = some (total + counts.sum) := by
  induction h generalizing total with
  | nil => rfl
  | @cons ty k types counts hk _ ih =>
    rw [List.sum_cons] at hbound ⊢
    have hnext : checkedAdd total k = some (total + k) := toUsize_of_lt (by omega)
    simp only [atomsOf, hk, hnext, Option.bind_some]
    rw [ih (total + k) (by omega)]
    congr 1
    omega

theorem atomsOfFields_eq (fields : List (String × Ty)) :
    atomsOfFields fields = atomsOf (fields.map Prod.snd) := by
  induction fields with
  | nil => rfl
  | cons field fields ih =>
    funext total
    simp only [atomsOfFields, List.map_cons, atomsOf, ih]

/-- The components of an aggregate have counts that add up to its own. -/
theorem components_counts {ty : Ty} {types : List Ty} {n : ℕ} (hty : ty.components = some types)
    (hn : atomCountForType ty = some n) :
    ∃ counts, Counts types counts ∧ n = counts.sum ∧ n < usizeBound := by
  have hzero : (0 : ℕ) < usizeBound := by decide
  cases ty with
  | tuple types' =>
    obtain rfl := Option.some.inj hty
    simpa using atomsOf_eq_some hn hzero
  | vector len ty =>
    obtain rfl := Option.some.inj hty
    simp only [atomCountForType, Option.bind_eq_some_iff] at hn
    obtain ⟨k, hk, len', hlen, hmul⟩ := hn
    obtain ⟨rfl, _⟩ := toUsize_eq_some hlen
    obtain ⟨rfl, hbound⟩ := toUsize_eq_some hmul
    refine ⟨List.replicate len k, ?_, by simp [Nat.mul_comm], hbound⟩
    exact List.forall₂_iff_get.2 ⟨by simp, fun i _ _ => by simpa using hk⟩
  | struct name fields =>
    obtain rfl := Option.some.inj hty
    rw [atomCountForType, atomsOfFields_eq] at hn
    simpa using atomsOf_eq_some hn hzero
  | _ => cases hty

end Counts

section Layouts

variable (c : Codecs)

theorem sized_of_reencode {alignment : List AlignmentSegment} (codec : Codec alignment)
    (hatoms : ∀ segment ∈ alignment, segment.isAtom = true) (atoms : List Atom)
    (h : codec.reencode atoms = some atoms) : Sized ⟨atoms, alignment⟩ alignment.length :=
  ⟨codec.length_reencode atoms atoms h, rfl, hatoms⟩

theorem foreign_isAtom (f : ForeignField) : ∀ segment ∈ f.alignment, segment.isAtom = true := by
  cases f <;> decide

theorem curve_isAtom (curve : Curve) : ∀ segment ∈ curve.alignment, segment.isAtom = true := by
  cases curve <;> decide

/-- Parts that are each of the size of their type. -/
theorem sized_parts {types : List Ty} {counts : List ℕ} {parts : List AlignedValue}
    (hcounts : Counts types counts) (hlen : parts.length = types.length)
    (h : ∀ p ∈ types.zip parts, ∀ k, atomCountForType p.1 = some k → Sized p.2 k) :
    List.Forall₂ Sized parts counts := by
  induction hcounts generalizing parts with
  | nil =>
    obtain rfl := List.length_eq_zero_iff.1 hlen
    exact .nil
  | @cons ty k types counts hk _ ih =>
    cases parts with
    | nil => cases hlen
    | cons part parts =>
      refine .cons (h (ty, part) List.mem_cons_self k hk) ?_
      exact ih (Nat.succ.inj hlen) (fun p hp => h p (List.mem_cons_of_mem _ hp))

theorem mem_parts_of_zip {n : ℕ} {ty : Ty} {parts : List AlignedValue}
    {P : Ty → AlignedValue → Prop}
    (h : ∀ part ∈ parts, P ty part) : ∀ p ∈ (List.replicate n ty).zip parts, P p.1 p.2 := by
  intro p hp
  obtain ⟨hty, hmem⟩ := mem_zip_replicate hp
  rw [hty]
  exact h p.2 hmem

/-- A canonical flat value has the atoms of its type. -/
theorem sized_flat {ty : Ty} {av : AlignedValue} (h : Flat c Holds ty av) :
    ∀ n, atomCountForType ty = some n → Sized av n := by
  induction h with
  | boolean b =>
    intro n hn
    obtain rfl := Option.some.inj hn
    exact sized_single _ _
  | unsigned maxval m hle hheld =>
    intro n hn
    obtain rfl := Option.some.inj hn
    exact sized_single _ _
  | native f hf a =>
    intro n hn
    simp only [atomCountForType, hf, Option.some.injEq] at hn
    subst n
    exact sized_single _ _
  | foreign f foreign hf atoms ha =>
    intro n hn
    simp only [atomCountForType, hf, Option.some.injEq] at hn
    subst n
    exact sized_of_reencode _ (foreign_isAtom foreign) atoms ha
  | bytes length a ha =>
    intro n hn
    obtain rfl := Option.some.inj hn
    exact sized_single _ _
  | enum name variants m hm hbyte =>
    intro n hn
    obtain rfl := Option.some.inj hn
    exact sized_single _ _
  | jubjub x y =>
    intro n hn
    obtain rfl := Option.some.inj hn
    exact ⟨rfl, rfl, curve_isAtom .jubjub⟩
  | point curve hcurve atoms ha =>
    intro n hn
    obtain rfl := Option.some.inj hn
    exact sized_of_reencode _ (curve_isAtom curve) atoms ha
  | opaquePoint x y =>
    intro n hn
    obtain rfl := Option.some.inj hn
    exact ⟨rfl, rfl, curve_isAtom .jubjub⟩
  | opaqueScalar a =>
    intro n hn
    obtain rfl := Option.some.inj hn
    exact sized_single _ _
  | opaqueData name hpoint hscalar a =>
    intro n hn
    simp only [atomCountForType, opaqueAtoms, hpoint, if_false, Option.some.injEq] at hn
    subst n
    exact sized_single _ _
  | tuple types parts hlen each ih =>
    intro n hn
    obtain ⟨counts, hcounts, rfl, _⟩ := components_counts rfl hn
    exact sized_concat (sized_parts hcounts hlen ih)
  | vector len ty parts hlen each ih =>
    intro n hn
    obtain ⟨counts, hcounts, rfl, _⟩ := components_counts rfl hn
    exact sized_concat (sized_parts hcounts (by simpa using hlen)
      (mem_parts_of_zip (P := fun ty part => ∀ k, atomCountForType ty = some k → Sized part k) ih))
  | struct name fields parts hlen each ih =>
    intro n hn
    obtain ⟨counts, hcounts, rfl, _⟩ := components_counts rfl hn
    exact sized_concat (sized_parts hcounts (by simpa using hlen) ih)
  | aliasOf nominal name ty av h ih => exact ih
  | contract name av h ih =>
    intro n hn
    obtain rfl := Option.some.inj hn
    exact ih 1 rfl

/-- Element or field `i` of a value, in whatever form it comes. -/
inductive Component (ty : Ty) : Value → ℕ → Value → Prop
  | tuple (vals : List Value) (i : ℕ) (e : Value) (h : vals[i]? = some e) :
      Component ty (.tuple vals) i e
  | struct (name : String) (fields : List (String × Ty)) (hty : ty = .struct name fields)
      (supplied : List (String × Value)) (i : ℕ) (field : String × Ty)
      (hfield : fields[i]? = some field) (e : Value) (he : supplied.lookup field.1 = some e) :
      Component ty (.struct supplied) i e
  | flat (types : List Ty) (hty : ty.components = some types) (parts : List AlignedValue)
      (hlen : parts.length = types.length) (each : ∀ p ∈ types.zip parts, Flat c Holds p.1 p.2)
      (i : ℕ) (part : AlignedValue) (h : parts[i]? = some part) :
      Component ty (.alignedValue (.concat parts)) i (.alignedValue part)

/-- What the encoder makes of an aggregate: its encoded components, in order. -/
structure EncodedAs (ty : Ty) (types : List Ty) (v : Value) (parts : List AlignedValue) : Prop where
  encoded : encodeTyped c v ty = .ok (.concat parts)
  length_eq : parts.length = types.length
  canonical : ∀ p ∈ types.zip parts, Flat c Holds p.1 p.2
  has : ∀ i < types.length, ∃ e, Component c ty v i e
  each : ∀ (i : ℕ) (e : Value) (elem : Ty), Component c ty v i e → types[i]? = some elem →
    ∃ part, parts[i]? = some part ∧ encodeTyped c e elem = .ok part

theorem mem_zip_of_getElem? {α β : Type} {xs : List α} {ys : List β} {i : ℕ} {x : α} {y : β}
    (hx : xs[i]? = some x) (hy : ys[i]? = some y) : (x, y) ∈ xs.zip ys := by
  refine List.mem_iff_getElem?.2 ⟨i, ?_⟩
  simp [List.getElem?_zip_eq_some, hx, hy]

theorem encodedAs_flat {ty : Ty} {types : List Ty} {parts : List AlignedValue} {n : ℕ}
    (hty : ty.components = some types) (hn : atomCountForType ty = some n)
    (hflat : Flat c Holds ty (.concat parts)) (hlen : parts.length = types.length)
    (each : ∀ p ∈ types.zip parts, Flat c Holds p.1 p.2) :
    EncodedAs c ty types (.alignedValue (.concat parts)) parts where
  encoded := encodeTyped_flat c ty _ hflat
  length_eq := hlen
  canonical := each
  has := by
    intro i hi
    exact ⟨_, .flat types hty parts hlen each i _ (List.getElem?_eq_getElem (hlen ▸ hi))⟩
  each := by
    obtain ⟨counts, hcounts, _⟩ := components_counts hty hn
    have hsized := sized_parts hcounts hlen (fun p hp => sized_flat c (each p hp))
    intro i e elem he helem
    generalize hval : Value.alignedValue (AlignedValue.concat parts) = v at he
    cases he with
    | tuple vals i e h => cases hval
    | struct name fields hty supplied i field hfield e he => cases hval
    | flat types' hty' parts' hlen' each' i part h =>
      obtain rfl := Option.some.inj (hty.symm.trans hty')
      have hsized' := sized_parts hcounts hlen' (fun p hp => sized_flat c (each' p hp))
      obtain rfl := parts_unique hsized hsized' (Value.alignedValue.inj hval)
      exact ⟨part, h, encodeTyped_flat c elem part (each _ (mem_zip_of_getElem? helem h))⟩

/-- A structured value whose components are the values of a list. -/
theorem encodedAs_values {ty : Ty} {types : List Ty} {v : Value} (vals : List Value)
    (hlen : vals.length = types.length)
    (hwf : ∀ p ∈ types.zip vals, WellFormed c Holds p.1 p.2)
    (henc : ∀ parts, encodeTuple c vals types = .ok parts →
      encodeTyped c v ty = .ok (.concat parts))
    (hcomp : ∀ i e, Component c ty v i e ↔ vals[i]? = some e) :
    ∃ parts, EncodedAs c ty types v parts := by
  obtain ⟨parts, hparts, hencoded, hall⟩ := encodeTuple_ok c types vals hlen
    (fun p hp => encodeTyped_wellFormed c p.1 p.2 (hwf p hp))
  refine ⟨parts, henc parts hparts, hencoded.1, hall, ?_, ?_⟩
  · intro i hi
    exact ⟨_, (hcomp i _).2 (List.getElem?_eq_getElem (hlen ▸ hi))⟩
  · intro i e elem he helem
    exact hencoded.2 i e elem ((hcomp i e).1 he) helem

theorem component_tuple_iff (ty : Ty) (vals : List Value) (i : ℕ) (e : Value) :
    Component c ty (.tuple vals) i e ↔ vals[i]? = some e := by
  constructor
  · intro h
    cases h
    assumption
  · exact .tuple vals i e

theorem component_struct_iff (name : String) (fields : List (String × Ty))
    (supplied : List (String × Value)) (val : String → Value)
    (hval : ∀ f ∈ fields, supplied.lookup f.1 = some (val f.1)) (i : ℕ) (e : Value) :
    Component c (.struct name fields) (.struct supplied) i e ↔
      (fields.map (fun f => val f.1))[i]? = some e := by
  rw [List.getElem?_map, Option.map_eq_some_iff]
  constructor
  · intro h
    cases h with
    | struct name' fields' hty supplied i field hfield e he =>
      cases hty
      have hfound := hval field (List.mem_of_getElem? hfield)
      exact ⟨field, hfield, Option.some.inj (hfound.symm.trans he)⟩
  · rintro ⟨field, hfield, rfl⟩
    exact .struct name fields rfl supplied i field hfield _
      (hval field (List.mem_of_getElem? hfield))

/-- Every well-formed value of an aggregate is encoded part by part. -/
theorem exists_encodedAs {ty : Ty} {types : List Ty} {v : Value} {n : ℕ}
    (hty : ty.components = some types) (hn : atomCountForType ty = some n)
    (hv : WellFormed c Holds ty v) : ∃ parts, EncodedAs c ty types v parts := by
  cases hv with
  | flat ty av h =>
    cases h with
    | tuple types' parts hlen each =>
      obtain rfl := Option.some.inj hty
      exact ⟨parts, encodedAs_flat c rfl hn (.tuple _ parts hlen each) hlen each⟩
    | vector len elem parts hlen each =>
      obtain rfl := Option.some.inj hty
      have hall := mem_parts_of_zip (n := len) (P := Flat c Holds) each
      exact ⟨parts, encodedAs_flat c rfl hn (.vector len elem parts hlen each)
        (by simpa using hlen) hall⟩
    | struct name fields parts hlen each =>
      obtain rfl := Option.some.inj hty
      exact ⟨parts, encodedAs_flat c rfl hn (.struct name fields parts hlen each)
        (by simpa using hlen) each⟩
    | _ => cases hty
  | unit =>
    obtain rfl := Option.some.inj hty
    refine ⟨[], rfl, rfl, by simp, by simp, ?_⟩
    intro i e elem he helem
    simp at helem
  | tuple types' vals hlen each =>
    obtain rfl := Option.some.inj hty
    refine encodedAs_values c vals hlen each (fun parts hparts => ?_) (component_tuple_iff c _ vals)
    simp [encodeTyped, tupleParts, hlen, encodeParts, hparts, Except.map]
  | vector len elem vals hlen each =>
    obtain rfl := Option.some.inj hty
    refine encodedAs_values c vals (by simpa using hlen) ?_ (fun parts hparts => ?_)
      (component_tuple_iff c _ vals)
    · intro p hp
      obtain ⟨hp1, hp2⟩ := mem_zip_replicate hp
      rw [hp1]
      exact each p.2 hp2
    · subst len
      simp [encodeTyped, vectorParts, encodeParts, encodeVector_eq, hparts, Except.map]
  | struct name fields supplied val hlen hnames hval each =>
    obtain rfl := Option.some.inj hty
    refine encodedAs_values c (fields.map (fun f => val f.1)) (by simp) ?_
      (fun parts hparts => ?_) (component_struct_iff c name fields supplied val hval)
    · intro p hp
      obtain ⟨f, hf, rfl⟩ := mem_zip_fields hp
      exact each f hf
    · rw [← encodeFields_ok_iff c name] at hparts
      simp [encodeTyped, structParts, hlen, suppliedFields_eq name supplied val fields hval,
        encodeParts, hparts, Except.map]
  | structTuple name fields vals hlen each =>
    obtain rfl := Option.some.inj hty
    refine encodedAs_values c vals (by simpa using hlen) each (fun parts hparts => ?_)
      (component_tuple_iff c _ vals)
    rw [← encodeFields_ok_iff c name] at hparts
    simp [encodeTyped, structParts, hlen, encodeParts, hparts, Except.map]
  | _ => cases hty

/-- The encoding of component `i` is the slice after the components before it. -/
theorem EncodedAs.slice {ty : Ty} {types : List Ty} {v : Value} {parts : List AlignedValue}
    (h : EncodedAs c ty types v parts) {counts : List ℕ} (hcounts : Counts types counts) (i : ℕ)
    (hi : i < types.length) :
    ∃ part, sliceAtoms (.concat parts) (counts.take i).sum (counts.take (i + 1)).sum = some part ∧
      ∀ e, Component c ty v i e → encodeTyped c e types[i] = .ok part := by
  have hsized := sized_parts hcounts h.length_eq (fun p hp => sized_flat c (h.canonical p hp))
  have hi' : i < parts.length := by rw [h.length_eq]; exact hi
  have hpart : parts[i]? = some parts[i] := List.getElem?_eq_getElem hi'
  refine ⟨_, sliceAtoms_concat hsized i _ hpart, fun e he => ?_⟩
  obtain ⟨part, hpart', henc⟩ := h.each i e _ he (List.getElem?_eq_getElem hi)
  obtain rfl := Option.some.inj (hpart.symm.trans hpart')
  exact henc

theorem sum_take_succ (counts : List ℕ) (i : ℕ) (hi : i < counts.length) :
    (counts.take (i + 1)).sum = (counts.take i).sum + counts[i] := by
  rw [List.take_succ_eq_append_getElem hi, List.sum_append]
  simp

theorem sum_take_le (counts : List ℕ) (i : ℕ) : (counts.take i).sum ≤ counts.sum := by
  conv_rhs => rw [← List.take_append_drop i counts, List.sum_append]
  exact Nat.le_add_right _ _

theorem counts_getElem {types : List Ty} {counts : List ℕ} (h : Counts types counts) (i : ℕ)
    (hi : i < types.length) (hi' : i < counts.length) :
    atomCountForType types[i] = some counts[i] :=
  List.Forall₂.get h hi hi'

theorem counts_take {types : List Ty} {counts : List ℕ} (h : Counts types counts) (i : ℕ) :
    Counts (types.take i) (counts.take i) :=
  List.forall₂_take i h

theorem counts_replicate {len k : ℕ} {ty : Ty} {counts : List ℕ}
    (h : Counts (List.replicate len ty) counts) (hk : atomCountForType ty = some k) :
    counts = List.replicate len k := by
  refine List.eq_replicate_iff.2 ⟨by simpa using h.length_eq.symm, fun m hm => ?_⟩
  obtain ⟨i, hi, rfl⟩ := List.getElem_of_mem hm
  have hcount := counts_getElem h i (by rw [h.length_eq]; exact hi) hi
  rw [List.getElem_replicate, hk] at hcount
  exact (Option.some.inj hcount).symm

/-- The range of element `i` starts at the sum of the widths before it. -/
theorem elementAtomRange_eq {ty : Ty} {types : List Ty} {counts : List ℕ} {k : ℕ}
    (hty : ty.resolved.components = some types) (hk : elementCount ty = some k)
    (hcounts : Counts types counts) (hbound : counts.sum < usizeBound) (i : ℕ) (hi : i < k) :
    elementAtomRange ty i = some ((counts.take i).sum, (counts.take (i + 1)).sum) ∧
      k = types.length ∧ elementTypeAt ty i = types[i]? := by
  have hlen := hcounts.length_eq
  have hle := sum_take_le counts (i + 1)
  unfold elementCount at hk
  unfold elementAtomRange elementTypeAt
  cases hres : ty.resolved with
  | tuple types' =>
    rw [hres] at hty hk
    obtain rfl := Option.some.inj hty
    obtain rfl := Option.some.inj hk
    have hstep := sum_take_succ counts i (hlen ▸ hi)
    have hstart := atomsOf_of_counts (counts_take hcounts i) 0 (by omega)
    have hstop : checkedAdd (0 + (counts.take i).sum) counts[i] =
        some (0 + (counts.take i).sum + counts[i]) := toUsize_of_lt (by omega)
    refine ⟨?_, rfl, rfl⟩
    simp only [Nat.not_lt.2 (Nat.le_of_lt hi), if_false, hstart, List.getElem?_eq_getElem hi,
      counts_getElem hcounts i hi (hlen ▸ hi), Option.bind_some, hstop, Option.map_some]
    rw [hstep, Nat.zero_add]
  | vector len elem =>
    rw [hres] at hty hk
    obtain rfl := Option.some.inj hty
    obtain ⟨rfl, hlt⟩ := toUsize_eq_some hk
    obtain ⟨m, hm⟩ : ∃ m, atomCountForType elem = some m := by
      have hi' : i < (List.replicate len elem).length := by simpa using hi
      have hcount := counts_getElem hcounts i hi' (by rw [← hlen]; exact hi')
      rw [List.getElem_replicate] at hcount
      exact ⟨_, hcount⟩
    obtain rfl := counts_replicate hcounts hm
    have htake : ∀ j ≤ len, ((List.replicate len m).take j).sum = j * m := by
      intro j hj
      rw [List.take_replicate, Nat.min_eq_left hj, List.sum_replicate_nat]
    rw [htake (i + 1) hi] at hle
    have hsucc : (i + 1) * m = i * m + m := Nat.succ_mul i m
    have hstart : checkedMul i m = some (i * m) := toUsize_of_lt (by omega)
    have hstop : checkedAdd (i * m) m = some (i * m + m) := toUsize_of_lt (by omega)
    refine ⟨?_, by simp, by simp [hi]⟩
    simp only [hk, Option.bind_some, Nat.not_le.2 hi, if_false, hm, hstart, hstop, Option.map_some]
    rw [htake i (Nat.le_of_lt hi), htake (i + 1) hi, hsucc]
  | _ =>
    rw [hres] at hk
    cases hk

end Layouts

section Agreement

variable (c : Codecs)

/-- A struct layout puts each field at the sum of the widths before it. A name
finds the first field that has it. -/
theorem layoutFrom_spec {fields : List (String × Ty)} {counts : List ℕ}
    (h : Counts (fields.map Prod.snd) counts) (offset : ℕ)
    (hbound : offset + counts.sum < usizeBound) :
    ∃ layout, layoutFrom fields offset = some layout ∧
      ∀ (i : ℕ) (field : String × Ty), fields[i]? = some field →
        (∀ j < i, ∀ g, fields[j]? = some g → g.1 ≠ field.1) →
        ∃ k, counts[i]? = some k ∧
          layout.fieldSlice field.1 = some (offset + (counts.take i).sum, k) := by
  induction fields generalizing counts offset with
  | nil => exact ⟨[], rfl, by simp⟩
  | cons head fields ih =>
    obtain ⟨name, ty⟩ := head
    cases h with
    | @cons _ k _ counts hk hrest =>
      rw [List.sum_cons] at hbound
      have hnext : checkedAdd offset k = some (offset + k) := toUsize_of_lt (by omega)
      obtain ⟨layout, hlayout, hslices⟩ := ih hrest (offset + k) (by omega)
      refine ⟨(name, offset, k) :: layout, ?_, ?_⟩
      · simp only at hk
        simp only [layoutFrom, hk, Option.bind_some, hnext, hlayout, Option.map_some]
      · intro i field hfield hfirst
        cases i with
        | zero =>
          simp only [List.getElem?_cons_zero, Option.some.injEq] at hfield
          subst field
          exact ⟨k, rfl, by simp [StructLayout.fieldSlice]⟩
        | succ i =>
          have hne : name ≠ field.1 := hfirst 0 (Nat.succ_pos i) (name, ty) rfl
          obtain ⟨m, hm, hslice⟩ := hslices i field hfield
            (fun j hj g hg => hfirst (j + 1) (Nat.succ_lt_succ hj) g hg)
          refine ⟨m, hm, ?_⟩
          unfold StructLayout.fieldSlice at hslice ⊢
          rw [List.find?_cons_of_neg (by simpa using hne), hslice, List.take_succ_cons,
            List.sum_cons, Nat.add_assoc]

theorem atomCount_resolved (ty : Ty) : atomCountForType ty.resolved = atomCountForType ty := by
  induction ty using Ty.resolved.induct with
  | case1 nominal name ty ih => exact ih
  | case2 ty h =>
    cases ty with
    | aliasOf nominal name ty => exact absurd rfl (h nominal name ty)
    | _ => rfl

theorem encodeTyped_resolved (v : Value) (ty : Ty) :
    encodeTyped c v ty.resolved = encodeTyped c v ty := by
  induction ty using Ty.resolved.induct with
  | case1 nominal name ty ih => exact ih
  | case2 ty h =>
    cases ty with
    | aliasOf nominal name ty => exact absurd rfl (h nominal name ty)
    | _ => rfl

theorem wellFormed_resolved {v : Value} {ty : Ty} (h : WellFormed c Holds ty v) :
    WellFormed c Holds ty.resolved v := by
  induction ty using Ty.resolved.induct with
  | case1 nominal name ty ih =>
    cases h with
    | flat ty' av h =>
      cases h with
      | aliasOf nominal name ty av h => exact ih (.flat ty av h)
    | aliasOf nominal name ty v h => exact ih h
  | case2 ty hne =>
    cases ty with
    | aliasOf nominal name ty => exact absurd rfl (hne nominal name ty)
    | _ => exact h

/-- Where the layout of a type puts the encodings of its elements. -/
def ElementsAt (ty : Ty) (v : Value) (av : AlignedValue) : Prop :=
  ∀ k i, elementCount ty = some k → i < k →
    ∃ start stop part elem, elementAtomRange ty i = some (start, stop) ∧
      elementTypeAt ty i = some elem ∧ sliceAtoms av start stop = some part ∧
      (∃ e, Component c ty.resolved v i e) ∧
      ∀ e, Component c ty.resolved v i e → encodeTyped c e elem = .ok part

/-- Where the layout of a struct type puts the encodings of its fields. -/
def FieldsAt (ty : Ty) (v : Value) (av : AlignedValue) : Prop :=
  ∀ name fields, ty.resolved = .struct name fields →
    ∃ layout, layoutFromFields fields = some layout ∧
      ∀ (i : ℕ) (field : String × Ty), fields[i]? = some field →
        (∀ j < i, ∀ g, fields[j]? = some g → g.1 ≠ field.1) →
        ∃ start len part, layout.fieldSlice field.1 = some (start, len) ∧
          sliceAtoms av start (start + len) = some part ∧
          (∃ e, Component c ty.resolved v i e) ∧
          ∀ e, Component c ty.resolved v i e → encodeTyped c e field.2 = .ok part

theorem elementsAt_of_encodedAs {ty : Ty} {v : Value} {n : ℕ} {types : List Ty}
    {parts : List AlignedValue} (hn : atomCountForType ty = some n)
    (hty : ty.resolved.components = some types)
    (h : EncodedAs c ty.resolved types v parts) : ElementsAt c ty v (.concat parts) := by
  intro k i hk hi
  obtain ⟨counts, hcounts, rfl, hbound⟩ := components_counts hty ((atomCount_resolved ty).trans hn)
  obtain ⟨hrange, rfl, helem⟩ := elementAtomRange_eq hty hk hcounts hbound i hi
  obtain ⟨part, hpart, henc⟩ := h.slice c hcounts i hi
  exact ⟨_, _, part, types[i], hrange, helem.trans (List.getElem?_eq_getElem hi), hpart,
    h.has i hi, henc⟩

theorem fieldsAt_of_encodedAs {ty : Ty} {v : Value} {n : ℕ} {types : List Ty}
    {parts : List AlignedValue} (hn : atomCountForType ty = some n)
    (hty : ty.resolved.components = some types)
    (h : EncodedAs c ty.resolved types v parts) : FieldsAt c ty v (.concat parts) := by
  intro name fields hstruct
  obtain ⟨counts, hcounts, rfl, hbound⟩ := components_counts hty ((atomCount_resolved ty).trans hn)
  rw [hstruct] at hty
  obtain rfl := Option.some.inj hty
  obtain ⟨layout, hlayout, hslices⟩ := layoutFrom_spec hcounts 0 (by omega)
  refine ⟨layout, hlayout, fun i field hfield hfirst => ?_⟩
  obtain ⟨k, hk, hslice⟩ := hslices i field hfield hfirst
  obtain ⟨hi, heq⟩ := List.getElem?_eq_some_iff.1 hfield
  have hi' : i < (fields.map Prod.snd).length := by simpa using hi
  obtain ⟨hic, rfl⟩ := List.getElem?_eq_some_iff.1 hk
  obtain ⟨part, hpart, henc⟩ := h.slice c hcounts i hi'
  rw [Nat.zero_add] at hslice
  rw [sum_take_succ counts i hic] at hpart
  refine ⟨_, _, part, hslice, hpart, h.has i hi', fun e he => ?_⟩
  have hpartEnc := henc e he
  rwa [List.getElem_map, heq] at hpartEnc

theorem not_aggregate {ty : Ty} (hty : ty.resolved.components = none) (v : Value)
    (av : AlignedValue) : ElementsAt c ty v av ∧ FieldsAt c ty v av := by
  constructor
  · intro k i hk hi
    unfold elementCount at hk
    cases hres : ty.resolved <;> simp_all [Ty.components]
  · intro name fields hstruct
    rw [hstruct] at hty
    cases hty

/-- Layout and encoder agree on every type whose atoms fit a `usize` and every
well-formed value whose numbers the interpreter holds. -/
theorem encoder_agrees_with_layout (ty : Ty) (v : Value) (n : ℕ)
    (hn : atomCountForType ty = some n) (hv : WellFormed c Holds ty v) :
    ∃ av, encodeTyped c v ty = .ok av ∧ av.value.length = n ∧
      encodeTyped c (.alignedValue av) ty = .ok av ∧ ElementsAt c ty v av ∧
      FieldsAt c ty v av := by
  obtain ⟨av, hav, hflat⟩ := encodeTyped_wellFormed c ty v hv
  have hsized := sized_flat c hflat n hn
  refine ⟨av, hav, hsized.1, encodeTyped_flat c ty av hflat, ?_⟩
  cases hty : ty.resolved.components with
  | none => exact not_aggregate c hty v av
  | some types =>
    obtain ⟨parts, hparts⟩ := exists_encodedAs c hty ((atomCount_resolved ty).trans hn)
      (wellFormed_resolved c hv)
    have henc := hparts.encoded
    rw [encodeTyped_resolved, hav] at henc
    obtain rfl := Except.ok.inj henc
    exact ⟨elementsAt_of_encodedAs c hn hty hparts, fieldsAt_of_encodedAs c hn hty hparts⟩

/-- A codec that takes any atoms of the right number as an encoding. -/
def plainCodec (alignment : List AlignmentSegment) : Codec alignment where
  reencode atoms := if atoms.length = alignment.length then some atoms else none
  reencode_reencode a b h := by
    split at h
    · cases h
      simp_all
    · cases h
  length_reencode a b h := by
    split at h
    · cases h
      assumption
    · cases h

def plainCodecs : Codecs := ⟨fun f => plainCodec f.alignment, fun curve => plainCodec curve.alignment⟩

/-- A struct with one flat part inside a structured tuple. -/
theorem encoder_agrees_with_layout_nested :
    ∃ av, encodeTyped plainCodecs
        (.struct [("flags", .tuple [.bool true, .alignedValue (.single [7] (.bytes 4))]),
          ("n", .integer 300)])
        (.struct "Pair" [("n", .unsigned 1000), ("flags", .tuple [.boolean, .bytes 4])]) = .ok av ∧
      av.value.length = 3 := by
  obtain ⟨av, hav, hlen, _⟩ := encoder_agrees_with_layout plainCodecs
    (.struct "Pair" [("n", .unsigned 1000), ("flags", .tuple [.boolean, .bytes 4])])
    (.struct [("flags", .tuple [.bool true, .alignedValue (.single [7] (.bytes 4))]),
      ("n", .integer 300)]) 3 rfl
    (.struct "Pair" _ _
      (fun name => if name = "n" then .integer 300
        else .tuple [.bool true, .alignedValue (.single [7] (.bytes 4))]) rfl (by decide)
      (by
        intro f hf
        simp only [List.mem_cons, List.not_mem_nil, or_false] at hf
        rcases hf with rfl | rfl <;> rfl)
      (by
        intro f hf
        simp only [List.mem_cons, List.not_mem_nil, or_false] at hf
        rcases hf with rfl | rfl
        · exact .integer 1000 300 (by decide) (by decide) ⟨by decide, by decide⟩
        · refine .tuple _ _ rfl ?_
          intro p hp
          simp only [List.zip_cons_cons, List.zip_nil_right, List.mem_cons, List.not_mem_nil,
            or_false] at hp
          rcases hp with rfl | rfl
          · exact .bool true
          · exact .flat _ _ (.bytes 4 [7] (by decide))))
  exact ⟨av, hav, hlen⟩

/-- The number 2^128 as a flat `Uint<248>`. -/
def wideUint : AlignedValue :=
  .single (trim (toLeBytes (uintByteWidth (2 ^ 248 - 1)) (2 ^ 128)))
    (.bytes (asU32 (uintByteWidth (2 ^ 248 - 1))))

/-- Three well-formed values that the encoder or the layout does not take: a flat
`Uint` of more than 128 bits, an enum index of more than a byte, and a vector
that is empty while its element overflows a `usize`. -/
theorem encoder_refuses_well_formed :
    (WellFormed plainCodecs (fun _ _ => True) (.unsigned (2 ^ 248 - 1)) (.alignedValue wideUint) ∧
      ∀ av, encodeTyped plainCodecs (.alignedValue wideUint) (.unsigned (2 ^ 248 - 1)) ≠ .ok av) ∧
    (WellFormed plainCodecs (fun _ _ => True)
        (.enum "Wide" ((List.range 257).map toString)) (.integer 256) ∧
      ∀ av, encodeTyped plainCodecs (.integer 256)
        (.enum "Wide" ((List.range 257).map toString)) ≠ .ok av) ∧
    (WellFormed plainCodecs (fun _ _ => True)
        (.vector 0 (.vector (2 ^ 63) (.vector 2 .boolean))) (.tuple []) ∧
      encodeTyped plainCodecs (.tuple []) (.vector 0 (.vector (2 ^ 63) (.vector 2 .boolean))) =
        .ok .unit ∧
      atomCountForType (.vector 0 (.vector (2 ^ 63) (.vector 2 .boolean))) = none) := by
  refine ⟨⟨?_, ?_⟩, ⟨?_, ?_⟩, ?_, rfl, by decide⟩
  · exact .flat _ _ (.unsigned _ _ (by decide) trivial)
  · intro av h
    have hnone : alignedAtomToU128 wideUint = none := by decide
    simp [encodeTyped, encodeUnsigned, valueToU128, hnone] at h
  · exact .enumInteger _ _ 256 (by simp) trivial
  · intro av h
    simp [encodeTyped, encodeEnum] at h
  · exact .vector 0 _ [] rfl (by simp)

end Agreement

end MidnightRs.Compact
