import MidnightRs.Results
import MidnightRs.TypeRuns

/-!
Casts between the types of numbers. A value of such a type denotes one number,
whatever its representation, and a cast succeeds on the numbers that the target
holds and keeps them.
-/
namespace MidnightRs.Circuits

open MidnightRs.Compact Results

section Denotations

/-- One atom in normal form, as the ledger holds a number. -/
def Numeral (n : ℕ) (v : Value) : Prop :=
  ∃ av a, v = .alignedValue av ∧ av.value = [a] ∧ trim a = a ∧ ofLeBytes a = n

/-- A number while a circuit runs: an integer of 128 bits, or flat. -/
def Held (n : ℕ) (v : Value) : Prop := v = .integer n ∧ n < u128Bound ∨ Numeral n v

/-- The well-formed values of a type, each with its number. `order` is the order of the
native field. -/
def Denotes (order : ℕ) (ty : Ty) (n : ℕ) (v : Value) : Prop :=
  match ty.resolved with
  | .field _ => n < order ∧ Held n v
  | .unsigned maxval => n ≤ maxval ∧ Held n v
  | .enum _ variants => n < variants.length ∧ Held n v
  | .boolean => n < 2 ∧ (v = .bool (decide (n = 1)) ∨ Held n v)
  | .bytes length =>
    ∃ av a, v = .alignedValue av ∧ av.value = [a] ∧ trim a = a ∧ a.length ≤ length ∧
      ofLeBytes a = n
  | _ => False

/-- The types that a cast keeps numbers of in both directions. A list of variants has
a length. -/
def Numeric (ty : Ty) : Prop :=
  match ty.resolved with
  | .field f => ForeignField.of f = none
  | .unsigned _ => True
  | .enum _ variants => variants ≠ [] ∧ variants.length < usizeBound
  | _ => False

/-- The types that such a cast starts from. -/
def CastSource (ty : Ty) : Prop :=
  match ty.resolved with
  | .boolean => True
  | .bytes length => length < usizeBound
  | _ => Numeric ty

/-- The numbers that a cast to the type takes. -/
def WithinBound (order : ℕ) (ty : Ty) (n : ℕ) : Prop :=
  match ty.resolved with
  | .field _ => n < order
  | .unsigned maxval => n ≤ maxval ∧ n < u128Bound
  | .enum _ variants => n ≤ variants.length - 1
  | _ => False

/-- What the curve library promises of the native field: its elements are the numbers
below its order, read and written as little-endian bytes. -/
structure FieldLaws {c : Codecs} (crypto : Crypto c) (order : ℕ) where
  u128_le : u128Bound ≤ order
  order_le : order ≤ 256 ^ 32
  fromLeBytes_below : ∀ bytes, bytes.length ≤ 32 → ofLeBytes bytes < order →
    crypto.elements.frFromLeBytes bytes = some (trim bytes)
  fromLeBytes_above : ∀ bytes, order ≤ ofLeBytes bytes →
    crypto.elements.frFromLeBytes bytes = none
  number : crypto.Fr → ℕ
  ofNat : ∀ n < u128Bound, number (crypto.frOfNat n) = n
  ofAtom : ∀ a, trim a = a → ofLeBytes a < order →
    ∃ fr, crypto.frOfAtoms [a] = some fr ∧ number fr = ofLeBytes a
  leBytes : ∀ fr, ofLeBytes (crypto.frLeBytes fr) = number fr

theorem trim_trim (bs : Bytes) : trim (trim bs) = trim bs :=
  trim_eq_of_ofLeBytes_eq _ _ (ofLeBytes_trim bs)

theorem ofLeBytes_append_zeros (bs : Bytes) (n : ℕ) :
    ofLeBytes (bs ++ List.replicate n 0) = ofLeBytes bs := by
  have hzeros : ∀ n, ofLeBytes (List.replicate n 0) = 0 := by
    intro n
    induction n with
    | zero => rfl
    | succ n ih =>
      rw [List.replicate_succ, ofLeBytes, ih]
      rfl
  induction bs with
  | nil => exact hzeros n
  | cons b bs ih => rw [List.cons_append, ofLeBytes, ih, ofLeBytes]

theorem uintByteWidth_le_of_lt {n width : ℕ} (hwidth : 0 < width) (h : n < 256 ^ width) :
    uintByteWidth n ≤ width := by
  unfold uintByteWidth
  split
  · omega
  · rename_i hne
    have hpow : (256 : ℕ) ^ width = 2 ^ (8 * width) := by rw [Nat.pow_mul]
    have hlog : Nat.log2 n < 8 * width := (Nat.log2_lt hne).mpr (hpow ▸ h)
    omega

/-- A normal form has no more bytes than its number needs. -/
theorem length_trim_le_iff (bs : Bytes) (width : ℕ) :
    (trim bs).length ≤ width ↔ ofLeBytes bs < 256 ^ width := by
  constructor
  · intro h
    calc ofLeBytes bs = ofLeBytes (trim bs) := (ofLeBytes_trim bs).symm
      _ < 256 ^ (trim bs).length := ofLeBytes_lt _
      _ ≤ 256 ^ width := Nat.pow_le_pow_right (by omega) h
  · intro h
    have htrim : trim bs = trim (toLeBytes width (ofLeBytes bs)) :=
      trim_eq_of_ofLeBytes_eq _ _ (ofLeBytes_toLeBytes width _ h).symm
    rw [htrim]
    exact (length_trim_le _).trans_eq (length_toLeBytes width _)

theorem Held.numericValue {n : ℕ} {v : Value} (h : Held n v) : numericValue v = .ok n := by
  rcases h with ⟨rfl, -⟩ | ⟨av, a, rfl, hvalue, -, rfl⟩
  · rfl
  · simp only [Compact.numericValue, tryToAlignedValue, Except.bind, hvalue]

theorem Denotes.numericValue {order : ℕ} {ty : Ty} {n : ℕ} {v : Value}
    (h : Denotes order ty n v) : numericValue v = .ok n := by
  unfold Denotes at h
  split at h
  · exact h.2.numericValue
  · exact h.2.numericValue
  · exact h.2.numericValue
  · obtain ⟨hn, rfl | hheld⟩ := h
    · have hcases : n = 0 ∨ n = 1 := by omega
      rcases hcases with rfl | rfl
      · rfl
      · rfl
    · exact hheld.numericValue
  · obtain ⟨av, a, rfl, hvalue, htrim, -, rfl⟩ := h
    exact Held.numericValue (Or.inr ⟨av, a, rfl, hvalue, htrim, rfl⟩)
  · exact h.elim

/-- The byte string of a well-formed value. -/
theorem Denotes.byteString {order : ℕ} {ty : Ty} {n length : ℕ} {v : Value}
    (h : Denotes order ty n v) (hty : ty.resolved = .bytes length) :
    ∃ a, valueToByteString v length = .ok a ∧ trim a = a ∧ ofLeBytes a = n := by
  unfold Denotes at h
  rw [hty] at h
  obtain ⟨⟨value, alignment⟩, a, rfl, hvalue, htrim, hlength, hn⟩ := h
  obtain rfl : value = [a] := hvalue
  refine ⟨a, ?_, htrim, hn⟩
  simp only [valueToByteString, Nat.not_lt.mpr hlength, if_false]

end Denotations

section CastNumbers

variable {c : Codecs} {crypto : Crypto c} {order : ℕ}

theorem uintValue_of_lt {n : ℕ} (h : n < u128Bound) : uintValue n = .ok (.integer n) := if_pos h

/-- A cast to a Uint checks the number against the bound, and nothing else. -/
theorem castToUint_eq {source : Ty} (hsource : CastSource source) {n : ℕ} {v : Value}
    (h : Denotes order source n v) (maxval : ℕ) :
    ∃ message, castToUint v source maxval =
      if maxval < n then .error (.assertionFailed message) else uintValue n := by
  have hnumber := h.numericValue
  unfold castToUint
  split
  · rename_i length hty
    obtain ⟨a, hbytes, -, rfl⟩ := h.byteString hty
    have hlength : length < usizeBound := by
      unfold CastSource at hsource
      rw [hty] at hsource
      exact hsource
    simp only [irLength, hlength, if_true, paddedBytes, hbytes, Except.bind, Except.map,
      ofLeBytes_append_zeros]
    exact ⟨_, rfl⟩
  · rw [hnumber]
    exact ⟨_, rfl⟩
  · rw [hnumber]
    exact ⟨_, rfl⟩

/-- The bytes that a cast to the field reads spell the number. -/
theorem castToField_eq (laws : FieldLaws crypto order) {source : Ty} (hsource : CastSource source)
    {n : ℕ} {v : Value} (h : Denotes order source n v) :
    ∃ bytes, ofLeBytes bytes = n ∧ castToField crypto.elements v source =
      if n < order then .ok (.alignedValue (.single (trim bytes) .field))
      else .error (.exceedsField bytes) := by
  have hread : ∃ bytes, ofLeBytes bytes = n ∧ (n < order → bytes.length ≤ 32) ∧
      castToField crypto.elements v source =
        (crypto.elements.frFromLeBytes bytes).elim (.error (.exceedsField bytes))
          (fun a => .ok (.alignedValue (.single a .field))) := by
    unfold castToField
    split
    · rename_i length hty
      obtain ⟨a, hbytes, htrim, rfl⟩ := h.byteString hty
      have hlength : length < usizeBound := by
        unfold CastSource at hsource
        rw [hty] at hsource
        exact hsource
      refine ⟨a, rfl, fun hlt => ?_, ?_⟩
      · rw [← htrim]
        exact (length_trim_le_iff a 32).mpr (hlt.trans_le laws.order_le)
      · have hwidth : irLength length = .ok length := if_pos hlength
        rw [hwidth]
        show (valueToByteString _ length).bind _ = _
        rw [hbytes]
        simp only [Except.bind]
        cases crypto.elements.frFromLeBytes a <;> rfl
    · refine ⟨toLeBytes (uintByteWidth n) n, ofLeBytes_toLeBytes _ n
        (lt_pow_uintByteWidth n n (Nat.le_refl n)), fun hlt => ?_, ?_⟩
      · rw [length_toLeBytes]
        exact uintByteWidth_le_of_lt (by omega) (hlt.trans_le laws.order_le)
      · rw [h.numericValue]
        simp only [Except.map, Except.bind]
        cases crypto.elements.frFromLeBytes (toLeBytes (uintByteWidth n) n) <;> rfl
  obtain ⟨bytes, hn, hlength, hcast⟩ := hread
  refine ⟨bytes, hn, ?_⟩
  rw [hcast]
  by_cases hlt : n < order
  · rw [if_pos hlt, laws.fromLeBytes_below bytes (hlength hlt) (hn.symm ▸ hlt), Option.elim_some]
  · rw [if_neg hlt, laws.fromLeBytes_above bytes (by omega), Option.elim_none]

theorem held_integer {n : ℕ} (h : n < u128Bound) : Held n (.integer n) := Or.inl ⟨rfl, h⟩

/-- A cast to a number type, one target at a time: what it checks and what it gives. -/
theorem evalCast_ok_iff (laws : FieldLaws crypto order) {source target : Ty}
    (hsource : CastSource source) (htarget : Numeric target) {n : ℕ} {v : Value}
    (h : Denotes order source n v) :
    ((∃ w, evalCast crypto.elements v source target = .ok w) ↔ WithinBound order target n) ∧
      ∀ w, evalCast crypto.elements v source target = .ok w → Denotes order target n w := by
  unfold evalCast WithinBound Denotes
  unfold Numeric at htarget
  cases hty : target.resolved with
  | field f =>
    rw [hty] at htarget
    simp only at htarget
    simp only [htarget]
    obtain ⟨bytes, hn, hcast⟩ := castToField_eq laws hsource h
    rw [hcast]
    by_cases hlt : n < order
    · rw [if_pos hlt]
      refine ⟨⟨fun _ => hlt, fun _ => ⟨_, rfl⟩⟩, fun w hw => ?_⟩
      cases hw
      exact ⟨hlt, Or.inr ⟨_, trim bytes, rfl, rfl, trim_trim bytes, (ofLeBytes_trim bytes).trans hn⟩⟩
    · rw [if_neg hlt]
      refine ⟨⟨fun ⟨w, hw⟩ => (by cases hw), fun hn => absurd hn hlt⟩, fun w hw => (by cases hw)⟩
  | unsigned maxval =>
    simp only
    obtain ⟨message, hcast⟩ := castToUint_eq hsource h maxval
    rw [hcast]
    by_cases hmax : maxval < n
    · rw [if_pos hmax]
      refine ⟨⟨fun ⟨w, hw⟩ => (by cases hw), fun hn => absurd hn.1 (by omega)⟩,
        fun w hw => (by cases hw)⟩
    · rw [if_neg hmax]
      by_cases hlt : n < u128Bound
      · rw [uintValue_of_lt hlt]
        refine ⟨⟨fun _ => ⟨by omega, hlt⟩, fun _ => ⟨_, rfl⟩⟩, fun w hw => ?_⟩
        cases hw
        exact ⟨by omega, held_integer hlt⟩
      · have herror : uintValue n = .error (.uintAboveU128 n) := if_neg hlt
        rw [herror]
        refine ⟨⟨fun ⟨w, hw⟩ => (by cases hw), fun hn => absurd hn.2 hlt⟩,
          fun w hw => (by cases hw)⟩
  | enum name variants =>
    rw [hty] at htarget
    obtain ⟨hne, hlength⟩ := htarget
    have hpos := List.length_pos_iff.mpr hne
    have husize : usizeBound ≤ u128Bound := by decide
    simp only [castToEnum, h.numericValue, Except.bind]
    by_cases hlast : variants.length - 1 < n
    · rw [if_pos hlast]
      refine ⟨⟨fun ⟨w, hw⟩ => (by cases hw), fun hn => absurd hn (by omega)⟩,
        fun w hw => (by cases hw)⟩
    · rw [if_neg hlast, uintValue_of_lt (by omega)]
      refine ⟨⟨fun _ => by omega, fun _ => ⟨_, rfl⟩⟩, fun w hw => ?_⟩
      cases hw
      exact ⟨by omega, held_integer (by omega)⟩
  | _ =>
    rw [hty] at htarget
    exact htarget.elim

theorem Numeric.castSource {ty : Ty} (h : Numeric ty) : CastSource ty := by
  unfold CastSource
  split
  · trivial
  · rename_i hty
    unfold Numeric at h
    rw [hty] at h
    exact h.elim
  · exact h

/-- The numbers of a type that a cast back to it takes: a Uint is 128 bits wide while a
circuit runs. -/
def Returns (ty : Ty) (n : ℕ) : Prop := ∀ maxval, ty.resolved = .unsigned maxval → n < u128Bound

theorem withinBound_iff {ty : Ty} (hty : Numeric ty) {n : ℕ} {v : Value}
    (h : Denotes order ty n v) : WithinBound order ty n ↔ Returns ty n := by
  unfold Denotes at h
  unfold WithinBound Returns
  unfold Numeric at hty
  cases hresolved : ty.resolved with
  | field f =>
    rw [hresolved] at h
    exact ⟨fun _ _ heq => (by cases heq), fun _ => h.1⟩
  | unsigned maxval =>
    rw [hresolved] at h
    exact ⟨fun hn _ _ => hn.2, fun hn => ⟨h.1, hn maxval rfl⟩⟩
  | enum name variants =>
    rw [hresolved] at h
    have hn := h.1
    simp only
    exact ⟨fun _ _ heq => (by cases heq), fun _ => by omega⟩
  | _ =>
    rw [hresolved] at hty
    exact hty.elim

/-- A field element as bytes: those of its number, if they are enough. -/
theorem fieldToBytes_ok_iff (laws : FieldLaws crypto order) {f : FieldType}
    (hf : ForeignField.of f = none) {len n : ℕ} (hlen : len < 2 ^ 32) {v : Value}
    (h : Denotes order (.field f) n v) :
    ((∃ w, fieldToBytes crypto len f v = .ok w) ↔ n < 256 ^ len) ∧
      ∀ w, fieldToBytes crypto len f v = .ok w → Denotes order (.bytes len) n w := by
  obtain ⟨hlt, hheld⟩ : n < order ∧ Held n v := h
  have hfr : ∃ fr, valueToFr crypto v = some fr ∧ laws.number fr = n := by
    rcases hheld with ⟨rfl, hn⟩ | ⟨⟨value, alignment⟩, a, rfl, hvalue, htrim, rfl⟩
    · exact ⟨_, rfl, laws.ofNat n hn⟩
    · obtain rfl : value = [a] := hvalue
      exact laws.ofAtom a htrim hlt
  obtain ⟨fr, hfr, hnumber⟩ := hfr
  have hbytes : ofLeBytes (crypto.frLeBytes fr) = n := (laws.leBytes fr).trans hnumber
  have husize : len < usizeBound := hlen.trans (by decide)
  have hasU32 : asU32 len = len := Nat.mod_eq_of_lt hlen
  have hrun : fieldToBytes crypto len f v =
      fieldToBytes.toBytes (crypto.frLeBytes fr) len := by
    simp only [fieldToBytes, irLength, husize, if_true, hf, hfr, required, bind, Except.bind]
  rw [hrun]
  unfold fieldToBytes.toBytes bytesAlignedValue
  rw [hasU32]
  have hfits := length_trim_le_iff (crypto.frLeBytes fr) len
  rw [hbytes] at hfits
  by_cases hn : n < 256 ^ len
  · rw [if_pos (hfits.mpr hn)]
    refine ⟨⟨fun _ => hn, fun _ => ⟨_, rfl⟩⟩, fun w hw => ?_⟩
    cases hw
    exact ⟨_, trim (crypto.frLeBytes fr), rfl, rfl, trim_trim _, hfits.mpr hn,
      (ofLeBytes_trim _).trans hbytes⟩
  · rw [if_neg (fun hle => hn (hfits.mp hle))]
    refine ⟨iff_of_false ?_ hn, fun w hw => (by cases hw)⟩
    rintro ⟨w, hw⟩
    cases hw

/-- Casts keep the number: forth, back where the type takes it back, and through bytes. -/
theorem casts_keep_numbers (laws : FieldLaws crypto order) :
    (∀ source target n v, CastSource source → Numeric target → Denotes order source n v →
      ((∃ w, evalCast crypto.elements v source target = .ok w) ↔ WithinBound order target n) ∧
      ∀ w, evalCast crypto.elements v source target = .ok w →
        Denotes order target n w ∧
        (Numeric source →
          ((∃ u, evalCast crypto.elements w target source = .ok u) ↔ Returns source n) ∧
          ∀ u, evalCast crypto.elements w target source = .ok u → Denotes order source n u)) ∧
    ∀ f len n v, ForeignField.of f = none → len < 2 ^ 32 → Denotes order (.field f) n v →
      ((∃ w, fieldToBytes crypto len f v = .ok w) ↔ n < 256 ^ len) ∧
      ∀ w, fieldToBytes crypto len f v = .ok w →
        Denotes order (.bytes len) n w ∧
        ∃ u, evalCast crypto.elements w (.bytes len) (.field f) = .ok u ∧
          Denotes order (.field f) n u := by
  constructor
  · intro source target n v hsource htarget h
    have hforth := evalCast_ok_iff laws hsource htarget h
    refine ⟨hforth.1, fun w hw => ⟨hforth.2 w hw, fun hnumeric => ?_⟩⟩
    have hback := evalCast_ok_iff laws htarget.castSource hnumeric (hforth.2 w hw)
    exact ⟨hback.1.trans (withinBound_iff hnumeric h), hback.2⟩
  · intro f len n v hf hlen h
    have hbytes := fieldToBytes_ok_iff laws hf hlen h
    refine ⟨hbytes.1, fun w hw => ⟨hbytes.2 w hw, ?_⟩⟩
    have hsource : CastSource (.bytes len) := hlen.trans (by decide)
    have hback := evalCast_ok_iff laws hsource (show Numeric (.field f) from hf) (hbytes.2 w hw)
    obtain ⟨u, hu⟩ := hback.1.mpr h.1
    exact ⟨u, hu, hback.2 u hu⟩

end CastNumbers

section Plain

/-- The order of the scalar field of BLS12-381. -/
def frOrder : ℕ := 0x73eda753299d7d483339d80809a1d80553bda402fffe5bfeffffffff00000001

def numberCrypto : Crypto plainCodecs :=
  { plainCrypto with
    elements := { plainElements with
      frFromLeBytes := fun bytes =>
        if ofLeBytes bytes < frOrder then some (trim bytes) else none }
    frLeBytes := fun (n : ℕ) => toLeBytes (max 32 (uintByteWidth n)) n }

def numberLaws : FieldLaws numberCrypto frOrder where
  u128_le := by decide
  order_le := by decide
  fromLeBytes_below _ _ h := if_pos h
  fromLeBytes_above _ h := if_neg (Nat.not_lt.mpr h)
  number := id
  ofNat _ _ := rfl
  ofAtom a _ _ := ⟨ofLeBytes a, rfl, rfl⟩
  leBytes n := ofLeBytes_toLeBytes _ n
    ((lt_pow_uintByteWidth n n (Nat.le_refl n)).trans_le
      (Nat.pow_le_pow_right (by omega) (Nat.le_max_right _ _)))

/-- The two bytes of 298 as a number, and 298 through the field and back. -/
theorem casts_keep_bytes :
    (∃ w, evalCast numberCrypto.elements (.alignedValue (.single [42, 1] (.bytes 4))) (.bytes 4)
        (.unsigned 1000) = .ok w ∧ Denotes frOrder (.unsigned 1000) 298 w) ∧
    (∃ w u, evalCast numberCrypto.elements (.integer 298) (.unsigned 1000) (.field .native) =
        .ok w ∧ evalCast numberCrypto.elements w (.field .native) (.unsigned 1000) = .ok u ∧
      Denotes frOrder (.unsigned 1000) 298 u) ∧
    ∃ w, fieldToBytes numberCrypto 2 .native (.integer 298) = .ok w ∧
      Denotes frOrder (.bytes 2) 298 w := by
  refine ⟨?_, ?_, ?_⟩
  · have hdenotes : Denotes frOrder (.bytes 4) 298
        (.alignedValue (.single [42, 1] (.bytes 4))) :=
      ⟨_, _, rfl, rfl, rfl, by decide, rfl⟩
    have hcast := (casts_keep_numbers numberLaws).1 (.bytes 4) (.unsigned 1000) 298 _
      (show 4 < usizeBound by decide) trivial hdenotes
    obtain ⟨w, hw⟩ := hcast.1.mpr ⟨by decide, by decide⟩
    exact ⟨w, hw, (hcast.2 w hw).1⟩
  · have hdenotes : Denotes frOrder (.unsigned 1000) 298 (.integer 298) :=
      ⟨by decide, held_integer (by decide)⟩
    have hcast := (casts_keep_numbers numberLaws).1 (.unsigned 1000) (.field .native) 298 _
      trivial rfl hdenotes
    obtain ⟨w, hw⟩ := hcast.1.mpr (show 298 < frOrder by decide)
    obtain ⟨-, hback⟩ := hcast.2 w hw
    obtain ⟨u, hu⟩ := (hback trivial).1.mpr (fun _ _ => by decide)
    exact ⟨w, u, hw, hu, (hback trivial).2 u hu⟩
  · have hdenotes : Denotes frOrder (.field .native) 298 (.integer 298) :=
      ⟨by decide, held_integer (by decide)⟩
    have hbytes := (casts_keep_numbers numberLaws).2 .native 2 298 _ rfl (by decide) hdenotes
    obtain ⟨w, hw⟩ := hbytes.1.mpr (by decide)
    exact ⟨w, hw, (hbytes.2 w hw).1⟩

/-- A Uint of more than 128 bits casts to the field, and the field element does not cast
back to it. Five does not fit into so many bytes that their number leaves 32 bits. -/
theorem wide_uint_no_return :
    Denotes frOrder (.unsigned (2 ^ 130)) (2 ^ 129)
      (.alignedValue (.single (List.replicate 16 0 ++ [2]) (.bytes 17))) ∧
    ∃ w, evalCast numberCrypto.elements
        (.alignedValue (.single (List.replicate 16 0 ++ [2]) (.bytes 17)))
        (.unsigned (2 ^ 130)) (.field .native) = .ok w ∧
      Denotes frOrder (.field .native) (2 ^ 129) w ∧
      evalCast numberCrypto.elements w (.field .native) (.unsigned (2 ^ 130)) =
        .error (.uintAboveU128 (2 ^ 129)) ∧
      (∃ e, fieldToBytes numberCrypto (2 ^ 32) .native (.integer 5) = .error e) ∧
      5 < 256 ^ (2 ^ 32) := by
  have hwide : (5 : ℕ) < 256 ^ (2 ^ 32) :=
    calc 5 < 256 ^ 1 := by decide
      _ ≤ 256 ^ (2 ^ 32) := Nat.pow_le_pow_right (by decide) (by decide)
  exact ⟨⟨by decide, Or.inr ⟨_, _, rfl, rfl, by decide, by decide⟩⟩, _, rfl,
    ⟨by decide, Or.inr ⟨_, _, rfl, rfl, by decide, by decide⟩⟩, rfl, ⟨_, rfl⟩, hwide⟩

end Plain

end MidnightRs.Circuits
