import MidnightRs.Errors
import Mathlib.Tactic.FinCases
import Mathlib.Data.Fintype.Basic

/-!
Hexadecimal text as the `hex` crate reads and writes it. Decoding accepts both
cases and encoding writes lower case, so the lower-case texts of an even length
are exactly the encodings.
-/
namespace MidnightRs.Hex

def utf8 (text : String) : Bytes := text.toList.flatMap String.utf8EncodeChar

def value (c : UInt8) (index : ℕ) : Except String UInt8 :=
  if 65 ≤ c ∧ c ≤ 70 then .ok (c - 65 + 10)
  else if 97 ≤ c ∧ c ≤ 102 then .ok (c - 97 + 10)
  else if 48 ≤ c ∧ c ≤ 57 then .ok (c - 48)
  else .error s!"Invalid character {(Char.ofNat c.toNat).quote} at position {index}"

def decodePairs (index : ℕ) : Bytes → Except String Bytes
  | high :: low :: rest => do
    let h ← value high index
    let l ← value low (index + 1)
    let bytes ← decodePairs (index + 2) rest
    return (h * 16 + l) :: bytes
  | _ => .ok []

def decode (text : String) : Except String Bytes :=
  if (utf8 text).length % 2 = 1 then .error "Odd number of digits"
  else decodePairs 0 (utf8 text)

def digit (n : ℕ) : Char := if n < 10 then Char.ofNat (48 + n) else Char.ofNat (87 + n)

def encodeChars (bytes : Bytes) : List Char :=
  bytes.flatMap (fun b => [digit (b.toNat / 16), digit (b.toNat % 16)])

def encode (bytes : Bytes) : String := String.ofList (encodeChars bytes)

/-- A digit of a lower-case text. A character outside ASCII is none, so
counting characters is counting bytes. -/
def isLowercaseDigit (c : Char) : Bool := c.isDigit || (decide ('a' ≤ c) && decide (c ≤ 'f'))

def isLowercaseHex (length : ℕ) (text : String) : Bool :=
  decide (text.toList.length = length) && text.toList.all isLowercaseDigit

theorem digit_lt (n : ℕ) (h : n < 16) : isLowercaseDigit (digit n) = true := by
  have hfin : ∀ k : Fin 16, isLowercaseDigit (digit k) = true := by decide
  exact hfin ⟨n, h⟩

theorem utf8EncodeChar_digit (n : ℕ) (h : n < 16) :
    String.utf8EncodeChar (digit n) = [UInt8.ofNat (digit n).toNat] := by
  have hfin : ∀ k : Fin 16, String.utf8EncodeChar (digit k) = [UInt8.ofNat (digit k).toNat] := by
    decide
  exact hfin ⟨n, h⟩

theorem value_digit (n : ℕ) (h : n < 16) (index : ℕ) :
    value (UInt8.ofNat (digit n).toNat) index = .ok (UInt8.ofNat n) := by
  have hfin : ∀ k : Fin 16, value (UInt8.ofNat (digit k).toNat) index = .ok (UInt8.ofNat k) := by
    intro k
    fin_cases k <;> rfl
  exact hfin ⟨n, h⟩

theorem join_halves (b : UInt8) :
    UInt8.ofNat (b.toNat / 16) * 16 + UInt8.ofNat (b.toNat % 16) = b := by
  have hb := b.toNat_lt
  apply UInt8.toNat.inj
  simp only [UInt8.toNat_add, UInt8.toNat_mul, UInt8.toNat_ofNat']
  have hlit : (16 : UInt8).toNat = 16 := rfl
  rw [hlit]
  omega

theorem utf8_encode (bytes : Bytes) :
    utf8 (encode bytes) = bytes.flatMap (fun b =>
      [UInt8.ofNat (digit (b.toNat / 16)).toNat, UInt8.ofNat (digit (b.toNat % 16)).toNat]) := by
  simp only [utf8, encode, String.toList_ofList]
  induction bytes with
  | nil => rfl
  | cons b bytes ih =>
    have hb := b.toNat_lt
    have hhigh := utf8EncodeChar_digit (b.toNat / 16) (by omega)
    have hlow := utf8EncodeChar_digit (b.toNat % 16) (by omega)
    simp only [encodeChars, List.flatMap_cons, List.cons_append, List.nil_append] at ih ⊢
    rw [hhigh, hlow, ih]
    rfl

theorem decodePairs_encode (bytes : Bytes) (index : ℕ) :
    decodePairs index (bytes.flatMap (fun b =>
      [UInt8.ofNat (digit (b.toNat / 16)).toNat, UInt8.ofNat (digit (b.toNat % 16)).toNat])) =
        .ok bytes := by
  induction bytes generalizing index with
  | nil => rfl
  | cons b bytes ih =>
    have hb := b.toNat_lt
    simp only [List.flatMap_cons, List.cons_append, List.nil_append, decodePairs,
      value_digit (b.toNat / 16) (by omega), value_digit (b.toNat % 16) (by omega), ih]
    exact congrArg (fun c => Except.ok (c :: bytes)) (join_halves b)

/-- Decoding inverts encoding. -/
theorem decode_encode (bytes : Bytes) : decode (encode bytes) = .ok bytes := by
  have heven : (utf8 (encode bytes)).length % 2 ≠ 1 := by
    rw [utf8_encode, List.length_flatMap]
    simp
  unfold decode
  rw [if_neg heven, utf8_encode]
  exact decodePairs_encode bytes 0

theorem encode_injective : Function.Injective encode := by
  intro a b h
  have hdecode := decode_encode a
  rw [h, decode_encode] at hdecode
  exact (Except.ok.inj hdecode).symm

theorem isLowercaseHex_encode (bytes : Bytes) :
    isLowercaseHex (2 * bytes.length) (encode bytes) = true := by
  simp only [isLowercaseHex, encode, String.toList_ofList, Bool.and_eq_true, decide_eq_true_eq]
  induction bytes with
  | nil => exact ⟨rfl, rfl⟩
  | cons b bytes ih =>
    have hb := b.toNat_lt
    obtain ⟨hlength, hall⟩ := ih
    simp only [encodeChars, List.flatMap_cons, List.cons_append, List.nil_append,
      List.length_cons, List.all_cons] at hlength hall ⊢
    rw [digit_lt (b.toNat / 16) (by omega), digit_lt (b.toNat % 16) (by omega), hall, hlength]
    exact ⟨by omega, rfl⟩

theorem exists_digit (c : Char) (h : isLowercaseDigit c = true) : ∃ n < 16, c = digit n := by
  simp only [isLowercaseDigit, Char.isDigit, Bool.or_eq_true, Bool.and_eq_true,
    decide_eq_true_eq] at h
  have hval : ∀ n, n < 0xd800 → c.toNat = n → c = Char.ofNat n := by
    intro n hn hc
    rw [← hc, Char.ofNat_toNat]
  rcases h with ⟨hlow, hhigh⟩ | ⟨hlow, hhigh⟩
  · have h1 : 48 ≤ c.toNat := hlow
    have h2 : c.toNat ≤ 57 := hhigh
    refine ⟨c.toNat - 48, by omega, ?_⟩
    unfold digit
    rw [if_pos (by omega)]
    exact hval _ (by omega) (by omega)
  · have h1 : 97 ≤ c.toNat := hlow
    have h2 : c.toNat ≤ 102 := hhigh
    refine ⟨c.toNat - 87, by omega, ?_⟩
    unfold digit
    rw [if_neg (by omega)]
    exact hval _ (by omega) (by omega)

theorem exists_encodeChars (k : ℕ) (chars : List Char) (hlength : chars.length = 2 * k)
    (hall : ∀ c ∈ chars, isLowercaseDigit c = true) :
    ∃ bytes : Bytes, bytes.length = k ∧ encodeChars bytes = chars := by
  induction k generalizing chars with
  | zero => exact ⟨[], rfl, (List.length_eq_zero_iff.mp hlength).symm⟩
  | succ k ih =>
    match chars, hlength with
    | high :: low :: rest, hlength =>
      obtain ⟨bytes, hbytes, hrest⟩ := ih rest (by simp only [List.length_cons] at hlength; omega)
        (fun c hc => hall c (by simp [hc]))
      obtain ⟨h, hh, rfl⟩ := exists_digit high (hall high (by simp))
      obtain ⟨l, hl, rfl⟩ := exists_digit low (hall low (by simp))
      refine ⟨UInt8.ofNat (h * 16 + l) :: bytes, by simp [hbytes], ?_⟩
      have hbyte : (UInt8.ofNat (h * 16 + l)).toNat = h * 16 + l := by
        rw [UInt8.toNat_ofNat']
        omega
      have hhigh : (h * 16 + l) / 16 = h := by omega
      have hlow : (h * 16 + l) % 16 = l := by omega
      simp only [encodeChars, List.flatMap_cons, hbyte, hhigh, hlow] at hrest ⊢
      rw [hrest]
      rfl
    | [_], hlength => simp only [List.length_cons, List.length_nil] at hlength; omega

/-- The lower-case texts of even length are the encodings. -/
theorem exists_encode (k : ℕ) (text : String) (h : isLowercaseHex (2 * k) text = true) :
    ∃ bytes : Bytes, bytes.length = k ∧ encode bytes = text := by
  simp only [isLowercaseHex, Bool.and_eq_true, decide_eq_true_eq, List.all_eq_true] at h
  obtain ⟨bytes, hlength, hchars⟩ := exists_encodeChars k text.toList h.1 h.2
  refine ⟨bytes, hlength, ?_⟩
  unfold encode
  rw [hchars, String.ofList_toList]

end MidnightRs.Hex
