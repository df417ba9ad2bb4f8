import MidnightRs.Errors
import Mathlib.Data.List.Basic
import Mathlib.Data.List.TakeWhile

/-!
Text as its UTF-8 bytes. A scan that looks for ASCII bytes never stops inside a
character, so what it takes and what it leaves are texts again.
-/
namespace MidnightRs.Utf8

/-- The bytes of a text. -/
def encode (cs : List Char) : Bytes := cs.flatMap String.utf8EncodeChar

def isContinuation (b : UInt8) : Bool := decide (128 ≤ b.toNat) && decide (b.toNat < 192)

/-- Whether what follows a position begins a character, or nothing follows. -/
def isCharBoundary : Bytes → Bool
  | [] => true
  | b :: _ => !isContinuation b

/-- The characters of bytes that are a text. -/
def decode : Bytes → List Char
  | [] => []
  | b :: rest =>
    if b.toNat < 128 then Char.ofNat b.toNat :: decode rest
    else
      match rest with
      | [] => []
      | x :: rest =>
        if b.toNat < 224 then Char.ofNat (b.toNat % 32 * 64 + x.toNat % 64) :: decode rest
        else
          match rest with
          | [] => []
          | y :: rest =>
            if b.toNat < 240 then
              Char.ofNat (b.toNat % 16 * 4096 + x.toNat % 64 * 64 + y.toNat % 64) :: decode rest
            else
              match rest with
              | [] => []
              | z :: rest =>
                Char.ofNat (b.toNat % 8 * 262144 + x.toNat % 64 * 4096 + y.toNat % 64 * 64 +
                  z.toNat % 64) :: decode rest

/-- A position between two characters of a text. -/
def OnBoundary (bs : Bytes) : Prop := ∃ cs, encode cs = bs

section Characters

variable (c : Char)

@[simp] theorem encode_nil : encode [] = [] := rfl

@[simp] theorem encode_cons (cs : List Char) :
    encode (c :: cs) = String.utf8EncodeChar c ++ encode cs := rfl

@[simp] theorem encode_append (xs ys : List Char) :
    encode (xs ++ ys) = encode xs ++ encode ys := by
  simp [encode]

/-- The byte of an ASCII character. -/
def ascii (c : Char) : UInt8 := UInt8.ofNat c.toNat

variable {c}

theorem toNat_ofNat_of_lt {n : ℕ} (h : n < 256) : (UInt8.ofNat n).toNat = n := by
  simp only [UInt8.toNat_ofNat']
  omega

theorem ascii_toNat (h : c.toNat < 128) : (ascii c).toNat = c.toNat :=
  toNat_ofNat_of_lt (by omega)

theorem encodeChar_ascii (h : c.toNat < 128) : String.utf8EncodeChar c = [ascii c] := by
  have hle : c.val.toNat ≤ 127 := Nat.le_of_lt_succ h
  simp only [String.utf8EncodeChar, if_pos hle]
  rfl

theorem toNat_lt : c.toNat < 1114112 := by
  rcases c.valid with h | h
  · have := h
    show c.val.toNat < _
    omega
  · exact h.2

theorem encodeChar_wide (h : ¬ c.toNat < 128) :
    ∃ b bs, String.utf8EncodeChar c = b :: bs ∧ isContinuation b = false ∧
      ∀ x ∈ b :: bs, 128 ≤ x.toNat := by
  have hlt : c.toNat < 1114112 := toNat_lt
  have h1 : ¬ c.val.toNat ≤ 127 := by
    change ¬ c.toNat ≤ 127
    omega
  simp only [String.utf8EncodeChar, if_neg h1]
  change c.toNat < 1114112 at hlt
  have hval : c.val.toNat = c.toNat := rfl
  rw [hval]
  split
  · refine ⟨_, _, rfl, ?_, ?_⟩
    · rw [isContinuation, toNat_ofNat_of_lt (by omega)]
      simp
    · intro x hx
      simp only [List.mem_cons, List.not_mem_nil, or_false] at hx
      rcases hx with rfl | rfl <;> rw [toNat_ofNat_of_lt (by omega)] <;> omega
  split
  · refine ⟨_, _, rfl, ?_, ?_⟩
    · rw [isContinuation, toNat_ofNat_of_lt (by omega)]
      simp
    · intro x hx
      simp only [List.mem_cons, List.not_mem_nil, or_false] at hx
      rcases hx with rfl | rfl | rfl <;> rw [toNat_ofNat_of_lt (by omega)] <;> omega
  · refine ⟨_, _, rfl, ?_, ?_⟩
    · rw [isContinuation, toNat_ofNat_of_lt (by omega)]
      simp
    · intro x hx
      simp only [List.mem_cons, List.not_mem_nil, or_false] at hx
      rcases hx with rfl | rfl | rfl | rfl <;> rw [toNat_ofNat_of_lt (by omega)] <;> omega

theorem decode_encodeChar (rest : Bytes) :
    decode (String.utf8EncodeChar c ++ rest) = c :: decode rest := by
  have hlt : c.toNat < 1114112 := toNat_lt
  have hval : c.val.toNat = c.toNat := rfl
  have hchar : ∀ n, n = c.toNat → Char.ofNat n = c := by
    intro n hn
    rw [hn, Char.ofNat_toNat]
  simp only [String.utf8EncodeChar, hval]
  split
  · rw [List.singleton_append, decode.eq_def]
    dsimp only
    rw [toNat_ofNat_of_lt (by omega), if_pos (by omega), hchar _ rfl]
  split
  · rw [List.cons_append, List.singleton_append, decode.eq_def]
    dsimp only
    rw [toNat_ofNat_of_lt (by omega), toNat_ofNat_of_lt (by omega), if_neg (by omega),
      if_pos (by omega), hchar _ (by omega)]
  split
  · simp only [List.cons_append, List.nil_append]
    rw [decode.eq_def]
    dsimp only
    rw [toNat_ofNat_of_lt (by omega), toNat_ofNat_of_lt (by omega), toNat_ofNat_of_lt (by omega),
      if_neg (by omega), if_neg (by omega), if_pos (by omega), hchar _ (by omega)]
  · simp only [List.cons_append, List.nil_append]
    rw [decode.eq_def]
    dsimp only
    rw [toNat_ofNat_of_lt (by omega), toNat_ofNat_of_lt (by omega), toNat_ofNat_of_lt (by omega),
      toNat_ofNat_of_lt (by omega), if_neg (by omega), if_neg (by omega), if_neg (by omega),
      hchar _ (by omega)]

theorem decode_encode_append (cs : List Char) (rest : Bytes) :
    decode (encode cs ++ rest) = cs ++ decode rest := by
  induction cs with
  | nil => rfl
  | cons c cs ih => rw [encode_cons, List.append_assoc, decode_encodeChar, ih, List.cons_append]

theorem decode_encode (cs : List Char) : decode (encode cs) = cs := by
  have h := decode_encode_append cs []
  rwa [List.append_nil, decode, List.append_nil] at h

/-- A text that begins with the bytes of another begins with it. -/
theorem prefix_of_encode {xs ys : List Char} (h : encode xs <+: encode ys) : xs <+: ys := by
  obtain ⟨rest, hrest⟩ := h
  refine ⟨decode rest, ?_⟩
  rw [← decode_encode_append, hrest, decode_encode]

theorem isCharBoundary_encode (cs : List Char) : isCharBoundary (encode cs) = true := by
  cases cs with
  | nil => rfl
  | cons c cs =>
    rw [encode_cons]
    by_cases h : c.toNat < 128
    · rw [encodeChar_ascii h, List.singleton_append, isCharBoundary, isContinuation, ascii_toNat h]
      simp [h]
    · obtain ⟨b, bs, hb, hfirst, -⟩ := encodeChar_wide h
      rw [hb, List.cons_append, isCharBoundary, hfirst]
      rfl

theorem forall_ascii {p : Char → Prop} (h : ∀ n < 128, p (Char.ofNat n)) (hc : c.toNat < 128) :
    p c := by
  have hn := h c.toNat hc
  rwa [Char.ofNat_toNat] at hn

theorem ascii_inj {x : Char} (hc : c.toNat < 128) (hx : x.toNat < 128) :
    ascii c = ascii x ↔ c = x := by
  refine ⟨?_, ?_⟩
  · intro h
    have hnat := congrArg UInt8.toNat h
    rw [ascii_toNat hc, ascii_toNat hx] at hnat
    rw [← Char.ofNat_toNat c, hnat, Char.ofNat_toNat]
  · rintro rfl
    rfl

/-- The first byte of a character tells which ASCII character it is, if any. -/
theorem exists_first (c : Char) (cs : List Char) :
    ∃ b bs, encode (c :: cs) = b :: bs ∧ (∀ x : Char, x.toNat < 128 → (b = ascii x ↔ c = x)) ∧
      (c.toNat < 128 → bs = encode cs) := by
  by_cases hc : c.toNat < 128
  · refine ⟨ascii c, encode cs, by rw [encode_cons, encodeChar_ascii hc]; rfl, ?_, fun _ => rfl⟩
    intro x hx
    exact ascii_inj hc hx
  · obtain ⟨b, bs, hb, -, hwide⟩ := encodeChar_wide hc
    refine ⟨b, bs ++ encode cs, by rw [encode_cons, hb]; rfl, ?_, fun h => absurd h hc⟩
    intro x hx
    have hfirst := hwide b List.mem_cons_self
    refine ⟨?_, ?_⟩
    · rintro rfl
      rw [ascii_toNat hx] at hfirst
      omega
    · rintro rfl
      exact absurd hx hc

end Characters

section Scans

variable (p : UInt8 → Bool)

/-- A test on bytes as one on characters: a character outside ASCII passes. -/
def overChars (c : Char) : Bool := if c.toNat < 128 then p (ascii c) else true

variable {p} (hp : ∀ b : UInt8, 128 ≤ b.toNat → p b = true)
include hp

theorem dropWhile_encode (cs : List Char) :
    (encode cs).dropWhile p = encode (cs.dropWhile (overChars p)) := by
  induction cs with
  | nil => rfl
  | cons c cs ih =>
    by_cases h : c.toNat < 128
    · cases hc : p (ascii c) with
      | true => simp [encodeChar_ascii h, hc, overChars, h, ih]
      | false => simp [encodeChar_ascii h, hc, overChars, h]
    · obtain ⟨b, bs, hb, -, hwide⟩ := encodeChar_wide h
      rw [encode_cons, List.dropWhile_append_of_pos (fun x hx => hp x (hwide x (hb ▸ hx))), ih]
      simp [overChars, h]

omit hp in
/-- A test that holds outside ASCII, on characters. -/
theorem overChars_eq {q : Char → Bool}
    (hq : ∀ n < 128, p (ascii (Char.ofNat n)) = q (Char.ofNat n))
    (hwide : ∀ c : Char, ¬ c.toNat < 128 → q c = true) : overChars p = q := by
  funext c
  rw [overChars]
  split
  case isTrue h =>
    exact forall_ascii (p := fun c => p (ascii c) = q c) hq h
  case isFalse h => exact (hwide c h).symm

end Scans

section Boundaries

variable {bs : Bytes} {b : UInt8}

theorem OnBoundary.encode (cs : List Char) : OnBoundary (encode cs) := ⟨cs, rfl⟩

theorem OnBoundary.isCharBoundary (h : OnBoundary bs) : isCharBoundary bs = true := by
  obtain ⟨cs, rfl⟩ := h
  exact isCharBoundary_encode cs

/-- Past an ASCII byte begins a character again. -/
theorem OnBoundary.tail (h : OnBoundary (b :: bs)) (hb : b.toNat < 128) : OnBoundary bs := by
  obtain ⟨cs, hcs⟩ := h
  cases cs with
  | nil => simp at hcs
  | cons c cs =>
    rw [encode_cons] at hcs
    by_cases hc : c.toNat < 128
    · rw [encodeChar_ascii hc, List.singleton_append] at hcs
      exact ⟨cs, (List.cons.inj hcs).2⟩
    · obtain ⟨x, xs, hx, -, hwide⟩ := encodeChar_wide hc
      rw [hx, List.cons_append] at hcs
      have hfirst := hwide x List.mem_cons_self
      rw [(List.cons.inj hcs).1] at hfirst
      omega

theorem OnBoundary.drop (h : OnBoundary bs) (n : ℕ)
    (hn : ∀ x ∈ bs.take n, x.toNat < 128) : OnBoundary (bs.drop n) := by
  induction n generalizing bs with
  | zero => exact h
  | succ n ih =>
    cases bs with
    | nil => exact h
    | cons b bs =>
      refine ih (h.tail (hn b ?_)) ?_
      · simp
      · intro x hx
        exact hn x (by simp [hx])

/-- A scan over all bytes outside ASCII stops on a boundary. -/
theorem OnBoundary.dropWhile (h : OnBoundary bs) {p : UInt8 → Bool}
    (hp : ∀ b : UInt8, 128 ≤ b.toNat → p b = true) : OnBoundary (bs.dropWhile p) := by
  obtain ⟨cs, rfl⟩ := h
  rw [dropWhile_encode hp]
  exact ⟨_, rfl⟩

/-- A scan over ASCII bytes alone stops on a boundary. -/
theorem OnBoundary.dropWhile_ascii (h : OnBoundary bs) {p : UInt8 → Bool}
    (hp : ∀ b : UInt8, p b = true → b.toNat < 128) : OnBoundary (bs.dropWhile p) := by
  induction bs with
  | nil => exact h
  | cons b bs ih =>
    cases hb : p b with
    | true =>
      rw [List.dropWhile_cons_of_pos hb]
      exact ih (h.tail (hp b hb))
    | false =>
      rw [List.dropWhile_cons_of_neg (by simp [hb])]
      exact h

end Boundaries

end MidnightRs.Utf8
