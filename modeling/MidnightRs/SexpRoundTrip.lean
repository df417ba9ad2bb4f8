import MidnightRs.SexpTotality
import MidnightRs.SexpPrinting

/-!
What the printer of the artifact writes reads back as the datum it came from,
whatever way it is written in.
-/
namespace MidnightRs.SexpReader

open AnalyzedIr (Sexp)
open Utf8

section Characters

variable {c : Char} {cs : List Char}

theorem toNat_of_mem_delimiters (c : Char) (h : c ∈ delimiters) : c.toNat < 128 := by
  have hall : delimiters.all (fun c => decide (c.toNat < 128)) = true := by decide
  exact of_decide_eq_true (List.all_eq_true.mp hall c h)

theorem overChars_isDelimiter :
    overChars (fun b => !isDelimiter b) = fun c => decide (c ∉ delimiters) := by
  refine overChars_eq (by decide +kernel) ?_
  intro c hc
  simp only [decide_eq_true_eq]
  intro hmem
  exact hc (toNat_of_mem_delimiters c hmem)

theorem overChars_isPlain : overChars isPlain = fun c => decide (c ≠ '"' ∧ c ≠ '\\') := by
  refine overChars_eq (by decide +kernel) ?_
  intro c hc
  simp only [decide_eq_true_eq]
  refine ⟨?_, ?_⟩
  · rintro rfl
    exact hc (by decide)
  · rintro rfl
    exact hc (by decide)

theorem ne_delimiter (b : UInt8) (hb : 128 ≤ b.toNat) : (!isDelimiter b) = true := by
  cases h : isDelimiter b with
  | true =>
    have := toNat_of_isDelimiter b h
    omega
  | false => rfl

/-- The tests that the reader makes on the first byte, on the first character. -/
structure First (c : Char) (cs : List Char) (b : UInt8) (bs : Bytes) : Prop where
  whole : encode (c :: cs) = b :: bs
  eq_iff : ∀ x : Char, x.toNat < 128 → (b = ascii x ↔ c = x)
  tail : c.toNat < 128 → bs = encode cs
  space : isAsciiWhitespace b = decide (c ∈ spaces)
  opening : isOpening b = decide (c = '(' ∨ c = '[')
  closing : isClosing b = decide (c = ')' ∨ c = ']')
  delimiter : isDelimiter b = decide (c ∈ delimiters)

theorem exists_First (c : Char) (cs : List Char) : ∃ b bs, First c cs b bs := by
  obtain ⟨b, bs, hwhole, heq, htail⟩ := exists_first c cs
  have hspace : isAsciiWhitespace b = decide (c ∈ spaces) := by
    have h1 := heq ' ' (by decide)
    have h2 := heq '\t' (by decide)
    have h3 := heq '\n' (by decide)
    have h4 := heq '\x0C' (by decide)
    have h5 := heq '\r' (by decide)
    rw [Bool.eq_iff_iff]
    simp [isAsciiWhitespace, spaces, eq_comm (b := b), h1, h2, h3, h4, h5]
  have hopening : isOpening b = decide (c = '(' ∨ c = '[') := by
    rw [Bool.eq_iff_iff]
    simp [isOpening, heq '(' (by decide), heq '[' (by decide)]
  have hclosing : isClosing b = decide (c = ')' ∨ c = ']') := by
    rw [Bool.eq_iff_iff]
    simp [isClosing, heq ')' (by decide), heq ']' (by decide)]
  have hdelimiter : isDelimiter b = decide (c ∈ delimiters) := by
    rw [Bool.eq_iff_iff]
    simp [isDelimiter, hspace, hopening, hclosing, delimiters, heq '"' (by decide),
      heq ';' (by decide), or_assoc]
  exact ⟨b, bs, hwhole, heq, htail, hspace, hopening, hclosing, hdelimiter⟩

end Characters

section Blanks

variable {gap cs : List Char} {c : Char}

theorem skipWs_space (h : c ∈ spaces) : skipWs (encode (c :: cs)) = skipWs (encode cs) := by
  obtain ⟨b, bs, hb⟩ := exists_First c cs
  rw [hb.whole, skipWs, if_pos (by rw [hb.space]; exact decide_eq_true h),
    hb.tail (toNat_of_mem_delimiters c (mem_delimiters_of_mem_spaces h))]

theorem skipWs_gap (h : Gap gap) : skipWs (encode (gap ++ cs)) = skipWs (encode cs) := by
  induction gap with
  | nil => rfl
  | cons c gap ih =>
    rw [List.cons_append, skipWs_space (h c List.mem_cons_self),
      ih (fun x hx => h x (List.mem_cons_of_mem c hx))]

theorem skipWs_start (h : c ∉ spaces) (hc : c ≠ ';') :
    skipWs (encode (c :: cs)) = encode (c :: cs) := by
  obtain ⟨b, bs, hb⟩ := exists_First c cs
  rw [hb.whole, skipWs, if_neg (by rw [hb.space]; simp [h]),
    if_neg (by rw [hb.eq_iff ';' (by decide)]; exact hc)]

end Blanks

section Atoms

variable {t tail : List Char}

/-- A slice up to a later position returns the text between. -/
theorem slice_append (xs ys : List Char) :
    slice (encode (xs ++ ys)) (encode ys) = .value xs (encode ys) := by
  rw [slice_eq (OnBoundary.encode _) (OnBoundary.encode _), encode_append]
  have hlen : (encode xs ++ encode ys).length - (encode ys).length = (encode xs).length := by
    rw [List.length_append, Nat.add_sub_cancel]
  rw [hlen, List.take_left, decode_encode]

theorem encode_ne_nil {cs : List Char} (h : cs ≠ []) : encode cs ≠ [] := by
  cases cs with
  | nil => exact absurd rfl h
  | cons c cs =>
    obtain ⟨b, bs, hb⟩ := exists_First c cs
    rw [hb.whole]
    exact List.cons_ne_nil b bs

/-- A token is read up to the delimiter after it. -/
theorem readAtom_token (hne : t ≠ []) (ht : ∀ c ∈ t, c ∉ delimiters) (htail : Delimited tail) :
    readAtom (encode (t ++ tail)) = .value (atomOf t) (encode tail) := by
  have hstop : (encode (t ++ tail)).dropWhile (fun c => !isDelimiter c) = encode tail := by
    rw [dropWhile_encode ne_delimiter, overChars_isDelimiter,
      List.dropWhile_append_of_pos (fun c hc => decide_eq_true (ht c hc))]
    cases tail with
    | nil => rfl
    | cons c tail =>
      rw [List.dropWhile_cons_of_neg]
      simp [htail c rfl]
  have hcut : encode tail ≠ encode (t ++ tail) := by
    rw [encode_append]
    intro heq
    exact encode_ne_nil hne (List.self_eq_append_left.mp heq)
  simp only [readAtom, hstop, if_neg hcut, slice_append]
  rfl

theorem digit_ne {c x : Char} (hc : c.isDigit = true) (hx : x.isDigit = false) : c ≠ x := by
  rintro rfl
  rw [hc] at hx
  cases hx

theorem digit_not_delimiter {c : Char} (h : c.isDigit = true) : c ∉ delimiters := by
  have hall : delimiters.all (fun x => !x.isDigit) = true := by decide
  intro hmem
  have hnot := List.all_eq_true.mp hall c hmem
  rw [h] at hnot
  cases hnot

theorem atomOf_nat {digits : List Char} (h : Numeral digits) :
    atomOf digits = .int (decimal digits) := by
  have hhead : digits.head? ≠ some '-' := by
    intro hminus
    exact digit_ne (h.2 '-' (List.mem_of_mem_head? hminus)) (by decide) rfl
  have hnum : isNumeric digits = true := by
    rw [isNumeric, if_neg hhead]
    simpa [h.1] using h.2
  rw [atomOf, if_pos hnum, if_neg hhead]

theorem atomOf_neg {digits : List Char} (h : Numeral digits) :
    atomOf ('-' :: digits) = .int (-(decimal digits)) := by
  have hnum : isNumeric ('-' :: digits) = true := by
    rw [isNumeric, List.head?_cons, if_pos rfl]
    simpa [h.1] using h.2
  rw [atomOf, if_pos hnum, List.head?_cons, if_pos rfl, List.tail_cons]

theorem atomOf_sym {s : String} (h : Plain s.toList) : atomOf s.toList = .sym s := by
  rw [atomOf, if_neg (by simp [h.not_numeric]), String.ofList_toList]

end Atoms

section Strings

variable {c : Char} {out : List Char}

theorem readEscape_named {letter : Char} (h : (letter, c) ∈ escapes) (rest : List Char) :
    readEscape (encode (letter :: rest)) = .value c (encode rest) := by
  simp only [escapes, List.mem_cons, Prod.mk.injEq, List.not_mem_nil, or_false] at h
  rcases h with ⟨rfl, rfl⟩ | ⟨rfl, rfl⟩ | ⟨rfl, rfl⟩ | ⟨rfl, rfl⟩ | ⟨rfl, rfl⟩ | ⟨rfl, rfl⟩ |
    ⟨rfl, rfl⟩ | ⟨rfl, rfl⟩ | ⟨rfl, rfl⟩ <;> rfl

theorem scalarOf_eq {digits : List Char} (hne : digits ≠ [])
    (hv : hexadecimal digits = c.toNat) : scalarOf digits = some c := by
  have hlt : c.toNat < 1114112 := toNat_lt
  rw [scalarOf, hv, if_pos ⟨hne, by omega, c.valid⟩, Char.ofNat_toNat]

theorem isAsciiHexdigit_of_mem {digits : List Char} (h : ∀ x ∈ digits, x ∈ hexdigits) :
    ∀ b ∈ encode digits, isAsciiHexdigit b = true := by
  have hall : hexdigits.all (fun x => (String.utf8EncodeChar x).all isAsciiHexdigit) = true := by
    decide
  intro b hb
  obtain ⟨x, hx, hbx⟩ := List.mem_flatMap.mp hb
  exact List.all_eq_true.mp (List.all_eq_true.mp hall x (h x hx)) b hbx

theorem readScalar_digits {digits : List Char} (hne : digits ≠ [])
    (hd : ∀ x ∈ digits, x ∈ hexdigits) (hv : hexadecimal digits = c.toNat) (rest : List Char) :
    readScalar (encode (digits ++ ';' :: rest)) = .value c (encode rest) := by
  have hstop : (encode (digits ++ ';' :: rest)).dropWhile isAsciiHexdigit =
      encode (';' :: rest) := by
    rw [encode_append, List.dropWhile_append_of_pos (isAsciiHexdigit_of_mem hd)]
    exact List.dropWhile_cons_of_neg (by decide)
  rw [readScalar, hstop, slice_append]
  simp only [Outcome.bind]
  rw [show encode (';' :: rest) = ascii ';' :: encode rest from rfl]
  dsimp only
  rw [if_pos rfl, scalarOf_eq hne hv]

theorem readEscape_scalar {digits : List Char} (hne : digits ≠ [])
    (hd : ∀ x ∈ digits, x ∈ hexdigits) (hv : hexadecimal digits = c.toNat) (rest : List Char) :
    readEscape (encode ('x' :: digits ++ ';' :: rest)) = .value c (encode rest) := by
  rw [List.cons_append, show encode ('x' :: (digits ++ ';' :: rest)) =
    ascii 'x' :: encode (digits ++ ';' :: rest) from rfl, readEscape]
  exact readScalar_digits hne hd hv rest

theorem dropWhile_isPlain (cs : List Char) : (encode cs).dropWhile isPlain =
    encode (cs.dropWhile (fun c => decide (c ≠ '"' ∧ c ≠ '\\'))) := by
  rw [dropWhile_encode isPlain_of_le, overChars_isPlain]

/-- How a string goes on after its next segment. -/
def resume (fuel : ℕ) (out : List Char) (bs : Bytes) : Outcome Sexp :=
  match bs with
  | [] => .refused [] "unterminated string"
  | c :: rest =>
    if c = ascii '"' then .value (.str (String.ofList out)) rest
    else (readEscape rest).bind (fun scalar rest => readText fuel (out ++ [scalar]) rest)

theorem readText_eq (fuel : ℕ) (out cs : List Char) :
    readText (fuel + 1) out (encode cs) =
      resume fuel (out ++ cs.takeWhile (fun c => decide (c ≠ '"' ∧ c ≠ '\\')))
        (encode (cs.dropWhile (fun c => decide (c ≠ '"' ∧ c ≠ '\\')))) := by
  have hslice := slice_append (cs.takeWhile (fun c => decide (c ≠ '"' ∧ c ≠ '\\')))
    (cs.dropWhile (fun c => decide (c ≠ '"' ∧ c ≠ '\\')))
  rw [List.takeWhile_append_dropWhile] at hslice
  rw [readText, dropWhile_isPlain, hslice]
  rfl

theorem readText_raw (fuel : ℕ) (h : c ≠ '"' ∧ c ≠ '\\') (cs : List Char) :
    readText (fuel + 1) out (encode (c :: cs)) = readText (fuel + 1) (out ++ [c]) (encode cs) := by
  rw [readText_eq, readText_eq, List.takeWhile_cons_of_pos (by simpa using h),
    List.dropWhile_cons_of_pos (by simpa using h), List.append_assoc]
  rfl

theorem readText_escape (fuel : ℕ) {cs rest : List Char}
    (h : readEscape (encode cs) = .value c (encode rest)) :
    readText (fuel + 1) out (encode ('\\' :: cs)) = readText fuel (out ++ [c]) (encode rest) := by
  rw [readText_eq, List.takeWhile_cons_of_neg (by simp), List.dropWhile_cons_of_neg (by simp),
    List.append_nil, show encode ('\\' :: cs) = ascii '\\' :: encode cs from rfl, resume,
    if_neg (by decide), h]
  rfl

theorem readText_close (fuel : ℕ) (tail : List Char) :
    readText (fuel + 1) out (encode ('"' :: tail)) =
      .value (.str (String.ofList out)) (encode tail) := by
  rw [readText_eq, List.takeWhile_cons_of_neg (by simp), List.dropWhile_cons_of_neg (by simp),
    List.append_nil, show encode ('"' :: tail) = ascii '"' :: encode tail from rfl, resume,
    if_pos rfl]

theorem readText_written {cs w : List Char} (h : WrittenText cs w) (fuel : ℕ) (tail : List Char)
    (hfuel : (encode (w ++ '"' :: tail)).length < fuel) :
    readText fuel out (encode (w ++ '"' :: tail)) =
      .value (.str (String.ofList (out ++ cs))) (encode tail) := by
  induction h generalizing fuel out with
  | nil =>
    obtain ⟨fuel, rfl⟩ := Nat.exists_eq_add_one_of_ne_zero (by omega : fuel ≠ 0)
    rw [List.nil_append, readText_close, List.append_nil]
  | @cons c cs w ws hc hcs ih =>
    obtain ⟨fuel, rfl⟩ := Nat.exists_eq_add_one_of_ne_zero (by omega : fuel ≠ 0)
    have hout : out ++ c :: cs = out ++ [c] ++ cs := by simp
    rw [List.append_assoc] at hfuel ⊢
    rw [encode_append, List.length_append] at hfuel
    rw [hout]
    cases hc with
    | raw h =>
      rw [List.singleton_append, readText_raw fuel h]
      exact ih _ (by omega)
    | @named letter h =>
      have hlen : 0 < (encode ['\\', letter]).length := by
        rw [List.length_pos_iff]
        exact encode_ne_nil (List.cons_ne_nil _ _)
      rw [List.cons_append, List.singleton_append, readText_escape fuel (readEscape_named h _)]
      exact ih _ (by omega)
    | @scalar digits hne hd hv =>
      have hlen : 0 < (encode ('\\' :: 'x' :: digits ++ [';'])).length := by
        rw [List.length_pos_iff]
        exact encode_ne_nil (List.cons_ne_nil _ _)
      rw [show '\\' :: 'x' :: digits ++ [';'] ++ (ws ++ '"' :: tail) =
        '\\' :: ('x' :: digits ++ ';' :: (ws ++ '"' :: tail)) by simp,
        readText_escape fuel (readEscape_scalar hne hd hv _)]
      exact ih _ (by omega)

end Strings

section Bytevectors

theorem readElements_element (fuel : ℕ) (bytes : Bytes) {gap cs : List Char} {c : Char}
    (hg : Gap gap) (hc : c ∉ delimiters) :
    readElements (fuel + 1) bytes (encode (gap ++ c :: cs)) =
      (readAtom (encode (c :: cs))).bind (fun atom rest =>
        match atom with
        | .int i =>
          if 0 ≤ i ∧ i ≤ 255 then readElements fuel (bytes ++ [UInt8.ofNat i.toNat]) rest
          else .refused rest "bytevector element out of range"
        | _ => .refused rest "non-integer in bytevector") := by
  have hspace : c ∉ spaces := fun h => hc (mem_delimiters_of_mem_spaces h)
  have hcomment : c ≠ ';' := fun h => hc (h ▸ by decide)
  have hclose : c ≠ ')' := fun h => hc (h ▸ by decide)
  obtain ⟨b, bs, hb⟩ := exists_First c cs
  rw [readElements, skipWs_gap hg, skipWs_start hspace hcomment, hb.whole]
  exact if_neg (by rw [hb.eq_iff ')' (by decide)]; exact hclose)

theorem readElements_written {bs : Bytes} {w : List Char} (h : WrittenBytes bs w) (fuel : ℕ)
    (bytes : Bytes) (tail : List Char) (hfuel : (encode (w ++ ')' :: tail)).length < fuel) :
    readElements fuel bytes (encode (w ++ ')' :: tail)) =
      .value (.bytes (bytes ++ bs)) (encode tail) := by
  induction h generalizing fuel bytes with
  | nil hg =>
    obtain ⟨fuel, rfl⟩ := Nat.exists_eq_add_one_of_ne_zero (by omega : fuel ≠ 0)
    rw [readElements, skipWs_gap hg, skipWs_start (by decide) (by decide),
      show encode (')' :: tail) = ascii ')' :: encode tail from rfl]
    dsimp only
    rw [if_pos rfl, List.append_nil]
  | @cons b bs gap digits ws hg hn hv hbs hd ih =>
    obtain ⟨fuel, rfl⟩ := Nat.exists_eq_add_one_of_ne_zero (by omega : fuel ≠ 0)
    have hdelim : ∀ x ∈ digits, x ∉ delimiters := fun x hx => digit_not_delimiter (hn.2 x hx)
    have htail : Delimited (ws ++ ')' :: tail) := delimited_append hd (by
      intro x hx
      cases hx
      decide)
    have hatom := readAtom_token hn.1 hdelim htail
    have hpos : 0 < (encode digits).length := by
      rw [List.length_pos_iff]
      exact encode_ne_nil hn.1
    rw [List.append_assoc, List.append_assoc] at hfuel ⊢
    rw [encode_append, encode_append, List.length_append, List.length_append] at hfuel
    obtain ⟨c, cs, rfl⟩ := List.exists_cons_of_ne_nil hn.1
    rw [List.cons_append] at hatom ⊢
    rw [readElements_element fuel bytes hg (hdelim c List.mem_cons_self), hatom,
      atomOf_nat hn, hv]
    have hbyte := b.toNat_lt
    simp only [Outcome.bind]
    rw [if_pos (by omega), Int.toNat_natCast, UInt8.ofNat_toNat, ih _ _ (by omega),
      List.append_assoc]
    rfl

end Bytevectors

section Steps

variable {gap cs : List Char} {c : Char} (fuel : ℕ)

theorem read_opening (hg : Gap gap) (hc : c = '(' ∨ c = '[') :
    read (fuel + 1) (encode (gap ++ c :: cs)) = readList fuel [] (encode cs) := by
  rw [read, skipWs_gap hg]
  rcases hc with rfl | rfl
  · rw [skipWs_start (by decide) (by decide)]
    rfl
  · rw [skipWs_start (by decide) (by decide)]
    rfl

theorem read_quote (hg : Gap gap) :
    read (fuel + 1) (encode (gap ++ '\'' :: cs)) =
      (read fuel (encode cs)).bind (fun quoted rest =>
        .value (.list [.sym "quote", quoted]) rest) := by
  rw [read, skipWs_gap hg, skipWs_start (by decide) (by decide)]
  rfl

theorem read_string (hg : Gap gap) :
    read (fuel + 1) (encode (gap ++ '"' :: cs)) = readString (encode cs) := by
  rw [read, skipWs_gap hg, skipWs_start (by decide) (by decide)]
  rfl

theorem read_hash (hg : Gap gap) :
    read (fuel + 1) (encode (gap ++ '#' :: cs)) = readHash (encode ('#' :: cs)) := by
  rw [read, skipWs_gap hg, skipWs_start (by decide) (by decide)]
  rfl

theorem read_atom (hg : Gap gap) (hc : c ∉ delimiters) (hquote : c ≠ '\'') (hhash : c ≠ '#') :
    read (fuel + 1) (encode (gap ++ c :: cs)) = readAtom (encode (c :: cs)) := by
  have hspace : c ∉ spaces := fun h => hc (mem_delimiters_of_mem_spaces h)
  have hne : ∀ x ∈ delimiters, c ≠ x := by
    rintro x hx rfl
    exact hc hx
  obtain ⟨b, bs, hb⟩ := exists_First c cs
  have hopen : ¬ (c = '(' ∨ c = '[') :=
    not_or.mpr ⟨hne '(' (by decide), hne '[' (by decide)⟩
  have hclose : ¬ (c = ')' ∨ c = ']') :=
    not_or.mpr ⟨hne ')' (by decide), hne ']' (by decide)⟩
  rw [read, skipWs_gap hg, skipWs_start hspace (hne ';' (by decide)), hb.whole]
  dsimp only
  rw [if_neg (by rw [hb.opening]; simp [hopen]), if_neg (by rw [hb.closing]; simp [hclose]),
    if_neg (by rw [hb.eq_iff '\'' (by decide)]; exact hquote),
    if_neg (by rw [hb.eq_iff '"' (by decide)]; exact hne '"' (by decide)),
    if_neg (by rw [hb.eq_iff '#' (by decide)]; exact hhash)]

variable (items : List Sexp)

theorem readList_close (hg : Gap gap) (hc : c = ')' ∨ c = ']') :
    readList (fuel + 1) items (encode (gap ++ c :: cs)) = .value (.list items) (encode cs) := by
  rw [readList, skipWs_gap hg]
  rcases hc with rfl | rfl
  · rw [skipWs_start (by decide) (by decide)]
    rfl
  · rw [skipWs_start (by decide) (by decide)]
    rfl

/-- A text that no list takes for its end or for the dot of a pair. -/
def Starts : List Char → Prop
  | [] => False
  | c :: cs => c ∉ spaces ∧ c ≠ ';' ∧ c ≠ ')' ∧ c ≠ ']' ∧
      (c = '.' → ∃ x ∈ cs.head?, x ∉ delimiters)

theorem loneDot_encode (cs : List Char) :
    loneDot (encode cs) = true ↔ Delimited cs := by
  cases cs with
  | nil => simp [loneDot, Delimited]
  | cons c cs =>
    obtain ⟨b, bs, hb⟩ := exists_First c cs
    rw [hb.whole]
    simp [loneDot, hb.delimiter, Delimited]

theorem readList_item {w tail : List Char} (hg : Gap gap) (hw : Starts w) :
    readList (fuel + 1) items (encode (gap ++ (w ++ tail))) =
      (read fuel (encode (w ++ tail))).bind (fun item rest =>
        readList fuel (items ++ [item]) rest) := by
  cases w with
  | nil => exact hw.elim
  | cons c w =>
    obtain ⟨hspace, hcomment, hclose, hclose', hdot⟩ := hw
    obtain ⟨b, bs, hb⟩ := exists_First c (w ++ tail)
    rw [List.cons_append, readList, skipWs_gap hg, skipWs_start hspace hcomment, hb.whole]
    dsimp only
    rw [if_neg (by rw [hb.closing]; simp [hclose, hclose']), if_neg]
    rintro ⟨hb', hlone⟩
    obtain rfl := (hb.eq_iff '.' (by decide)).mp hb'
    rw [hb.tail (by decide), loneDot_encode] at hlone
    obtain ⟨x, hx, hnot⟩ := hdot rfl
    refine hnot (hlone x ?_)
    cases w with
    | nil => cases hx
    | cons y w => exact hx

theorem readList_dot (hg : Gap gap) (hcs : Delimited cs) :
    readList (fuel + 1) items (encode (gap ++ '.' :: cs)) =
      (read fuel (encode cs)).bind (fun tail rest =>
        match skipWs rest with
        | [] => .refused [] "expected ) after dotted tail"
        | d :: rest =>
          if isClosing d then
            match items with
            | [car] => .value (.pair car tail) rest
            | _ => .refused rest "dotted pair with more than one car"
          else .refused rest "expected ) after dotted tail") := by
  rw [readList, skipWs_gap hg, skipWs_start (by decide) (by decide),
    show encode ('.' :: cs) = ascii '.' :: encode cs from rfl]
  exact (if_neg (by decide)).trans (if_pos ⟨rfl, (loneDot_encode cs).mpr hcs⟩)

end Steps

section RoundTrip

variable {d a : Sexp} {items : List Sexp} {w : List Char}

/-- The reader takes the text as the datum, whatever follows it. -/
def Reads (d : Sexp) (w : List Char) : Prop :=
  ∀ gap tail fuel, Gap gap → Delimited tail → 2 * (encode (w ++ tail)).length + 1 ≤ fuel →
    read fuel (encode (gap ++ (w ++ tail))) = .value d (encode tail)

def ReadsItems (items : List Sexp) (w : List Char) : Prop :=
  ∀ acc c tail fuel, (c = ')' ∨ c = ']') → 2 * (encode (w ++ c :: tail)).length + 2 ≤ fuel →
    readList fuel acc (encode (w ++ c :: tail)) = .value (.list (acc ++ items)) (encode tail)

theorem length_encode_cons (c : Char) (cs : List Char) :
    (encode cs).length < (encode (c :: cs)).length := by
  have hpos : 0 < (String.utf8EncodeChar c).length :=
    List.length_pos_iff.mpr String.utf8EncodeChar_ne_nil
  rw [encode_cons, List.length_append]
  omega

theorem delimited_close {c : Char} (hc : c = ')' ∨ c = ']') (tail : List Char) :
    Delimited (c :: tail) := by
  intro x hx
  cases hx
  rcases hc with rfl | rfl <;> decide

theorem reads_token (hne : w ≠ []) (hw : ∀ c ∈ w, c ∉ delimiters)
    (hhead : ∀ c ∈ w.head?, c ≠ '\'' ∧ c ≠ '#') (hatom : atomOf w = d) : Reads d w := by
  intro gap tail fuel hg htail hfuel
  obtain ⟨c, cs, rfl⟩ := List.exists_cons_of_ne_nil hne
  obtain ⟨fuel, rfl⟩ := Nat.exists_eq_add_one_of_ne_zero (by omega : fuel ≠ 0)
  have hc := hhead c rfl
  rw [List.cons_append, read_atom fuel hg (hw c List.mem_cons_self) hc.1 hc.2, ← List.cons_append,
    readAtom_token hne hw htail, hatom]

theorem reads_numeral (hn : Numeral w) : Reads (.int (decimal w)) w := by
  refine reads_token hn.1 (fun c hc => digit_not_delimiter (hn.2 c hc)) ?_ (atomOf_nat hn)
  intro c hc
  have hdigit := hn.2 c (List.mem_of_mem_head? hc)
  exact ⟨digit_ne hdigit (by decide), digit_ne hdigit (by decide)⟩

theorem reads_negative (hn : Numeral w) : Reads (.int (-(decimal w))) ('-' :: w) := by
  refine reads_token (List.cons_ne_nil _ _) ?_ ?_ (atomOf_neg hn)
  · intro c hc
    rcases List.mem_cons.mp hc with rfl | hc
    · decide
    · exact digit_not_delimiter (hn.2 c hc)
  · intro c hc
    cases hc
    decide

theorem reads_str {s : String} (h : WrittenText s.toList w) :
    Reads (.str s) ('"' :: w ++ ['"']) := by
  intro gap tail fuel hg _ hfuel
  obtain ⟨fuel, rfl⟩ := Nat.exists_eq_add_one_of_ne_zero (by omega : fuel ≠ 0)
  rw [List.append_assoc, List.cons_append, List.singleton_append, read_string fuel hg, readString,
    readText_written h _ _ (Nat.lt_succ_self _), List.nil_append, String.ofList_toList]

theorem reads_bool (b : Bool) : Reads (.bool b) ['#', if b then 't' else 'f'] := by
  intro gap tail fuel hg _ hfuel
  obtain ⟨fuel, rfl⟩ := Nat.exists_eq_add_one_of_ne_zero (by omega : fuel ≠ 0)
  rw [List.cons_append, read_hash fuel hg, List.singleton_append]
  cases b with
  | true => rfl
  | false => rfl

theorem reads_bytes {bs : Bytes} (h : WrittenBytes bs w) :
    Reads (.bytes bs) ("#vu8(".toList ++ w ++ [')']) := by
  intro gap tail fuel hg _ hfuel
  obtain ⟨fuel, rfl⟩ := Nat.exists_eq_add_one_of_ne_zero (by omega : fuel ≠ 0)
  have hsplit : "#vu8(".toList ++ w ++ [')'] ++ tail =
      '#' :: 'v' :: 'u' :: '8' :: '(' :: (w ++ ')' :: tail) := by simp
  rw [hsplit, read_hash fuel hg]
  have hbody : (encode (w ++ ')' :: tail)).length <
      (encode ('#' :: 'v' :: 'u' :: '8' :: '(' :: (w ++ ')' :: tail))).length + 1 := by
    have hlen : (encode ('#' :: 'v' :: 'u' :: '8' :: '(' :: (w ++ ')' :: tail))).length =
      (encode (w ++ ')' :: tail)).length + 5 := rfl
    omega
  have hletter : ∀ x : Char, x = 't' ∨ x = 'f' →
      ¬ encode ['#', x] <+: encode ('#' :: 'v' :: 'u' :: '8' :: '(' :: (w ++ ')' :: tail)) := by
    rintro x hx ⟨t, ht⟩
    rcases hx with rfl | rfl
    · exact absurd (List.cons.inj (List.cons.inj ht).2).1 (by decide)
    · exact absurd (List.cons.inj (List.cons.inj ht).2).1 (by decide)
  rw [readHash, if_neg (hletter 't' (Or.inl rfl)), if_neg (hletter 'f' (Or.inr rfl)),
    if_pos ⟨encode (w ++ ')' :: tail), rfl⟩]
  exact readElements_written h _ [] tail hbody

theorem reads_quote {gap : List Char} (hg : Gap gap) (h : Reads d w) :
    Reads (.list [.sym "quote", d]) ('\'' :: gap ++ w) := by
  intro before tail fuel hbefore htail hfuel
  obtain ⟨fuel, rfl⟩ := Nat.exists_eq_add_one_of_ne_zero (by omega : fuel ≠ 0)
  have hsplit : '\'' :: gap ++ w ++ tail = '\'' :: (gap ++ (w ++ tail)) := by simp
  rw [hsplit] at hfuel ⊢
  have hlen := length_encode_cons '\'' (gap ++ (w ++ tail))
  rw [encode_append gap, List.length_append] at hlen
  rw [read_quote fuel hbefore, h gap tail fuel hg htail (by omega)]
  rfl

theorem reads_list {o c : Char} (ho : o = '(' ∨ o = '[') (hc : c = ')' ∨ c = ']')
    (h : ReadsItems items w) : Reads (.list items) (o :: w ++ [c]) := by
  intro gap tail fuel hg _ hfuel
  obtain ⟨fuel, rfl⟩ := Nat.exists_eq_add_one_of_ne_zero (by omega : fuel ≠ 0)
  have hsplit : o :: w ++ [c] ++ tail = o :: (w ++ c :: tail) := by simp
  rw [hsplit] at hfuel ⊢
  have hlen := length_encode_cons o (w ++ c :: tail)
  rw [read_opening fuel hg ho, h [] c tail fuel hc (by omega), List.nil_append]

theorem readsItems_nil (hg : Gap w) : ReadsItems [] w := by
  intro acc c tail fuel hc hfuel
  obtain ⟨fuel, rfl⟩ := Nat.exists_eq_add_one_of_ne_zero (by omega : fuel ≠ 0)
  rw [readList_close fuel acc hg hc, List.append_nil]

theorem readsItems_cons {gap ws : List Char} (hg : Gap gap) (hw : Starts w) (h : Reads d w)
    (hds : ReadsItems items ws) (hd : Delimited ws) :
    ReadsItems (d :: items) (gap ++ w ++ ws) := by
  intro acc c tail fuel hc hfuel
  obtain ⟨fuel, rfl⟩ := Nat.exists_eq_add_one_of_ne_zero (by omega : fuel ≠ 0)
  have htail : Delimited (ws ++ c :: tail) := delimited_append hd (delimited_close hc tail)
  have hpos : 0 < (encode w).length := by
    rw [List.length_pos_iff]
    refine encode_ne_nil ?_
    rintro rfl
    exact hw
  rw [List.append_assoc, List.append_assoc] at hfuel ⊢
  rw [encode_append, List.length_append] at hfuel
  have hitem := h [] (ws ++ c :: tail) fuel gap_nil htail (by omega)
  rw [List.nil_append] at hitem
  rw [encode_append w, List.length_append] at hfuel
  rw [readList_item fuel acc hg hw, hitem]
  simp only [Outcome.bind]
  rw [hds _ c tail fuel hc (by omega), List.append_assoc]
  rfl

theorem reads_pair {o c : Char} {g₁ g₂ g₃ g₄ wa : List Char} (ho : o = '(' ∨ o = '[')
    (hc : c = ')' ∨ c = ']') (h₁ : Gap g₁) (h₂ : Gap g₂) (h₃ : Gap g₃) (h₄ : Gap g₄)
    (hne₂ : g₂ ≠ []) (hne₃ : g₃ ≠ []) (hwa : Starts wa) (ha : Reads a wa) (hd : Reads d w) :
    Reads (.pair a d) (o :: g₁ ++ wa ++ g₂ ++ '.' :: g₃ ++ w ++ g₄ ++ [c]) := by
  intro gap tail fuel hg _ hfuel
  have hsplit : o :: g₁ ++ wa ++ g₂ ++ '.' :: g₃ ++ w ++ g₄ ++ [c] ++ tail =
      o :: (g₁ ++ (wa ++ (g₂ ++ '.' :: (g₃ ++ (w ++ (g₄ ++ c :: tail)))))) := by simp
  have hlast : Delimited (g₄ ++ c :: tail) :=
    delimited_append (delimited_gap h₄) (delimited_close hc tail)
  have hdot : Delimited (g₂ ++ '.' :: (g₃ ++ (w ++ (g₄ ++ c :: tail)))) := by
    obtain ⟨x, g, rfl⟩ := List.exists_cons_of_ne_nil hne₂
    exact fun y hy => delimited_gap h₂ y hy
  have hafter : Delimited (g₃ ++ (w ++ (g₄ ++ c :: tail))) := by
    obtain ⟨x, g, rfl⟩ := List.exists_cons_of_ne_nil hne₃
    exact fun y hy => delimited_gap h₃ y hy
  rw [hsplit] at hfuel ⊢
  have hopen := length_encode_cons o
    (g₁ ++ (wa ++ (g₂ ++ '.' :: (g₃ ++ (w ++ (g₄ ++ c :: tail))))))
  have hpoint := length_encode_cons '.' (g₃ ++ (w ++ (g₄ ++ c :: tail)))
  rw [encode_append g₁, List.length_append] at hopen
  have hcar := ha [] _ (fuel - 2) gap_nil hdot (by omega)
  rw [List.nil_append] at hcar
  rw [encode_append wa, List.length_append, encode_append g₂, List.length_append] at hopen
  rw [encode_append g₃, List.length_append] at hpoint
  have hcdr := hd g₃ _ (fuel - 3) h₃ hlast (by omega)
  obtain ⟨n, rfl⟩ : ∃ n, fuel = n + 3 := ⟨fuel - 3, by omega⟩
  rw [read_opening _ hg ho, readList_item _ [] h₁ hwa]
  simp only [Nat.add_sub_cancel, Nat.reduceSubDiff] at hcar hcdr
  rw [hcar]
  simp only [Outcome.bind]
  rw [readList_dot _ _ h₂ hafter, hcdr]
  simp only [Outcome.bind]
  rw [skipWs_gap h₄]
  rcases hc with rfl | rfl
  · rw [skipWs_start (by decide) (by decide)]
    rfl
  · rw [skipWs_start (by decide) (by decide)]
    rfl

theorem starts_token (hne : w ≠ []) (hw : ∀ c ∈ w, c ∉ delimiters) (hdot : w ≠ ['.']) :
    Starts w := by
  obtain ⟨c, cs, rfl⟩ := List.exists_cons_of_ne_nil hne
  have hc := hw c List.mem_cons_self
  refine ⟨fun h => hc (mem_delimiters_of_mem_spaces h), ?_, ?_, ?_, ?_⟩
  · rintro rfl
    exact hc (by decide)
  · rintro rfl
    exact hc (by decide)
  · rintro rfl
    exact hc (by decide)
  · rintro rfl
    cases cs with
    | nil => exact absurd rfl hdot
    | cons x cs => exact ⟨x, rfl, hw x (by simp)⟩

theorem starts_of_ne_dot {c : Char} {cs : List Char} (h : c ∉ spaces ∧ c ≠ ';' ∧ c ≠ ')' ∧ c ≠ ']')
    (hdot : c ≠ '.') : Starts (c :: cs) :=
  ⟨h.1, h.2.1, h.2.2.1, h.2.2.2, fun hc => absurd hc hdot⟩

theorem starts_written (h : Written d w) : Starts w := by
  cases h with
  | sym h => exact starts_token h.ne_nil (fun c hc => (h.letters c hc).1) h.ne_dot
  | str h => exact starts_of_ne_dot (by decide) (by decide)
  | nat h =>
    refine starts_token h.1 (fun c hc => digit_not_delimiter (h.2 c hc)) ?_
    rintro rfl
    exact absurd (h.2 '.' (by simp)) (by decide)
  | neg h => exact starts_of_ne_dot (by decide) (by decide)
  | bool b => exact starts_of_ne_dot (by decide) (by decide)
  | bytes h => exact starts_of_ne_dot (by decide) (by decide)
  | quote hg h => exact starts_of_ne_dot (by decide) (by decide)
  | list ho hc h =>
    rcases ho with rfl | rfl
    · exact starts_of_ne_dot (by decide) (by decide)
    · exact starts_of_ne_dot (by decide) (by decide)
  | pair ho hc h₁ h₂ h₃ h₄ hne₂ hne₃ ha hd hatom =>
    rcases ho with rfl | rfl
    · exact starts_of_ne_dot (by decide) (by decide)
    · exact starts_of_ne_dot (by decide) (by decide)

mutual

/-- The reader inverts the printer, by induction on how the datum is written. -/
theorem reads_written {d : Sexp} {w : List Char} : Written d w → Reads d w
  | .sym h => reads_token h.ne_nil (fun c hc => (h.letters c hc).1) h.head (atomOf_sym h)
  | .str h => reads_str h
  | .nat h => reads_numeral h
  | .neg h => reads_negative h
  | .bool b => reads_bool b
  | .bytes h => reads_bytes h
  | .quote hg h => reads_quote hg (reads_written h)
  | .list ho hc h => reads_list ho hc (readsItems_written h)
  | .pair ho hc h₁ h₂ h₃ h₄ hne₂ hne₃ ha hd _ =>
    reads_pair ho hc h₁ h₂ h₃ h₄ hne₂ hne₃ (starts_written ha) (reads_written ha)
      (reads_written hd)

theorem readsItems_written {items : List Sexp} {w : List Char} :
    WrittenItems items w → ReadsItems items w
  | .nil hg => readsItems_nil hg
  | .cons hg h hds hd =>
    readsItems_cons hg (starts_written h) (reads_written h) (readsItems_written hds) hd

end

theorem readOne_written (h : Written d w) : readOne (String.ofList w) = .value d [] := by
  have hread := reads_written h [] [] (2 * (encode w).length + 1) gap_nil delimited_nil
    (by rw [List.append_nil])
  rw [List.nil_append, List.append_nil] at hread
  rw [readOne, String.toList_ofList, hread]
  rfl

end RoundTrip

section Refusals

/-- A token ends at a delimiter, or at the end of the source. -/
theorem readAtom_delimited {bs rest : Bytes} {atom : Sexp} (h : readAtom bs = .value atom rest) :
    ∀ c ∈ rest.head?, isDelimiter c = true := by
  simp only [readAtom] at h
  split at h
  case isTrue hstop => cases h
  case isFalse hstop =>
    rw [slice] at h
    split at h
    case isTrue hon =>
      simp only [Outcome.bind, Outcome.value.injEq] at h
      obtain ⟨-, rfl⟩ := h
      intro c hc
      have hhead := List.head?_dropWhile_not (fun c => !isDelimiter c) bs
      rw [hc] at hhead
      simpa using hhead
    case isFalse hon => cases h

theorem read_hash_refused (fuel : ℕ) {gap cs : List Char} (hg : Gap gap)
    (ht : cs.head? ≠ some 't') (hf : cs.head? ≠ some 'f') (hv : ¬ "vu8(".toList <+: cs) :
    read (fuel + 1) (encode (gap ++ '#' :: cs)) =
      .refused (encode ('#' :: cs)) "unrecognized # syntax" := by
  have hletter : ∀ x : Char, cs.head? ≠ some x → ¬ encode ['#', x] <+: encode ('#' :: cs) := by
    intro x hx hpre
    obtain ⟨rest, hrest⟩ := prefix_of_encode hpre
    rw [← (List.cons.inj hrest).2] at hx
    exact hx rfl
  rw [read_hash fuel hg, readHash, if_neg (hletter 't' ht), if_neg (hletter 'f' hf), if_neg]
  intro hpre
  obtain ⟨rest, hrest⟩ := prefix_of_encode hpre
  exact hv ⟨rest, (List.cons.inj hrest).2⟩

/-- The reader ends on every source and reads back every written datum. A token
takes everything up to a delimiter, and other data after a hash are refused. -/
theorem reader_total_and_faithful :
    (∀ src : String, (∃ datum, readOne src = .value datum []) ∨
      ∃ rest message, readOne src = .refused rest message) ∧
    (∀ datum w, Written datum w → readOne (String.ofList w) = .value datum []) ∧
    (∀ datum, Printable datum → Written datum (write datum)) ∧
    (∀ bs rest atom, readAtom bs = .value atom rest → ∀ c ∈ rest.head?, isDelimiter c = true) ∧
    ∀ fuel gap cs, Gap gap → cs.head? ≠ some 't' → cs.head? ≠ some 'f' →
      ¬ "vu8(".toList <+: cs →
      read (fuel + 1) (encode (gap ++ '#' :: cs)) =
        .refused (encode ('#' :: cs)) "unrecognized # syntax" :=
  ⟨readOne_ends, fun _ _ h => readOne_written h, written_write,
    fun _ _ _ h => readAtom_delimited h, fun fuel _ _ hg ht hf hv =>
      read_hash_refused fuel hg ht hf hv⟩

theorem reads_pair_text :
    readOne "(b . -3)" = .value (.pair (.sym "b") (.int (-3))) [] := by
  have hplain : Plain "b".toList := by
    refine ⟨by decide, ?_, ?_, by decide, by decide⟩
    · intro c hc
      cases List.mem_singleton.mp hc
      exact ⟨by decide, by decide, by decide⟩
    · intro c hc
      cases hc
      exact ⟨by decide, by decide⟩
  have hwritten := reader_total_and_faithful.2.2.1 (.pair (.sym "b") (.int (-3)))
    ⟨hplain, trivial, trivial⟩
  exact reader_total_and_faithful.2.1 _ _ hwritten

def Outcome.message {α : Type} : Outcome α → Option String
  | .refused _ message => some message
  | _ => none

/-- A character, a vector and a symbol in bars. -/
theorem characters_refused :
    (readOne "#\\a").message = some "unrecognized # syntax" ∧
    (readOne "#(1 2)").message = some "unrecognized # syntax" ∧
    (readOne "|a b|").message = some "trailing content after the datum" := by
  decide +kernel

end Refusals

end MidnightRs.SexpReader
