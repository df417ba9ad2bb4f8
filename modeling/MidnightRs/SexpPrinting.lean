import MidnightRs.SexpReader

/-!
How the printer of the artifact writes a datum. A datum is written in several
ways, by where its blanks and escapes stand; `write` is one of them.
-/
namespace MidnightRs.SexpReader

open AnalyzedIr (Sexp)
open Utf8

section Written

def spaces : List Char := [' ', '\t', '\n', '\x0C', '\r']

def delimiters : List Char := spaces ++ ['(', '[', ')', ']', '"', ';']

/-- Blanks between two data, or none. -/
def Gap (w : List Char) : Prop := ∀ c ∈ w, c ∈ spaces

/-- A token ends where this text begins. -/
def Delimited (w : List Char) : Prop := ∀ c ∈ w.head?, c ∈ delimiters

/-- A symbol that is printed as its own name, without bars or escapes. -/
structure Plain (t : List Char) : Prop where
  ne_nil : t ≠ []
  letters : ∀ c ∈ t, c ∉ delimiters ∧ c ≠ '|' ∧ c ≠ '\\'
  head : ∀ c ∈ t.head?, c ≠ '\'' ∧ c ≠ '#'
  ne_dot : t ≠ ['.']
  not_numeric : isNumeric t = false

/-- Decimal digits, in any number. -/
def Numeral (digits : List Char) : Prop := digits ≠ [] ∧ ∀ c ∈ digits, c.isDigit = true

def hexdigits : List Char := "0123456789abcdefABCDEF".toList

/-- A character of a string, as itself, by its letter or by its scalar value. -/
inductive WrittenChar : Char → List Char → Prop
  | raw {c : Char} (h : c ≠ '"' ∧ c ≠ '\\') : WrittenChar c [c]
  | named {c letter : Char} (h : (letter, c) ∈ escapes) : WrittenChar c ['\\', letter]
  | scalar {c : Char} {digits : List Char} (hne : digits ≠ []) (hd : ∀ x ∈ digits, x ∈ hexdigits)
      (hv : hexadecimal digits = c.toNat) : WrittenChar c ('\\' :: 'x' :: digits ++ [';'])

inductive WrittenText : List Char → List Char → Prop
  | nil : WrittenText [] []
  | cons {c : Char} {cs w ws : List Char} (hc : WrittenChar c w) (hcs : WrittenText cs ws) :
      WrittenText (c :: cs) (w ++ ws)

inductive WrittenBytes : Bytes → List Char → Prop
  | nil {gap : List Char} (hg : Gap gap) : WrittenBytes [] gap
  | cons {b : UInt8} {bs : Bytes} {gap digits ws : List Char} (hg : Gap gap)
      (hn : Numeral digits) (hv : decimal digits = b.toNat) (hbs : WrittenBytes bs ws)
      (hd : Delimited ws) : WrittenBytes (b :: bs) (gap ++ digits ++ ws)

/-- The data that the tail of a pair may be. -/
def IsAtom : Sexp → Prop
  | .list _ => False
  | .pair _ _ => False
  | _ => True

mutual

/-- A datum and a text that it is printed as. -/
inductive Written : Sexp → List Char → Prop
  | sym {s : String} (h : Plain s.toList) : Written (.sym s) s.toList
  | str {s : String} {w : List Char} (h : WrittenText s.toList w) :
      Written (.str s) ('"' :: w ++ ['"'])
  | nat {digits : List Char} (h : Numeral digits) : Written (.int (decimal digits)) digits
  | neg {digits : List Char} (h : Numeral digits) :
      Written (.int (-(decimal digits))) ('-' :: digits)
  | bool (b : Bool) : Written (.bool b) ['#', if b then 't' else 'f']
  | bytes {bs : Bytes} {w : List Char} (h : WrittenBytes bs w) :
      Written (.bytes bs) ("#vu8(".toList ++ w ++ [')'])
  | quote {d : Sexp} {gap w : List Char} (hg : Gap gap) (h : Written d w) :
      Written (.list [.sym "quote", d]) ('\'' :: gap ++ w)
  | list {items : List Sexp} {o c : Char} {w : List Char} (ho : o = '(' ∨ o = '[')
      (hc : c = ')' ∨ c = ']') (h : WrittenItems items w) : Written (.list items) (o :: w ++ [c])
  | pair {a d : Sexp} {o c : Char} {g₁ g₂ g₃ g₄ wa wd : List Char} (ho : o = '(' ∨ o = '[')
      (hc : c = ')' ∨ c = ']') (h₁ : Gap g₁) (h₂ : Gap g₂) (h₃ : Gap g₃) (h₄ : Gap g₄)
      (hne₂ : g₂ ≠ []) (hne₃ : g₃ ≠ []) (ha : Written a wa) (hd : Written d wd) (hatom : IsAtom d) :
      Written (.pair a d) (o :: g₁ ++ wa ++ g₂ ++ '.' :: g₃ ++ wd ++ g₄ ++ [c])

inductive WrittenItems : List Sexp → List Char → Prop
  | nil {gap : List Char} (hg : Gap gap) : WrittenItems [] gap
  | cons {d : Sexp} {ds : List Sexp} {gap w ws : List Char} (hg : Gap gap) (h : Written d w)
      (hds : WrittenItems ds ws) (hd : Delimited ws) : WrittenItems (d :: ds) (gap ++ w ++ ws)

end

end Written

section Gaps

variable {gap : List Char} {c : Char}

theorem mem_delimiters_of_mem_spaces (h : c ∈ spaces) : c ∈ delimiters :=
  List.mem_append_left _ h

theorem delimited_append {ws tail : List Char} (h : Delimited ws) (htail : Delimited tail) :
    Delimited (ws ++ tail) := by
  cases ws with
  | nil => exact htail
  | cons c ws => exact h

theorem gap_nil : Gap [] := by
  intro c hc
  cases hc

theorem delimited_nil : Delimited [] := by
  intro c hc
  cases hc

theorem delimited_gap (h : Gap gap) : Delimited gap := by
  intro c hc
  exact mem_delimiters_of_mem_spaces (h c (List.mem_of_mem_head? hc))

end Gaps

section Printer

def writeChar (c : Char) : List Char :=
  match escapes.find? (fun e => e.2 = c) with
  | some e => ['\\', e.1]
  | none =>
    if c.toNat < 32 ∨ c.toNat = 127 then
      '\\' :: 'x' :: (Nat.toDigits 16 c.toNat).map Char.toUpper ++ [';']
    else [c]

def writeText (cs : List Char) : List Char := cs.flatMap writeChar

def writeInt (i : ℤ) : List Char :=
  if 0 ≤ i then Nat.toDigits 10 i.toNat else '-' :: Nat.toDigits 10 (-i).toNat

def writeBytes : Bytes → List Char
  | [] => []
  | [b] => Nat.toDigits 10 b.toNat
  | b :: bs => Nat.toDigits 10 b.toNat ++ ' ' :: writeBytes bs

mutual

/-- The text of a datum on one line. -/
def write : Sexp → List Char
  | .sym s => s.toList
  | .str s => '"' :: writeText s.toList ++ ['"']
  | .int i => writeInt i
  | .bool b => ['#', if b then 't' else 'f']
  | .bytes bs => "#vu8(".toList ++ writeBytes bs ++ [')']
  | .list [.sym "quote", d] => '\'' :: write d
  | .list items => '(' :: writeItems items ++ [')']
  | .pair a d => '(' :: write a ++ " . ".toList ++ write d ++ [')']

def writeItems : List Sexp → List Char
  | [] => []
  | [d] => write d
  | d :: ds => write d ++ ' ' :: writeItems ds

end

mutual

/-- The data of the subset: its symbols are plain, and the tail of a pair is an
atom. -/
def Printable : Sexp → Prop
  | .sym s => Plain s.toList
  | .list items => AllPrintable items
  | .pair a d => Printable a ∧ Printable d ∧ IsAtom d
  | _ => True

def AllPrintable : List Sexp → Prop
  | [] => True
  | d :: ds => Printable d ∧ AllPrintable ds

end

end Printer

section Printing

theorem gap_space : Gap [' '] := by
  intro c hc
  cases List.mem_singleton.mp hc
  decide

theorem delimited_blank (w : List Char) : Delimited (' ' :: w) := by
  intro c hc
  cases hc
  decide

theorem numeral_toDigits (n : ℕ) : Numeral (Nat.toDigits 10 n) :=
  ⟨Nat.toDigits_ne_nil, fun _ hc => Nat.isDigit_of_mem_toDigits (by decide) (by decide) hc⟩

theorem decimal_toDigits (n : ℕ) : decimal (Nat.toDigits 10 n) = n :=
  Nat.ofDigitChars_ten_toDigits

/-- Whether the digits are an `x` escape of the number. -/
def spells (digits : List Char) (n : ℕ) : Bool :=
  !digits.isEmpty && digits.all (fun x => hexdigits.contains x) && hexadecimal digits == n

theorem spells_iff {digits : List Char} {n : ℕ} (h : spells digits n = true) :
    digits ≠ [] ∧ (∀ x ∈ digits, x ∈ hexdigits) ∧ hexadecimal digits = n := by
  simp only [spells, Bool.and_eq_true, Bool.not_eq_true', List.isEmpty_eq_false_iff,
    List.all_eq_true, List.contains_iff_mem, beq_iff_eq] at h
  exact ⟨h.1.1, h.1.2, h.2⟩

theorem spells_toDigits : ∀ n < 128, spells ((Nat.toDigits 16 n).map Char.toUpper) n = true := by
  decide +kernel

theorem writtenChar_writeChar (c : Char) : WrittenChar c (writeChar c) := by
  rw [writeChar]
  cases hfind : escapes.find? (fun e => e.2 = c) with
  | some e =>
    have he : e.2 = c := by simpa using List.find?_some hfind
    have hmem := List.mem_of_find?_eq_some hfind
    exact .named (he ▸ hmem)
  | none =>
    dsimp only
    split
    case isTrue h =>
      obtain ⟨hne, hd, hv⟩ := spells_iff (spells_toDigits c.toNat (by omega))
      exact .scalar hne hd hv
    case isFalse h =>
      have hnot := List.find?_eq_none.mp hfind
      refine .raw ⟨?_, ?_⟩
      · rintro rfl
        exact hnot ('"', '"') (by decide) (by decide)
      · rintro rfl
        exact hnot ('\\', '\\') (by decide) (by decide)

theorem writtenText_writeText (cs : List Char) : WrittenText cs (writeText cs) := by
  induction cs with
  | nil => exact .nil
  | cons c cs ih => exact .cons (writtenChar_writeChar c) ih

theorem written_writeInt (i : ℤ) : Written (.int i) (writeInt i) := by
  rw [writeInt]
  split
  case isTrue h =>
    have hnat := Written.nat (numeral_toDigits i.toNat)
    rwa [decimal_toDigits, Int.toNat_of_nonneg h] at hnat
  case isFalse h =>
    have hneg := Written.neg (numeral_toDigits (-i).toNat)
    rwa [decimal_toDigits, Int.toNat_of_nonneg (by omega), Int.neg_neg] at hneg

theorem WrittenBytes.blank {bs : Bytes} {w : List Char} (h : WrittenBytes bs w) :
    WrittenBytes bs (' ' :: w) := by
  cases h with
  | nil hg => exact .nil (fun c hc => (List.mem_append.mp hc).elim (gap_space c) (hg c))
  | @cons b bs gap digits ws hg hn hv hbs hd =>
    exact .cons (fun c hc => (List.mem_append.mp hc).elim (gap_space c) (hg c)) hn hv hbs hd

theorem writtenBytes_writeBytes (bs : Bytes) : WrittenBytes bs (writeBytes bs) := by
  induction bs with
  | nil => exact .nil gap_nil
  | cons b bs ih =>
    cases bs with
    | nil =>
      have h := WrittenBytes.cons gap_nil (numeral_toDigits b.toNat) (decimal_toDigits b.toNat)
        (.nil gap_nil) delimited_nil
      rwa [List.nil_append, List.append_nil] at h
    | cons x bs =>
      exact .cons gap_nil (numeral_toDigits b.toNat) (decimal_toDigits b.toNat) ih.blank
        (delimited_blank _)

theorem WrittenItems.blank {items : List Sexp} {w : List Char} (h : WrittenItems items w) :
    WrittenItems items (' ' :: w) := by
  cases h with
  | nil hg => exact .nil (fun c hc => (List.mem_append.mp hc).elim (gap_space c) (hg c))
  | @cons d ds gap w ws hg h hds hd =>
    exact .cons (fun c hc => (List.mem_append.mp hc).elim (gap_space c) (hg c)) h hds hd

theorem writtenItems_writeItems {items : List Sexp} (h : ∀ d ∈ items, Written d (write d)) :
    WrittenItems items (writeItems items) := by
  induction items with
  | nil => exact .nil gap_nil
  | cons d items ih =>
    have hd := h d List.mem_cons_self
    have hitems := ih (fun x hx => h x (List.mem_cons_of_mem d hx))
    cases items with
    | nil =>
      have hone := WrittenItems.cons gap_nil hd (.nil gap_nil) delimited_nil
      rwa [List.nil_append, List.append_nil] at hone
    | cons x items =>
      exact .cons gap_nil hd hitems.blank (delimited_blank _)

theorem written_list {items : List Sexp} (h : ∀ d ∈ items, Written d (write d)) :
    Written (.list items) (write (.list items)) := by
  by_cases hq : ∃ d, items = [.sym "quote", d]
  · obtain ⟨d, rfl⟩ := hq
    exact .quote gap_nil (h d (by simp))
  · rw [write]
    · exact .list (Or.inl rfl) (Or.inl rfl) (writtenItems_writeItems h)
    · intro d hd
      exact hq ⟨d, hd⟩

theorem written_pair {a d : Sexp} (ha : Written a (write a)) (hd : Written d (write d))
    (hatom : IsAtom d) : Written (.pair a d) (write (.pair a d)) := by
  have hpair := Written.pair (Or.inl rfl) (Or.inl rfl) gap_nil gap_space gap_space gap_nil
    (by decide) (by decide) ha hd hatom
  rw [write]
  simpa using hpair

mutual

theorem written_write : ∀ d : Sexp, Printable d → Written d (write d)
  | .sym _, h => .sym h
  | .str s, _ => .str (writtenText_writeText s.toList)
  | .int i, _ => written_writeInt i
  | .bool b, _ => .bool b
  | .bytes bs, _ => .bytes (writtenBytes_writeBytes bs)
  | .list items, h => written_list (all_written_write items h)
  | .pair a d, h => written_pair (written_write a h.1) (written_write d h.2.1) h.2.2

theorem all_written_write : ∀ items : List Sexp, AllPrintable items →
    ∀ d ∈ items, Written d (write d)
  | [], _ => fun _ hd => absurd hd List.not_mem_nil
  | x :: items, h => fun _ hd =>
    (List.mem_cons.mp hd).elim (fun he => he ▸ written_write x h.1)
      (all_written_write items h.2 _)

end

end Printing

end MidnightRs.SexpReader
