import MidnightRs.AnalyzedForms
import MidnightRs.Utf8Text

/-!
The reader of the artifact's data. The cursor is what is left of the source, and
a slice of the source panics when one of its ends lies inside a character.
-/
namespace MidnightRs.SexpReader

open AnalyzedIr (Sexp)
open Utf8

section Outcomes

/-- How a reading step ends. `rest` is what is left where it stops, so the byte
an error names is the one before it. -/
inductive Outcome (α : Type) where
  | value (a : α) (rest : Bytes)
  | refused (rest : Bytes) (message : String)
  | panicked
  | outOfFuel
deriving Repr

def Outcome.bind {α β : Type} (o : Outcome α) (f : α → Bytes → Outcome β) : Outcome β :=
  match o with
  | .value a rest => f a rest
  | .refused rest message => .refused rest message
  | .panicked => .panicked
  | .outOfFuel => .outOfFuel

/-- The text from one position to a later one. -/
def slice (start rest : Bytes) : Outcome (List Char) :=
  if isCharBoundary start && isCharBoundary rest then
    .value (decode (start.take (start.length - rest.length))) rest
  else .panicked

end Outcomes

section Scanning

def isAsciiWhitespace (c : UInt8) : Bool :=
  [' ', '\t', '\n', '\x0C', '\r'].any (fun x => ascii x == c)

def isOpening (c : UInt8) : Bool := c == ascii '(' || c == ascii '['

def isClosing (c : UInt8) : Bool := c == ascii ')' || c == ascii ']'

def isDelimiter (c : UInt8) : Bool :=
  isAsciiWhitespace c || isOpening c || isClosing c || c == ascii '"' || c == ascii ';'

def isAsciiHexdigit (c : UInt8) : Bool :=
  "0123456789abcdefABCDEF".toList.any (fun x => ascii x == c)

mutual

def skipWs : Bytes → Bytes
  | [] => []
  | c :: rest =>
    if isAsciiWhitespace c then skipWs rest
    else if c = ascii ';' then skipComment rest
    else c :: rest

/-- A comment ends after its line. -/
def skipComment : Bytes → Bytes
  | [] => []
  | c :: rest => if c = ascii '\n' then skipWs rest else skipComment rest

end

end Scanning

section Tokens

/-- The number that decimal digits write. -/
def decimal (digits : List Char) : ℕ := Nat.ofDigitChars 10 digits 0

/-- A token is a number when digits follow its sign. -/
def isNumeric (token : List Char) : Bool :=
  let digits := if token.head? = some '-' then token.tail else token
  !digits.isEmpty && digits.all Char.isDigit

def atomOf (token : List Char) : Sexp :=
  if isNumeric token then
    if token.head? = some '-' then .int (-(decimal token.tail)) else .int (decimal token)
  else .sym (String.ofList token)

def readAtom (bs : Bytes) : Outcome Sexp :=
  let stop := bs.dropWhile (fun c => !isDelimiter c)
  if stop = bs then .refused bs "empty token"
  else (slice bs stop).bind (fun token rest => .value (atomOf token) rest)

/-- The escapes that are one letter. -/
def escapes : List (Char × Char) :=
  [('a', '\x07'), ('b', '\x08'), ('t', '\t'), ('n', '\n'), ('v', '\x0B'), ('f', '\x0C'),
    ('r', '\r'), ('"', '"'), ('\\', '\\')]

def hexDigit (c : Char) : ℕ :=
  if c.isDigit then c.toNat - 48 else if 97 ≤ c.toNat then c.toNat - 87 else c.toNat - 55

def hexadecimal (digits : List Char) : ℕ := digits.foldl (fun n c => 16 * n + hexDigit c) 0

/-- The scalar value that the digits name, when it is one and fits 32 bits. -/
def scalarOf (digits : List Char) : Option Char :=
  if digits ≠ [] ∧ hexadecimal digits < 2 ^ 32 ∧ (hexadecimal digits).isValidChar then
    some (Char.ofNat (hexadecimal digits))
  else none

/-- The digits of an `x` escape and its semicolon. -/
def readScalar (bs : Bytes) : Outcome Char :=
  (slice bs (bs.dropWhile isAsciiHexdigit)).bind (fun digits rest =>
    match rest with
    | [] => .refused [] "unterminated \\x escape"
    | c :: rest =>
      if c = ascii ';' then
        match scalarOf digits with
        | some scalar => .value scalar rest
        | none => .refused rest "\\x escape is not a Unicode scalar value"
      else .refused rest "unterminated \\x escape")

def readEscape : Bytes → Outcome Char
  | [] => .refused [] "unterminated escape"
  | c :: rest =>
    match escapes.find? (fun e => ascii e.1 == c) with
    | some e => .value e.2 rest
    | none =>
      if c = ascii 'x' then readScalar rest else .refused rest "unknown string escape"

def isPlain (c : UInt8) : Bool := c != ascii '"' && c != ascii '\\'

/-- A string after its opening quote, segment by segment. -/
def readText : ℕ → List Char → Bytes → Outcome Sexp
  | 0, _, _ => .outOfFuel
  | fuel + 1, out, bs =>
    (slice bs (bs.dropWhile isPlain)).bind (fun segment rest =>
      match rest with
      | [] => .refused [] "unterminated string"
      | c :: rest =>
        if c = ascii '"' then .value (.str (String.ofList (out ++ segment))) rest
        else (readEscape rest).bind (fun scalar rest => readText fuel (out ++ segment ++ [scalar]) rest))

def readString (rest : Bytes) : Outcome Sexp := readText (rest.length + 1) [] rest

/-- The elements of a bytevector after its opening parenthesis. -/
def readElements : ℕ → Bytes → Bytes → Outcome Sexp
  | 0, _, _ => .outOfFuel
  | fuel + 1, bytes, bs =>
    match skipWs bs with
    | [] => .refused [] "unterminated bytevector"
    | c :: rest =>
      if c = ascii ')' then .value (.bytes bytes) rest
      else (readAtom (c :: rest)).bind (fun atom rest =>
        match atom with
        | .int i =>
          if 0 ≤ i ∧ i ≤ 255 then readElements fuel (bytes ++ [UInt8.ofNat i.toNat]) rest
          else .refused rest "bytevector element out of range"
        | _ => .refused rest "non-integer in bytevector")

def readHash (bs : Bytes) : Outcome Sexp :=
  if encode ['#', 't'] <+: bs then .value (.bool true) (bs.drop 2)
  else if encode ['#', 'f'] <+: bs then .value (.bool false) (bs.drop 2)
  else if encode "#vu8(".toList <+: bs then readElements (bs.length + 1) [] (bs.drop 5)
  else .refused bs "unrecognized # syntax"

end Tokens

section Data

/-- A dot is the pair dot only when it stands alone. -/
def loneDot (rest : Bytes) : Bool := (rest.head?.map isDelimiter).getD true

mutual

/-- Reading one datum. Brackets are synonyms of the parentheses. -/
def read : ℕ → Bytes → Outcome Sexp
  | 0, _ => .outOfFuel
  | fuel + 1, bs =>
    match skipWs bs with
    | [] => .refused [] "unexpected end of input"
    | c :: rest =>
      if isOpening c then readList fuel [] rest
      else if isClosing c then .refused (c :: rest) "unexpected closing parenthesis"
      else if c = ascii '\'' then
        (read fuel rest).bind (fun quoted rest => .value (.list [.sym "quote", quoted]) rest)
      else if c = ascii '"' then readString rest
      else if c = ascii '#' then readHash (c :: rest)
      else readAtom (c :: rest)

def readList : ℕ → List Sexp → Bytes → Outcome Sexp
  | 0, _, _ => .outOfFuel
  | fuel + 1, items, bs =>
    match skipWs bs with
    | [] => .refused [] "unterminated list"
    | c :: rest =>
      if isClosing c then .value (.list items) rest
      else if c = ascii '.' ∧ loneDot rest = true then
        (read fuel rest).bind (fun tail rest =>
          match skipWs rest with
          | [] => .refused [] "expected ) after dotted tail"
          | d :: rest =>
            if isClosing d then
              match items with
              | [car] => .value (.pair car tail) rest
              | _ => .refused rest "dotted pair with more than one car"
            else .refused rest "expected ) after dotted tail")
      else (read fuel (c :: rest)).bind (fun item rest => readList fuel (items ++ [item]) rest)

end

/-- Reading the single datum of a source. -/
def readOne (src : String) : Outcome Sexp :=
  (read (2 * (encode src.toList).length + 1) (encode src.toList)).bind (fun datum rest =>
    match skipWs rest with
    | [] => .value datum []
    | c :: rest => .refused (c :: rest) "trailing content after the datum")

end Data

end MidnightRs.SexpReader
