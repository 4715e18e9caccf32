import WordAbi.Json.Basic
import WordAbi.Bytes.Hex
import WordAbi.Number.Literal
/-! The lexemes of JSON text, each with the position of its first character. The first character
sequence that is no lexeme ends the list; whether it matters depends on what is expected there. -/
namespace WordAbi.Json

inductive Cause where
  | valueExpected
  | nameExpected
  | colonExpected
  | commaExpected
  | unterminated
  | control
  | escape
  | unicodeEscape
  | extra
  | byteOrderMark
  deriving DecidableEq

structure Problem where
  cause : Cause
  position : Nat

def Cause.text : Cause → String
  | valueExpected => "Expecting value"
  | nameExpected => "Expecting property name enclosed in double quotes"
  | colonExpected => "Expecting ':' delimiter"
  | commaExpected => "Expecting ',' delimiter"
  | unterminated => "Unterminated string starting at"
  | control => "Invalid control character at"
  | escape => "Invalid \\escape"
  | unicodeEscape => "Invalid \\uXXXX escape"
  | extra => "Extra data"
  | byteOrderMark => "Unexpected UTF-8 BOM (decode using utf-8-sig)"

def lineColumn (text : List Char) (position : Nat) : Nat × Nat :=
  let before := text.take position
  (before.count '\n' + 1, (before.reverse.takeWhile (· != '\n')).length + 1)

def Problem.describe (problem : Problem) (text : List Char) : String :=
  let (line, column) := lineColumn text problem.position
  problem.cause.text ++ s!": line {line} column {column} (char {problem.position})"

inductive Lexeme where
  | openArray
  | closeArray
  | openObject
  | closeObject
  | comma
  | colon
  | text (s : String)
  | scalar (value : Json)
  | bad (problem : Problem)
  | finish

structure Placed where
  lexeme : Lexeme
  position : Nat

def hexUnit? (a b c d : Char) : Option Nat := do
  let a ← Hex.value? a
  let b ← Hex.value? b
  let c ← Hex.value? c
  let d ← Hex.value? d
  some (((a * 16 + b) * 16 + c) * 16 + d)

def escaped? : Char → Option Nat
  | '"' => some 0x22
  | '\\' => some 0x5C
  | '/' => some 0x2F
  | 'b' => some 8
  | 'f' => some 12
  | 'n' => some 10
  | 'r' => some 13
  | 't' => some 9
  | _ => none

def readUnits (start : Nat) :
    (position : Nat) → (before : List Nat) → List Char → Except Problem (List Nat × Nat)
  | _, _, [] => .error ⟨.unterminated, start⟩
  | _, _, ['\\'] => .error ⟨.unterminated, start⟩
  | position, before, '\\' :: 'u' :: a :: b :: c :: d :: rest =>
    if rest.isEmpty then .error ⟨.unicodeEscape, position + 1⟩
    else match hexUnit? a b c d with
      | some unit => readUnits start (position + 6) (unit :: before) rest
      | none => .error ⟨.unicodeEscape, position + 1⟩
  | position, before, '\\' :: c :: rest =>
    if c = 'u' then .error ⟨.unicodeEscape, position + 1⟩
    else match escaped? c with
      | some unit => readUnits start (position + 2) (unit :: before) rest
      | none => .error ⟨.escape, position⟩
  | position, before, c :: rest =>
    if c = '"' then .ok (before.reverse, position + 1)
    else if c.toNat < 0x20 then .error ⟨.control, position⟩
    else readUnits start (position + 1) (c.toNat :: before) rest

/-- Characters of code points, two halves of one being put together. A half that stands alone has no
character and becomes the replacement character. -/
def ofUnits : List Nat → List Char
  | high :: low :: rest =>
    if 0xD800 ≤ high ∧ high < 0xDC00 ∧ 0xDC00 ≤ low ∧ low < 0xE000 then
      Char.ofNat (0x10000 + (high - 0xD800) * 0x400 + (low - 0xDC00)) :: ofUnits rest
    else single high :: ofUnits (low :: rest)
  | [unit] => [single unit]
  | [] => []
where
  single (unit : Nat) : Char :=
    if 0xD800 ≤ unit ∧ unit < 0xE000 then Char.ofNat 0xFFFD else Char.ofNat unit

def isDigit (c : Char) : Bool := (Literal.asciiDigit c).isSome

def digitsValue (cs : List Char) : Nat :=
  cs.foldl (fun n c => 10 * n + (Literal.asciiDigit c).getD 0) 0

def wholeDigits (cs : List Char) : List Char :=
  match cs with
  | '0' :: _ => ['0']
  | _ => cs.takeWhile isDigit

def fractionDigits : List Char → List Char
  | '.' :: rest => rest.takeWhile isDigit
  | _ => []

def exponentPart : List Char → Option (Int × Nat)
  | e :: rest =>
    if e = 'e' ∨ e = 'E' then
      let (negative, signWidth, digits) := match rest with
        | '-' :: tail => (true, 1, tail.takeWhile isDigit)
        | '+' :: tail => (false, 1, tail.takeWhile isDigit)
        | tail => (false, 0, tail.takeWhile isDigit)
      if digits.isEmpty then none
      else
        let n : Int := digitsValue digits
        some (if negative then -n else n, 1 + signWidth + digits.length)
    else none
  | [] => none

def readNumber (negative : Bool) (cs : List Char) : Option (Json × Nat) :=
  let whole := wholeDigits cs
  if whole.isEmpty then none
  else
    let rest := cs.drop whole.length
    let fraction := fractionDigits rest
    let fractionWidth := if fraction.isEmpty then 0 else fraction.length + 1
    let exponent := exponentPart (rest.drop fractionWidth)
    if fraction.isEmpty && exponent.isNone then
      let n : Int := digitsValue whole
      some (.int (if negative then -n else n), whole.length)
    else
      let (e, exponentWidth) := exponent.getD (0, 0)
      let digits := digitsValue (whole ++ fraction)
      some (.float (.ofDecimal negative digits (e - fraction.length)),
        whole.length + fractionWidth + exponentWidth)

def words : List (String × Json) :=
  [("null", .null), ("true", .bool true), ("false", .bool false), ("NaN", .float .nan),
    ("Infinity", .float (.infinite false)), ("-Infinity", .float (.infinite true))]

def word? (cs : List Char) : Option (Json × Nat) :=
  (words.find? fun w => w.1.toList.isPrefixOf cs).map fun w => (w.2, w.1.length)

def scan (position : Nat) (c : Char) (rest : List Char) : Lexeme × Nat :=
  if c = '[' then (.openArray, 0)
  else if c = ']' then (.closeArray, 0)
  else if c = '\x7b' then (.openObject, 0)
  else if c = '\x7d' then (.closeObject, 0)
  else if c = ',' then (.comma, 0)
  else if c = ':' then (.colon, 0)
  else if c = '"' then
    match readUnits position (position + 1) [] rest with
    | .ok (units, stop) => (.text (String.ofList (ofUnits units)), stop - position - 1)
    | .error problem => (.bad problem, 0)
  else
    let number := if c = '-' then (readNumber true rest).map fun (v, width) => (v, width + 1)
      else readNumber false (c :: rest)
    match (word? (c :: rest)).or number with
    | some (value, width) => (.scalar value, width - 1)
    | none => (.bad ⟨.valueExpected, position⟩, 0)

def isSpace (c : Char) : Bool := c = ' ' || c = '\t' || c = '\n' || c = '\r'

def lexemes (position : Nat) : List Char → List Placed
  | [] => [⟨.finish, position⟩]
  | c :: rest =>
    if isSpace c then lexemes (position + 1) rest
    else
      let (lexeme, extra) := scan position c rest
      match lexeme with
      | .bad problem => [⟨.bad problem, position⟩]
      | lexeme => ⟨lexeme, position⟩ :: lexemes (position + 1 + extra) (rest.drop extra)
termination_by cs => cs.length
decreasing_by
  all_goals simp only [List.length_cons, List.length_drop]
  all_goals omega

end WordAbi.Json
