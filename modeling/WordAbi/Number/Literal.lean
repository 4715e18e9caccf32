import WordAbi.Text.Character
import WordAbi.Bytes.Hex
/-! Whole numbers as people write them: signs, digits of any script, groups joined by `_`. Numbers read or written
here may have any number of digits, as on a host that reads them all. -/
namespace WordAbi

namespace Decimal

def natChars (n : Nat) : List Char := Nat.toDigits 10 n

def intChars (n : Int) : List Char :=
  if n < 0 then '-' :: natChars n.natAbs else natChars n.natAbs

def text (n : Int) : String := String.ofList (intChars n)

end Decimal

namespace Literal

def readGrouped (value : Char → Option Nat) (base : Nat) : (before : Nat) → List Char → Option Nat
  | _, [] => none
  | before, c :: rest =>
    match value c with
    | none => none
    | some d =>
      match rest with
      | [] => some (base * before + d)
      | '_' :: rest => readGrouped value base (base * before + d) rest
      | e :: rest => readGrouped value base (base * before + d) (e :: rest)

def withAsciiDigits (cs : List Char) : List Char :=
  cs.map fun c => match Text.digitValue? c with
    | some d => Char.ofNat (48 + d)
    | none => c

def asciiDigit (c : Char) : Option Nat :=
  if 48 ≤ c.toNat ∧ c.toNat ≤ 57 then some (c.toNat - 48) else none

def digitBelow (base : Nat) (c : Char) : Option Nat := (Hex.value? c).filter (· < base)

def signed (read : List Char → Option Nat) : List Char → Option Int
  | '-' :: rest => (read rest).map fun n => -(n : Int)
  | '+' :: rest => (read rest).map fun n => (n : Int)
  | cs => (read cs).map fun n => (n : Int)

def bare (text : List Char) : List Char := withAsciiDigits (Text.trim Text.isNumberBlank text)

def decimal? (text : List Char) : Option Int := signed (readGrouped asciiDigit 10 0) (bare text)

def afterMark (base : Nat) : List Char → Option Nat
  | '_' :: rest => readGrouped (digitBelow base) base 0 rest
  | cs => readGrouped (digitBelow base) base 0 cs

/-- Digits with a mark of base 16, 8 or 2, or decimal digits; a decimal number that starts with a
zero is zero. -/
def readMarked : List Char → Option Nat
  | '0' :: c :: rest =>
    if c = 'x' ∨ c = 'X' then afterMark 16 rest
    else if c = 'o' ∨ c = 'O' then afterMark 8 rest
    else if c = 'b' ∨ c = 'B' then afterMark 2 rest
    else (readGrouped asciiDigit 10 0 ('0' :: c :: rest)).filter (· = 0)
  | cs => readGrouped asciiDigit 10 0 cs

def marked? (text : List Char) : Option Int := signed readMarked (bare text)

end Literal

end WordAbi
