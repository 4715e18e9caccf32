/-! White space and decimal digits of every script, and numbers of as many digits as the host reads. -/
namespace WordAbi

/-- What reads numbers in texts: it may refuse those of more than some digits. -/
class Host where
  mostDigits : Option Nat

namespace Host

instance standard : Host := ⟨some 4300⟩

abbrev unlimited : Host := ⟨none⟩

/-- The host reads the number, whose zeros in front count as well. -/
def Reads [host : Host] (digits : List Char) : Prop := ∀ most ∈ host.mostDigits, digits.length ≤ most

instance [Host] (digits : List Char) : Decidable (Reads digits) :=
  inferInstanceAs (Decidable (∀ most ∈ Host.mostDigits, digits.length ≤ most))

theorem unlimitedReads (digits : List Char) : @Reads unlimited digits := fun _ absurd => nomatch absurd

end Host

namespace Text

/-- A separator of words: the Unicode property White_Space and the four information separators
U+001C to U+001F. -/
def isBlank (c : Char) : Bool :=
  let n := c.toNat
  (9 ≤ n && n ≤ 13) || (0x1C ≤ n && n ≤ 0x20) || n == 0x85 || n == 0xA0 || n == 0x1680
    || (0x2000 ≤ n && n ≤ 0x200A) || n == 0x2028 || n == 0x2029 || n == 0x202F || n == 0x205F
    || n == 0x3000

def isAsciiBlank (c : Char) : Bool :=
  c.toNat == 0x20 || (9 ≤ c.toNat && c.toNat ≤ 13)

def isNumberBlank (c : Char) : Bool :=
  isBlank c && !(0x1C ≤ c.toNat && c.toNat ≤ 0x1F)

def trim (drop : Char → Bool) (cs : List Char) : List Char :=
  ((cs.dropWhile drop).reverse.dropWhile drop).reverse

def lower (cs : List Char) : List Char := cs.map Char.toLower

/-- Code points of the digits zero of the general category Nd (Unicode 14); the nine code points
after each of them are the digits one to nine of the same script. -/
def zeroDigits : List Nat :=
  [
    0x30, 0x660, 0x6F0, 0x7C0, 0x966, 0x9E6, 0xA66, 0xAE6, 0xB66, 0xBE6, 0xC66, 0xCE6, 0xD66,
    0xDE6, 0xE50, 0xED0, 0xF20, 0x1040, 0x1090, 0x17E0, 0x1810, 0x1946, 0x19D0, 0x1A80, 0x1A90,
    0x1B50, 0x1BB0, 0x1C40, 0x1C50, 0xA620, 0xA8D0, 0xA900, 0xA9D0, 0xA9F0, 0xAA50, 0xABF0,
    0xFF10, 0x104A0, 0x10D30, 0x11066, 0x110F0, 0x11136, 0x111D0, 0x112F0, 0x11450, 0x114D0,
    0x11650, 0x116C0, 0x11730, 0x118E0, 0x11950, 0x11C50, 0x11D50, 0x11DA0, 0x16A60, 0x16AC0,
    0x16B50, 0x1D7CE, 0x1D7D8, 0x1D7E2, 0x1D7EC, 0x1D7F6, 0x1E140, 0x1E2F0, 0x1E950, 0x1FBF0]

def digitValue? (c : Char) : Option Nat :=
  (zeroDigits.find? fun first => first ≤ c.toNat && c.toNat < first + 10).map (c.toNat - ·)

def isDecimalDigit (c : Char) : Bool := (digitValue? c).isSome

theorem isDecimalDigitIff {c : Char} : isDecimalDigit c = true ↔ ∃ d, digitValue? c = some d := by
  simp [isDecimalDigit, Option.isSome_iff_exists]

def digitsValue (cs : List Char) : Nat :=
  cs.foldl (fun n c => 10 * n + (digitValue? c).getD 0) 0

end Text

end WordAbi
