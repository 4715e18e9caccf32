import WordAbi.Number.Binary64
import WordAbi.Number.Literal
/-! The shortest decimal that reads back as a given binary number, and the ways to write it. -/
namespace WordAbi.Shortest

/-- The reals that round to `mantissa · 2 ^ exponent`, in units of a quarter of the last binary
place. The ends belong to it when the mantissa is even. -/
structure Interval where
  low : Nat
  value : Nat
  high : Nat
  closed : Bool

def Interval.around (mantissa : Nat) (exponent : Int) : Interval where
  low := if mantissa = 0x10000000000000 ∧ -1074 < exponent then 4 * mantissa - 1 else 4 * mantissa - 2
  value := 4 * mantissa
  high := 4 * mantissa + 2
  closed := mantissa % 2 == 0

def Interval.holds (i : Interval) (num den point : Nat) : Bool :=
  let p := point * num
  if i.closed then i.low * den ≤ p && p ≤ i.high * den
  else i.low * den < p && p < i.high * den

/-- The neighbour of the value on a decimal grid that is in the interval, the nearer one of two,
and of two equally near the even one. -/
def Interval.nearest? (i : Interval) (num den : Nat) : Option Nat :=
  let down := i.value * den / num
  let below := i.holds num den down
  let above := i.holds num den (down + 1)
  let twice := 2 * (i.value * den)
  let middle := (2 * down + 1) * num
  if below && above then
    some (if twice < middle then down else if middle < twice then down + 1 else down + down % 2)
  else if below then some down
  else if above then some (down + 1)
  else none

def search (i : Interval) (unit : Int) : (tries : Nat) → (k : Int) → Nat × Int
  | 0, k => (0, k)
  | tries + 1, k =>
    let step := if 0 ≤ k then (Nat.pow 10 k.toNat, 1) else (1, Nat.pow 10 (-k).toNat)
    let step := Binary64.scaled step.1 step.2 unit
    match i.nearest? step.1 step.2 with
    | some point => (point, k)
    | none => search i unit tries (k - 1)

def decimal (mantissa : Nat) (exponent : Int) : Nat × Int :=
  let magnitude := ((mantissa.log2 : Int) + exponent) * 30103 / 100000
  search (.around mantissa exponent) (exponent - 2) 24 (magnitude + 2)

structure Style where
  least : Int
  most : Int
  exponentDigits : Nat
  infinity : String
  notANumber : String

def plain : Style := ⟨-4, 15, 2, "inf", "nan"⟩

def padLeft (width : Nat) (cs : List Char) : List Char :=
  List.replicate (width - cs.length) '0' ++ cs

def Style.positive (s : Style) (digits : Nat) (k : Int) : List Char :=
  let ds := Decimal.natChars digits
  let point : Int := ds.length + k
  let exponent := point - 1
  if s.least ≤ exponent ∧ exponent ≤ s.most then
    if point ≤ 0 then '0' :: '.' :: List.replicate (-point).toNat '0' ++ ds
    else
      let whole := ds.take point.toNat
      let rest := ds.drop point.toNat
      whole ++ List.replicate (point.toNat - ds.length) '0' ++ '.' :: (if rest = [] then ['0'] else rest)
  else
    let rest := ds.drop 1
    ds.take 1 ++ (if rest = [] then [] else '.' :: rest) ++ 'e' :: (if exponent < 0 then '-' else '+')
      :: padLeft s.exponentDigits (Decimal.natChars exponent.natAbs)

def Style.write (s : Style) : Binary64 → String
  | .finite negative m e =>
    let sign := if negative then "-" else ""
    let body := if m = 0 then "0.0" else
      let d := decimal m e
      String.ofList (s.positive d.1 d.2)
    sign ++ body
  | .infinite negative => (if negative then "-" else "") ++ s.infinity
  | .nan => s.notANumber

def hexText : Binary64 → String
  | .finite negative m e =>
    let sign := if negative then "-" else ""
    let lead := m / 0x10000000000000
    let digits := Nat.toDigits 16 (m % 0x10000000000000)
    let exponent := if lead = 0 then (if m = 0 then 0 else -1022) else e + 52
    let fraction := if m = 0 then ['0'] else padLeft 13 digits
    let mark := if exponent < 0 then "p-" else "p+"
    sign ++ "0x" ++ String.ofList (Decimal.natChars lead ++ '.' :: fraction) ++ mark
      ++ String.ofList (Decimal.natChars exponent.natAbs)
  | .infinite negative => if negative then "-inf" else "inf"
  | .nan => "nan"

end WordAbi.Shortest
