import WordAbi.Number.Binary64
import WordAbi.Number.Literal
import WordAbi.Number.Shortest
/-! Moments in universal time: seconds since 1970 and the date and time of day they fall on. -/
namespace WordAbi

structure Moment where
  seconds : Int
  micros : Nat
  deriving DecidableEq, Repr

namespace Moment

def ofSeconds (seconds : Int) : Moment := ⟨seconds, 0⟩

/-- The moment that a number of seconds stands for. The fraction is scaled as a binary number before
it is rounded, a half to the even microsecond. -/
def ofBinary64? : Binary64 → Option Moment
  | .finite negative m e =>
    let r := Binary64.ratio m e
    let whole : Int := (r.1 / r.2 : Nat)
    let micros := match Binary64.ofRatio false (r.1 % r.2 * 1000000) r.2 with
      | .finite _ m e => let s := Binary64.ratio m e; Binary64.roundHalfEven s.1 s.2
      | _ => 0
    some (if negative then
        let seconds := -whole
        if micros = 0 then ⟨seconds, 0⟩
        else if micros = 1000000 then ⟨seconds - 1, 0⟩
        else ⟨seconds - 1, 1000000 - micros⟩
      else if micros = 1000000 then ⟨whole + 1, 0⟩
      else ⟨whole, micros⟩)
  | _ => none

def day (t : Moment) : Int := t.seconds / 86400

def secondOfDay (t : Moment) : Nat := (t.seconds % 86400).toNat

/-- Year, month and day of the month of a day since 1970, by the rule of 400 years of 146097 days
each that start in March. -/
def civil (day : Int) : Int × Nat × Nat :=
  let shifted := day + 719468
  let era := shifted / 146097
  let dayOfEra := (shifted % 146097).toNat
  let yearOfEra := (dayOfEra - dayOfEra / 1460 + dayOfEra / 36524 - dayOfEra / 146096) / 365
  let dayOfYear := dayOfEra - (365 * yearOfEra + yearOfEra / 4 - yearOfEra / 100)
  let shiftedMonth := (5 * dayOfYear + 2) / 153
  let dayOfMonth := dayOfYear - (153 * shiftedMonth + 2) / 5 + 1
  let month := if shiftedMonth < 10 then shiftedMonth + 3 else shiftedMonth - 9
  let year := (yearOfEra : Int) + era * 400
  (if month ≤ 2 then year + 1 else year, month, dayOfMonth)

def padded (width n : Nat) : String :=
  String.ofList (Shortest.padLeft width (Decimal.natChars n))

def text? (t : Moment) : Option String :=
  let (year, month, dayOfMonth) := civil t.day
  if year < 1 ∨ 9999 < year then none
  else
    let s := t.secondOfDay
    some (padded 4 year.toNat ++ "-" ++ padded 2 month ++ "-" ++ padded 2 dayOfMonth ++ "T"
      ++ padded 2 (s / 3600) ++ ":" ++ padded 2 (s / 60 % 60) ++ ":" ++ padded 2 (s % 60) ++ "."
      ++ padded 3 (t.micros / 1000) ++ "+00:00")

end Moment

end WordAbi
