/-! Binary floating point numbers of 64 bits as exact values. -/
namespace WordAbi

/-- A binary64 number. `finite` stands for `± mantissa · 2 ^ exponent`, where the mantissa has 53
bits or the exponent is the least one, -1074. -/
inductive Binary64 where
  | finite (negative : Bool) (mantissa : Nat) (exponent : Int)
  | infinite (negative : Bool)
  | nan
  deriving DecidableEq

namespace Binary64

def roundHalfEven (num den : Nat) : Nat :=
  let q := num / den
  let r := num % den
  if 2 * r < den then q else if den < 2 * r then q + 1 else q + q % 2

def scaled (num den : Nat) (e : Int) : Nat × Nat :=
  if 0 ≤ e then (num, den <<< e.toNat) else (num <<< (-e).toNat, den)

def zero (negative : Bool) : Binary64 := .finite negative 0 (-1074)

def ofRatio (negative : Bool) (num den : Nat) : Binary64 :=
  if num = 0 then zero negative
  else
    let guess : Int := (num.log2 : Int) - den.log2
    let top := scaled num den guess
    let magnitude := if top.2 ≤ top.1 then guess else guess - 1
    let exponent := max (magnitude - 52) (-1074)
    let ratio := scaled num den exponent
    let mantissa := roundHalfEven ratio.1 ratio.2
    let (mantissa, exponent) :=
      if mantissa = 0x20000000000000 then (0x10000000000000, exponent + 1) else (mantissa, exponent)
    if 971 < exponent then .infinite negative else .finite negative mantissa exponent

def ofDecimal (negative : Bool) (digits : Nat) (exponent : Int) : Binary64 :=
  if digits = 0 then zero negative
  else
    let size : Int := (digits.log2 : Int) * 30103 / 100000 + exponent
    if 310 < size then .infinite negative
    else if size < -400 then zero negative
    else if 0 ≤ exponent then ofRatio negative (digits * Nat.pow 10 exponent.toNat) 1
    else ofRatio negative digits (Nat.pow 10 (-exponent).toNat)

def ratio (mantissa : Nat) (exponent : Int) : Nat × Nat := scaled mantissa 1 (-exponent)

def truncate? : Binary64 → Option Int
  | .finite negative m e =>
    let r := ratio m e
    let n : Int := (r.1 / r.2 : Nat)
    some (if negative then -n else n)
  | _ => none

def isIntegral : Binary64 → Bool
  | .finite _ m e => let r := ratio m e; r.1 % r.2 == 0
  | _ => false

def equalsInt (x : Binary64) (n : Int) : Bool := x.isIntegral && x.truncate? == some n

def equals : Binary64 → Binary64 → Bool
  | .nan, _ => false
  | _, .nan => false
  | .finite _ 0 _, .finite _ 0 _ => true
  | x, y => x == y

def signedRatio (negative : Bool) (m : Nat) (e : Int) : Int × Int :=
  let r := ratio m e
  (if negative then -(r.1 : Int) else r.1, r.2)

def belowRatio (x : Binary64) (num den : Int) : Bool :=
  match x with
  | .finite negative m e => let r := signedRatio negative m e; r.1 * den < num * r.2
  | .infinite negative => negative
  | .nan => false

def aboveRatio (x : Binary64) (num den : Int) : Bool :=
  match x with
  | .finite negative m e => let r := signedRatio negative m e; num * r.2 < r.1 * den
  | .infinite negative => !negative
  | .nan => false

def less (x y : Binary64) : Bool :=
  match x, y with
  | .nan, _ => false
  | x, .finite negative m e => let r := signedRatio negative m e; x.belowRatio r.1 r.2
  | .infinite true, .infinite false => true
  | .finite _ _ _, .infinite negative => !negative
  | _, _ => false

end Binary64

end WordAbi
