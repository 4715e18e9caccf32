/-! Byte strings and the big-endian numbers they spell. Main statement: writing a number that fits
in a width and reading it again gives the number. -/
namespace WordAbi

abbrev Bytes := List UInt8

namespace Bytes

def toNat (bs : Bytes) : Nat := bs.foldl (fun n b => 256 * n + b.toNat) 0

def ofNat : (width n : Nat) → Bytes
  | 0, _ => []
  | width + 1, n => ofNat width (n / 256) ++ [UInt8.ofNat n]

def capacity : (width : Nat) → Nat
  | 0 => 1
  | width + 1 => 256 * capacity width

def zeros (n : Nat) : Bytes := List.replicate n 0

/-- The index that a position names among `length` bytes; a negative one counts from the end. -/
def index (length : Nat) (position : Int) : Nat :=
  if position < 0 then (length + position).toNat else min position.toNat length

def between (bs : Bytes) (start stop : Int) : Bytes :=
  let first := index bs.length start
  (bs.drop first).take (index bs.length stop - first)

def ofAscii (text : String) : Bytes := text.toList.map fun c => UInt8.ofNat c.toNat

def toText (bs : Bytes) : String := String.ofList (bs.map fun b => Char.ofNat b.toNat)

@[simp] theorem lengthOfNat (width n : Nat) : (ofNat width n).length = width := by
  induction width generalizing n with
  | zero => rfl
  | succ width ih => simp [ofNat, ih]

@[simp] theorem lengthZeros (n : Nat) : (zeros n).length = n := by simp [zeros]

theorem toNatAppendSingleton (bs : Bytes) (b : UInt8) :
    toNat (bs ++ [b]) = 256 * toNat bs + b.toNat := by
  simp [toNat]

theorem toNatOfNat (width n : Nat) : toNat (ofNat width n) = n % capacity width := by
  induction width generalizing n with
  | zero => simp [ofNat, toNat, capacity, Nat.mod_one]
  | succ width ih =>
    rw [ofNat, toNatAppendSingleton, ih, UInt8.toNat_ofNat', capacity, Nat.mod_mul]
    omega

theorem toNatOfNatOfLt {width n : Nat} (h : n < capacity width) : toNat (ofNat width n) = n := by
  rw [toNatOfNat, Nat.mod_eq_of_lt h]

theorem foldlLt (bs : Bytes) (n : Nat) :
    bs.foldl (fun n b => 256 * n + b.toNat) n < (n + 1) * capacity bs.length := by
  induction bs generalizing n with
  | nil => simp [capacity]
  | cons b bs ih =>
    have hb := b.toNat_lt
    refine Nat.lt_of_lt_of_le (ih _) ?_
    rw [List.length_cons, capacity, ← Nat.mul_assoc]
    refine Nat.mul_le_mul_right _ ?_
    show 256 * n + b.toNat + 1 ≤ (n + 1) * 256
    omega

theorem toNatLt (bs : Bytes) : toNat bs < capacity bs.length := by
  simpa [toNat] using foldlLt bs 0

end Bytes

end WordAbi
