import WordAbi.Bytes.Basic
/-! The eight-byte words of the machine. Main statement: a padded length is the least multiple of
the word size that is not smaller. -/
namespace WordAbi.Word

def size : Nat := 8

def max : Nat := 0xFFFFFFFFFFFFFFFF

def paddedLength (n : Int) : Int := Int.fdiv (n + 7) 8 * 8

def bytes (n : Nat) : Bytes := Bytes.ofNat size n

def pad (bs : Bytes) : Bytes := bs ++ Bytes.zeros ((8 - bs.length % 8) % 8)

def read (bs : Bytes) (offset : Int) : Nat := (bs.between offset (offset + 8)).toNat

theorem paddedLengthEq (n : Int) : paddedLength n = (n + 7) / 8 * 8 := by
  rw [paddedLength, Int.fdiv_eq_ediv_of_nonneg _ (by omega)]

theorem lePaddedLength (n : Int) : n ≤ paddedLength n := by
  rw [paddedLengthEq]; omega

theorem paddedLengthLt (n : Int) : paddedLength n < n + 8 := by
  rw [paddedLengthEq]; omega

theorem paddedLengthDvd (n : Int) : 8 ∣ paddedLength n := by
  rw [paddedLengthEq]; omega

@[simp] theorem lengthBytes (n : Nat) : (bytes n).length = 8 := by simp [bytes, size]

theorem toNatBytes {n : Nat} (h : n ≤ max) : (bytes n).toNat = n :=
  Bytes.toNatOfNatOfLt (by simp only [max, size, Bytes.capacity] at *; omega)

theorem lengthPad (bs : Bytes) : ((pad bs).length : Int) = paddedLength bs.length := by
  rw [paddedLengthEq, pad, List.length_append, Bytes.lengthZeros]
  omega

end WordAbi.Word
