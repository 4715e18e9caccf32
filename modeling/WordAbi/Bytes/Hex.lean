import WordAbi.Bytes.Basic
import WordAbi.Text.Character
/-! Bytes as pairs of hexadecimal digits. Main statement: reading what `encode` writes gives the
bytes. -/
namespace WordAbi.Hex

def digit (n : Nat) : Char :=
  if n < 10 then Char.ofNat (48 + n) else Char.ofNat (87 + n)

def value? (c : Char) : Option Nat :=
  let n := c.toNat
  if 48 ≤ n ∧ n ≤ 57 then some (n - 48)
  else if 97 ≤ n ∧ n ≤ 102 then some (n - 87)
  else if 65 ≤ n ∧ n ≤ 70 then some (n - 55)
  else none

def chars (bs : Bytes) : List Char :=
  bs.flatMap fun b => [digit (b.toNat / 16), digit (b.toNat % 16)]

def encode (bs : Bytes) : String := String.ofList (chars bs)

/-- Reads pairs of digits with white space of ASCII between the pairs. A failure gives the index of
the first character that does not fit, counted from `position`. -/
def readPairs (position : Nat) : List Char → Except Nat Bytes
  | [] => .ok []
  | c :: rest =>
    if Text.isAsciiBlank c then readPairs (position + 1) rest
    else match value? c with
      | none => .error position
      | some high =>
        match rest with
        | [] => .error (position + 1)
        | d :: rest =>
          match value? d with
          | none => .error (position + 1)
          | some low => (readPairs (position + 2) rest).map (UInt8.ofNat (16 * high + low) :: ·)

def decodeChars (cs : List Char) : Except Nat Bytes :=
  match cs.findIdx? fun c => 0x80 ≤ c.toNat with
  | some position => .error position
  | none => readPairs 0 cs

def decode (text : String) : Except Nat Bytes := decodeChars text.toList

def withoutMark : List Char → List Char
  | '0' :: 'x' :: rest => rest
  | '0' :: 'X' :: rest => rest
  | cs => cs

theorem valueDigit : ∀ n < 16, value? (digit n) = some n := by decide

theorem digitNotBlank : ∀ n < 16, Text.isAsciiBlank (digit n) = false := by decide

theorem digitAscii : ∀ n < 16, (digit n).toNat < 0x80 := by decide

theorem readPairsChars (bs : Bytes) (position : Nat) : readPairs position (chars bs) = .ok bs := by
  induction bs generalizing position with
  | nil => rfl
  | cons b bs ih =>
    have hb := b.toNat_lt
    have high : b.toNat / 16 < 16 := by omega
    have low : b.toNat % 16 < 16 := by omega
    have back : UInt8.ofNat (16 * (b.toNat / 16) + b.toNat % 16) = b := by
      rw [Nat.div_add_mod]; exact UInt8.ofNat_toNat
    have split : chars (b :: bs) = digit (b.toNat / 16) :: digit (b.toNat % 16) :: chars bs := rfl
    rw [split, readPairs, if_neg (by simp [digitNotBlank _ high]), valueDigit _ high]
    show (match value? (digit (b.toNat % 16)) with
      | none => Except.error (position + 1)
      | some low => (readPairs (position + 2) (chars bs)).map
          (UInt8.ofNat (16 * (b.toNat / 16) + low) :: ·)) = _
    rw [valueDigit _ low, ih]
    show Except.ok (_ :: bs) = _
    rw [back]

theorem charsAscii (bs : Bytes) : ∀ c ∈ chars bs, c.toNat < 0x80 := by
  intro c hc
  simp only [chars, List.mem_flatMap, List.mem_cons, List.not_mem_nil, or_false] at hc
  obtain ⟨b, -, rfl | rfl⟩ := hc
  · have := b.toNat_lt; exact digitAscii _ (by omega)
  · exact digitAscii _ (by omega)

theorem decodeEncode (bs : Bytes) : decode (encode bs) = .ok bs := by
  have none : (chars bs).findIdx? (fun c => decide (0x80 ≤ c.toNat)) = none := by
    rw [List.findIdx?_eq_none_iff]
    intro c hc
    have := charsAscii bs c hc
    simpa using this
  simp only [decode, encode, decodeChars, String.toList_ofList, none, readPairsChars]

end WordAbi.Hex
