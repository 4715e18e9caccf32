import WordAbi.Bytes.Hex
import WordAbi.Proofs.Outcome
/-! Hexadecimal text that is read. It is the digits of the bytes that it gives, blanks and the case of letters apart;
and the case of letters does not show in what is read. -/
namespace WordAbi.Hex

def IsTextOf (text : String) (bs : Bytes) : Prop :=
  Text.lower ((withoutMark text.toList).filter fun c => !Text.isAsciiBlank c) = chars bs

theorem digitOfCode : ∀ n < 128, ∀ v ∈ value? (Char.ofNat n),
    v < 16 ∧ (Char.ofNat n).toLower = digit v ∧ Text.isAsciiBlank (Char.ofNat n) = false := by
  decide

theorem digitOfValue {c : Char} {v : Nat} (read : value? c = some v) :
    v < 16 ∧ c.toLower = digit v ∧ Text.isAsciiBlank c = false := by
  have small : c.toNat < 128 := by
    simp only [value?] at read
    split at read
    · omega
    · split at read
      · omega
      · split at read
        · omega
        · cases read
  have held := digitOfCode c.toNat small
  rw [Char.ofNat_toNat] at held
  exact held v read

theorem charsPair {high low : Nat} (left : high < 16) (right : low < 16) (bs : Bytes) :
    chars (UInt8.ofNat (16 * high + low) :: bs) = digit high :: digit low :: chars bs := by
  have whole : (16 * high + low) % 256 = 16 * high + low := by omega
  have first : (16 * high + low) / 16 = high := by omega
  have second : (16 * high + low) % 16 = low := by omega
  simp [chars, whole, first, second]

theorem lowerOfReadPairs {position : Nat} {cs : List Char} {bs : Bytes} (read : readPairs position cs = .ok bs) :
    Text.lower (cs.filter fun c => !Text.isAsciiBlank c) = chars bs := by
  fun_induction readPairs position cs generalizing bs with
  | case1 =>
    cases read
    rfl
  | case2 position c rest blank ih => simpa [blank] using ih read
  | case3 => cases read
  | case4 => cases read
  | case5 => cases read
  | case6 position c visible high first d rest low second ih =>
    obtain ⟨others, later, rfl⟩ := Outcome.mapOk.mp read
    obtain ⟨left, upper, _⟩ := digitOfValue first
    obtain ⟨right, lower, shown⟩ := digitOfValue second
    rw [charsPair left right, ← ih later]
    simp [Text.lower, visible, shown, upper, lower]

theorem isTextOfDecode {text : String} {bs : Bytes} (read : decodeChars (withoutMark text.toList) = .ok bs) :
    IsTextOf text bs := by
  unfold decodeChars at read
  split at read
  · cases read
  · exact lowerOfReadPairs read

theorem charsInjective {bs cs : Bytes} (same : chars bs = chars cs) : bs = cs := by
  have read := readPairsChars bs 0
  rw [same, readPairsChars] at read
  exact (Except.ok.inj read).symm

theorem lowerOfCode : ∀ n < 128, value? (Char.ofNat n).toLower = value? (Char.ofNat n) ∧
    Text.isAsciiBlank (Char.ofNat n).toLower = Text.isAsciiBlank (Char.ofNat n) ∧
      (Char.ofNat n).toLower.toNat < 0x80 := by
  decide

theorem lowerCases (c : Char) : c.toLower = c ∨ c.toNat < 0x80 := by
  unfold Char.toLower
  split
  · rename_i upper
    have last : c.val ≤ 90 := upper.2
    have : c.val.toNat ≤ 90 := last
    exact .inr (Nat.lt_of_le_of_lt this (by decide))
  · exact .inl rfl

theorem lowerAlike (c : Char) : value? c.toLower = value? c ∧
    Text.isAsciiBlank c.toLower = Text.isAsciiBlank c ∧ (0x80 ≤ c.toLower.toNat ↔ 0x80 ≤ c.toNat) := by
  rcases lowerCases c with same | small
  · rw [same]
    exact ⟨rfl, rfl, Iff.rfl⟩
  · obtain ⟨value, blank, ascii⟩ := lowerOfCode c.toNat small
    rw [Char.ofNat_toNat] at value blank ascii
    exact ⟨value, blank, by omega⟩

theorem readPairsLower (position : Nat) (cs : List Char) :
    readPairs position (Text.lower cs) = readPairs position cs := by
  have digit (c : Char) : value? c.toLower = value? c := (lowerAlike c).1
  have blanks (c : Char) : Text.isAsciiBlank c.toLower = Text.isAsciiBlank c := (lowerAlike c).2.1
  unfold Text.lower
  fun_induction readPairs position cs with
  | case1 => rfl
  | case2 position c rest blank ih => simpa only [List.map_cons, readPairs, blanks, if_pos blank] using ih
  | case3 position c rest visible none =>
    simp only [List.map_cons, readPairs, blanks, if_neg visible, digit, none]
  | case4 position c visible high first =>
    simp only [List.map_cons, List.map_nil, readPairs, blanks, if_neg visible, digit, first]
  | case5 position c visible high first d rest none =>
    simp only [List.map_cons, readPairs, blanks, if_neg visible, digit, first, none]
  | case6 position c visible high first d rest low second ih =>
    simp only [List.map_cons, readPairs, blanks, if_neg visible, digit, first, second, ih]

theorem decodeCharsLower (cs : List Char) : decodeChars (Text.lower cs) = decodeChars cs := by
  have ascii : (Text.lower cs).findIdx? (fun c => 0x80 ≤ c.toNat) = cs.findIdx? fun c => 0x80 ≤ c.toNat := by
    rw [Text.lower, List.findIdx?_map]
    exact congrArg (fun test => cs.findIdx? test) (funext fun c => decide_eq_decide.mpr (lowerAlike c).2.2)
  rw [decodeChars, decodeChars, readPairsLower, ascii]

end WordAbi.Hex
