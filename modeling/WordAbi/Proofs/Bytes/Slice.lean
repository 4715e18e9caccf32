import Mathlib.Data.List.Induction
import WordAbi.Word.Basic
/-! Parts of byte strings. Bytes between two others are found by their positions, the low-order bytes
of a number are the end of its wider spelling, and ASCII text is read back from its bytes. -/
namespace WordAbi

namespace Bytes

def Holds (data : Bytes) (position : Nat) (bs : Bytes) : Prop :=
  ∃ before after, data = before ++ bs ++ after ∧ before.length = position

theorem holdsAppend {data bs cs : Bytes} {position : Nat} :
    data.Holds position (bs ++ cs) ↔ data.Holds position bs ∧ data.Holds (position + bs.length) cs := by
  constructor
  · rintro ⟨before, after, same, rfl⟩
    exact ⟨⟨before, cs ++ after, by simpa using same, rfl⟩,
      ⟨before ++ bs, after, by simpa using same, by simp⟩⟩
  · rintro ⟨⟨before, after, same, rfl⟩, ⟨before', after', same', length⟩⟩
    have parts : before ++ bs ++ after = before' ++ (cs ++ after') := by
      rw [← same, same', List.append_assoc]
    have tails := (List.append_inj parts (by simpa using length.symm)).2
    exact ⟨before, after', by rw [same, tails]; simp, rfl⟩

theorem holdsNil {data : Bytes} {position : Nat} : data.Holds position [] ↔ position ≤ data.length := by
  constructor
  · rintro ⟨before, after, rfl, rfl⟩
    simp
  · intro inside
    exact ⟨data.take position, data.drop position, by simp, by simp [inside]⟩

theorem holdsLe {data bs : Bytes} {position : Nat} (holds : data.Holds position bs) :
    position + bs.length ≤ data.length := by
  obtain ⟨before, after, rfl, rfl⟩ := holds
  simp

theorem holdsEq {data bs : Bytes} (holds : data.Holds 0 bs) (length : bs.length = data.length) :
    data = bs := by
  obtain ⟨before, after, rfl, none⟩ := holds
  obtain rfl := List.length_eq_zero_iff.mp none
  obtain rfl : after = [] := List.length_eq_zero_iff.mp (by simpa using length)
  simp

theorem holdsGet {data bs : Bytes} {position i : Nat} (holds : data.Holds position bs) (inside : i < bs.length) :
    data[position + i]? = bs[i]? := by
  obtain ⟨before, after, rfl, rfl⟩ := holds
  rw [List.append_assoc, List.getElem?_append_right (by omega), Nat.add_sub_cancel_left,
    List.getElem?_append_left inside]

theorem capacityMono {m n : Nat} (h : m ≤ n) : capacity m ≤ capacity n := by
  induction h with
  | refl => exact Nat.le_refl _
  | step _ ih => rw [capacity]; omega

theorem betweenNat (bs : Bytes) (start stop : Nat) : bs.between start stop = (bs.take stop).drop start := by
  have first : index bs.length (start : Int) = min start bs.length := by
    simp [index, show ¬ (start : Int) < 0 by omega]
  have last : index bs.length (stop : Int) = min stop bs.length := by
    simp [index, show ¬ (stop : Int) < 0 by omega]
  rw [between, first, last]
  apply List.ext_getElem?
  intro i
  simp only [List.getElem?_take, List.getElem?_drop]
  by_cases inside : start + i < min stop bs.length
  · rw [if_pos (by omega), if_pos (by omega), Nat.min_eq_left (by omega)]
  · by_cases beyond : start + i < stop
    · rw [if_neg (by omega), if_pos beyond, List.getElem?_eq_none (by omega)]
    · rw [if_neg (by omega), if_neg beyond]

theorem betweenAppend (before bs after : Bytes) :
    between (before ++ bs ++ after) before.length (before.length + bs.length) = bs := by
  have cast : (before.length : Int) + bs.length = ((before.length + bs.length : Nat) : Int) := by omega
  rw [cast, betweenNat]
  simp [List.take_append]

theorem ofNatToNat (bs : Bytes) : ofNat bs.length (toNat bs) = bs := by
  induction bs using List.reverseRecOn with
  | nil => rfl
  | append_singleton bs b ih =>
    have low := b.toNat_lt
    have quotient : (256 * toNat bs + b.toNat) / 256 = toNat bs := by omega
    have remainder : UInt8.ofNat (256 * toNat bs + b.toNat) = b := by
      rw [← UInt8.toNat_inj, UInt8.toNat_ofNat']
      omega
    rw [toNatAppendSingleton, List.length_append, List.length_singleton, ofNat, quotient, remainder, ih]

theorem ofNatDrop (extra width n : Nat) : (ofNat (extra + width) n).drop extra = ofNat width n := by
  induction width generalizing n with
  | zero => simp [ofNat]
  | succ width ih =>
    rw [← Nat.add_assoc, ofNat, List.drop_append_of_le_length (by simp), ih, ofNat]

theorem toTextOfAscii {text : String} (ascii : ∀ c ∈ text.toList, c.toNat < 0x80) :
    (ofAscii text).toText = text := by
  have back : ∀ cs : List Char, (∀ c ∈ cs, c.toNat < 0x80) →
      (cs.map fun c => Char.ofNat (UInt8.ofNat c.toNat).toNat) = cs := by
    intro cs small
    induction cs with
    | nil => rfl
    | cons c cs ih =>
      have low := small c (by simp)
      rw [List.map_cons, ih fun c member => small c (by simp [member]), UInt8.toNat_ofNat',
        Nat.mod_eq_of_lt (by omega), Char.ofNat_toNat]
  rw [toText, ofAscii, List.map_map]
  exact (congrArg String.ofList (back text.toList ascii)).trans String.ofList_toList

theorem ofAsciiLow {text : String} (ascii : ∀ c ∈ text.toList, c.toNat < 0x80) :
    (ofAscii text).all (· < 0x80) = true := by
  rw [List.all_eq_true]
  intro b member
  obtain ⟨c, inside, rfl⟩ := List.mem_map.mp member
  have low := ascii c inside
  simp only [decide_eq_true_eq, UInt8.lt_iff_toNat_lt, UInt8.toNat_ofNat']
  show c.toNat % 2 ^ 8 < 128
  omega

end Bytes

namespace Word

theorem readAppend (before : Bytes) {word : Bytes} (after : Bytes) (wide : word.length = 8) :
    read (before ++ word ++ after) before.length = word.toNat := by
  have place := Bytes.betweenAppend before word after
  rw [wide] at place
  exact congrArg Bytes.toNat place

theorem toNatDropBytes {width n : Nat} (narrow : width ≤ 8) (h : n < Bytes.capacity width) :
    Bytes.toNat ((bytes n).drop (8 - width)) = n := by
  have whole : 8 - width + width = 8 := by omega
  have low := Bytes.ofNatDrop (8 - width) width n
  rw [whole] at low
  rw [show bytes n = Bytes.ofNat 8 n from rfl, low, Bytes.toNatOfNatOfLt h]

theorem holdsBytes {data : Bytes} {position n : Nat} :
    data.Holds position (bytes n) ∧ n ≤ max ↔ position + 8 ≤ data.length ∧ read data position = n := by
  constructor
  · rintro ⟨holds, fits⟩
    have inside := Bytes.holdsLe holds
    rw [lengthBytes] at inside
    obtain ⟨before, after, rfl, rfl⟩ := holds
    exact ⟨inside, (readAppend before after (lengthBytes n)).trans (toNatBytes fits)⟩
  · rintro ⟨inside, rfl⟩
    let word : Bytes := (data.drop position).take 8
    have wide : word.length = 8 := by simp [word]; omega
    have parts : data = data.take position ++ word ++ data.drop (position + 8) := by
      rw [List.append_assoc, ← List.drop_drop, List.take_append_drop, List.take_append_drop]
    have spelled : read data position = word.toNat := by
      have there := readAppend (data.take position) (data.drop (position + 8)) wide
      rwa [← parts, List.length_take_of_le (by omega)] at there
    have same : bytes word.toNat = word := by
      rw [bytes, size, ← wide, Bytes.ofNatToNat]
    refine ⟨⟨data.take position, data.drop (position + 8), ?_, by simp; omega⟩, ?_⟩
    · rw [spelled, same]
      exact parts
    · have bound := Bytes.toNatLt word
      rw [wide] at bound
      rw [spelled]
      simp only [max, Bytes.capacity] at bound ⊢
      omega

end Word

end WordAbi
