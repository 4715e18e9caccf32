import WordAbi.Decoder
import WordAbi.Proofs.Bytes.Slice
import WordAbi.Proofs.Outcome
/-! Bytes at a position of a decoder's buffer. What stands at a position is what the decoder takes
from there, and bytes that stand one after another each stand where the ones before them end. -/
namespace WordAbi.Decoder

variable {d : Decoder}

def Holds (d : Decoder) (position : Nat) (bs : Bytes) : Prop :=
  ∃ before after, d.buffer.toList = before ++ bs ++ after ∧ before.length = position

theorem holdsAll (d : Decoder) : d.Holds 0 d.buffer.toList := ⟨[], [], by simp, rfl⟩

theorem holdsAppend {position : Nat} {bs cs : Bytes} :
    d.Holds position (bs ++ cs) ↔ d.Holds position bs ∧ d.Holds (position + bs.length) cs :=
  @Bytes.holdsAppend d.buffer.toList bs cs position

theorem holdsEnd {position : Nat} {bs : Bytes} (holds : d.Holds position bs) :
    position + bs.length ≤ d.buffer.size := Bytes.holdsLe holds

theorem betweenNat {start stop : Nat} (h : stop ≤ d.buffer.size) :
    d.between start stop = (d.buffer.toList.take stop).drop start := by
  have first : Bytes.index d.buffer.size (start : Int) = min start d.buffer.size := by
    simp [Bytes.index, show ¬ (start : Int) < 0 by omega]
  have last : Bytes.index d.buffer.size (stop : Int) = stop := by
    simp [Bytes.index, show ¬ (stop : Int) < 0 by omega, Nat.min_eq_left h]
  rw [between, first, last, Array.toList_extract]
  simp only [List.extract_eq_take_drop]
  rcases Nat.le_total start d.buffer.size with inside | beyond
  · rw [Nat.min_eq_left inside, List.drop_take]
  · have empty : stop - d.buffer.size = 0 := by omega
    have rest : ((d.buffer.toList.take stop).drop start) = [] := by
      apply List.drop_eq_nil_of_le
      simp; omega
    rw [Nat.min_eq_right beyond, empty, rest]
    rfl

theorem lengthBetween {start stop : Nat} (h : stop ≤ d.buffer.size) :
    (d.between start stop).length = stop - start := by
  rw [betweenNat h]
  simp [Nat.min_eq_left h]

theorem betweenOfHolds {position : Nat} {bs : Bytes} (holds : d.Holds position bs) :
    d.between position (position + bs.length) = bs := by
  have inside := holdsEnd holds
  have cast : (position : Int) + bs.length = ((position + bs.length : Nat) : Int) := by omega
  rw [cast, betweenNat inside]
  obtain ⟨before, after, same, rfl⟩ := holds
  simp [same, List.take_append]

theorem takeOk {type : ParamType} {offset count : Int} {bs : Bytes} :
    d.take type offset count = .ok bs ↔
      0 ≤ offset ∧ offset + count ≤ d.buffer.size ∧ d.between offset (offset + count) = bs := by
  unfold take
  split
  · rename_i outside
    simp only [reduceCtorEq, false_iff]
    omega
  · simp only [Except.ok.injEq]
    constructor
    · intro same
      exact ⟨by omega, by omega, same⟩
    · exact fun inside => inside.2.2

theorem takeOfHolds {type : ParamType} {position : Nat} {count : Int} {bs : Bytes}
    (holds : d.Holds position bs) (length : count = bs.length) :
    d.take type position count = .ok bs := by
  subst length
  have inside := holdsEnd holds
  exact takeOk.mpr ⟨by omega, by omega, betweenOfHolds holds⟩

theorem lengthTake {type : ParamType} {offset count : Int} {bs : Bytes} (nonneg : 0 ≤ count)
    (taken : d.take type offset count = .ok bs) : (bs.length : Int) = count := by
  obtain ⟨first, last, rfl⟩ := takeOk.mp taken
  obtain ⟨start, rfl⟩ := Int.eq_ofNat_of_zero_le first
  obtain ⟨width, rfl⟩ := Int.eq_ofNat_of_zero_le nonneg
  have cast : (start : Int) + width = ((start + width : Nat) : Int) := by omega
  rw [cast, lengthBetween (by omega)]
  omega

end WordAbi.Decoder
