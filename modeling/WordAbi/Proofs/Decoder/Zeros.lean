import WordAbi.Log
import WordAbi.Proofs.Decoder.Payload
import WordAbi.Proofs.ParamType.Height
/-! Values of zero bytes. Words of zeros pass every check of a decoder, so that where nothing was returned the zero of
the type is read: nothing in it is missing, and every vector in it is empty. -/
namespace WordAbi

namespace ParamType

mutual

def zero : ParamType → Token
  | primitive .unit => .unit
  | primitive .bool => .bool false
  | primitive .b256 => .b256 (Bytes.zeros 32)
  | primitive p => .number p 0
  | string length => .string (String.ofList (List.replicate length.toNat (Char.ofNat 0))) length
  | array element length => .sequence .array (List.replicate length.toNat (zero element))
  | vector _ => .sequence .vector []
  | tuple elements => .sequence .tuple (zeros elements)
  | struct fields _ _ _ => .sequence .struct (zeros fields)
  | enum variants _ _ names => .enum 0 (firstZero variants) ⟨variants, names⟩
  | unspecified => .foreign .null

def zeros : List ParamType → List Token
  | [] => []
  | type :: types => zero type :: zeros types

def firstZero : List ParamType → Token
  | [] => .foreign .null
  | type :: _ => zero type

end

mutual

/-- Every type that the zero value has a part of is specified, an enum has a variant, a string and an array take no
negative number of bytes, and an array has at most so many elements without bytes. -/
def isZeroable (limit : Nat) : ParamType → Bool
  | primitive _ => true
  | string length => 0 ≤ Word.paddedLength length
  | array element length => 0 ≤ length * element.staticSize && (element.staticSize ≠ 0 || length ≤ limit) &&
      isZeroable limit element
  | vector element => element.hasSize
  | tuple elements => allZeroable limit elements
  | struct fields _ _ _ => allZeroable limit fields
  | enum variants _ _ _ => firstZeroable limit variants
  | unspecified => false

def allZeroable (limit : Nat) : List ParamType → Bool
  | [] => true
  | type :: types => isZeroable limit type && allZeroable limit types

def firstZeroable (limit : Nat) : List ParamType → Bool
  | [] => false
  | type :: types => isZeroable limit type && allHaveSize types

end

variable {limit : Nat}

mutual

theorem hasSizeOfZeroable : (type : ParamType) → type.isZeroable limit = true → type.hasSize = true
  | primitive _, _ => rfl
  | string _, _ => rfl
  | array element _, zeroable => by
    simp only [isZeroable, Bool.and_eq_true] at zeroable
    exact hasSizeOfZeroable element zeroable.2
  | vector _, _ => rfl
  | tuple elements, zeroable => allHaveSizeOfZeroable elements zeroable
  | struct fields _ _ _, zeroable => allHaveSizeOfZeroable fields zeroable
  | enum variants _ _ _, zeroable => by
    cases variants with
    | nil => cases zeroable
    | cons type types =>
      simp only [isZeroable, firstZeroable, Bool.and_eq_true] at zeroable
      simp [hasSize, allHaveSize, hasSizeOfZeroable type zeroable.1, zeroable.2]

theorem allHaveSizeOfZeroable : (types : List ParamType) → allZeroable limit types = true →
    allHaveSize types = true
  | [], _ => rfl
  | type :: types, zeroable => by
    simp only [allZeroable, Bool.and_eq_true] at zeroable
    simp [allHaveSize, hasSizeOfZeroable type zeroable.1, allHaveSizeOfZeroable types zeroable.2]

end

mutual

theorem nonnegOfZeroable : (type : ParamType) → type.isZeroable limit = true → 0 ≤ type.staticSize
  | primitive p, _ => by cases p <;> decide
  | string _, zeroable => by
    simp only [isZeroable, decide_eq_true_eq] at zeroable
    exact zeroable
  | array _ _, zeroable => by
    simp only [isZeroable, Bool.and_eq_true, decide_eq_true_eq] at zeroable
    exact zeroable.1.1
  | vector _, _ => by simp [staticSize, vectorHead]
  | tuple elements, zeroable => totalNonnegOfZeroable elements zeroable
  | struct fields _ _ _, zeroable => totalNonnegOfZeroable fields zeroable
  | enum variants _ _ _, zeroable => by
    cases variants with
    | nil => cases zeroable
    | cons type types =>
      simp only [isZeroable, firstZeroable, Bool.and_eq_true] at zeroable
      have first := nonnegOfZeroable type zeroable.1
      have widest := leWidest (memStaticSizes (List.mem_cons_self (a := type) (l := types)))
      simp only [staticSize]
      omega

theorem totalNonnegOfZeroable : (types : List ParamType) → allZeroable limit types = true →
    0 ≤ total (staticSizes types)
  | [], _ => Int.le_refl 0
  | type :: types, zeroable => by
    simp only [allZeroable, Bool.and_eq_true] at zeroable
    exact Int.add_nonneg (nonnegOfZeroable type zeroable.1) (totalNonnegOfZeroable types zeroable.2)

end

end ParamType

namespace Decoder
open Outcome

variable {d : Decoder} {depth : Nat} {offset : Int}

structure Blank (d : Decoder) : Prop where
  base : d.base = 0
  buffer : ∀ byte ∈ d.buffer.toList, byte = 0

theorem betweenBlank (blank : d.Blank) {count : Int} (first : 0 ≤ offset) (nonneg : 0 ≤ count)
    (inside : offset + count ≤ d.buffer.size) : d.between offset (offset + count) = Bytes.zeros count.toNat := by
  obtain ⟨start, rfl⟩ := Int.eq_ofNat_of_zero_le first
  obtain ⟨count, rfl⟩ := Int.eq_ofNat_of_zero_le nonneg
  have cast : (start : Int) + count = ((start + count : Nat) : Int) := by omega
  rw [cast, betweenNat (by omega), Bytes.zeros, List.eq_replicate_iff]
  refine ⟨by simp; omega, fun byte member => ?_⟩
  exact blank.buffer byte (List.mem_of_mem_take (List.mem_of_mem_drop member))

theorem takeBlank (blank : d.Blank) (type : ParamType) {count : Int} (first : 0 ≤ offset) (nonneg : 0 ≤ count)
    (inside : offset + count ≤ d.buffer.size) : d.take type offset count = .ok (Bytes.zeros count.toNat) :=
  takeOk.mpr ⟨first, inside, betweenBlank blank first nonneg inside⟩

theorem primitiveBlank (blank : d.Blank) (p : Primitive) (first : 0 ≤ offset)
    (inside : offset + p.size ≤ d.buffer.size) :
    d.readPrimitive p offset = .ok (ParamType.zero (.primitive p), offset + p.size) := by
  cases p with
  | bool =>
    refine bindOk.mpr ⟨_, takeBlank blank _ first (by decide) inside, bindOk.mpr ⟨.bool false, ?_, rfl⟩⟩
    exact if_neg fun refused => absurd refused.2 (by decide)
  | _ => exact bindOk.mpr ⟨_, takeBlank blank _ first (by decide) inside, rfl⟩

theorem betweenZeros {count : Nat} {length : Int} (fits : length ≤ count) (none : length < 0 → count = 0) :
    (Bytes.zeros count).between 0 length = Bytes.zeros length.toNat := by
  rcases Int.lt_or_le length 0 with negative | nonneg
  · rw [none negative, Int.toNat_of_nonpos (by omega)]
    simp [Bytes.between, Bytes.zeros]
  · obtain ⟨length, rfl⟩ := Int.eq_ofNat_of_zero_le nonneg
    rw [betweenWhole, Bytes.zeros, List.take_replicate, Nat.min_eq_left (by omega)]
    rfl

theorem stringBlank (blank : d.Blank) {length : Int} (first : 0 ≤ offset) (nonneg : 0 ≤ Word.paddedLength length)
    (inside : offset + Word.paddedLength length ≤ d.buffer.size) :
    d.readString length offset =
      .ok (ParamType.zero (.string length), offset + (ParamType.string length).staticSize) := by
  have long := Word.lePaddedLength length
  have whole := Word.paddedLengthDvd length
  have short := Word.paddedLengthLt length
  refine bindOk.mpr ⟨_, takeBlank blank _ first nonneg inside, ?_⟩
  dsimp only [ParamType.staticSize]
  rw [betweenZeros (by omega) (by omega)]
  have ascii : (Bytes.zeros length.toNat).all (· < 0x80) = true := by
    simp [Bytes.zeros, List.all_replicate]
  rw [if_pos ascii]
  simp [ParamType.zero, Bytes.toText, Bytes.zeros]

theorem repeatWithin {read : Int → Except Fault (Token × Int)} {token : Token} {width stop : Int}
    (nonneg : 0 ≤ width)
    (reads : ∀ start, 0 ≤ start → start + width ≤ stop → read start = .ok (token, start + width))
    {count : Nat} (first : 0 ≤ offset) (inside : offset + count * width ≤ stop) :
    repeatFrom read count [] offset = .ok (List.replicate count token, offset + count * width) := by
  refine repeatAlong width count [] offset fun place less => reads _ ?_ ?_
  · exact Int.add_nonneg first (Int.mul_nonneg (Int.natCast_nonneg place) nonneg)
  · have room : ((place + 1 : Nat) : Int) * width ≤ count * width :=
      Int.mul_le_mul_of_nonneg_right (Int.ofNat_le.mpr less) nonneg
    rw [Int.natCast_add, Int.add_mul] at room
    omega

theorem vectorHeadBlank (blank : d.Blank) {element : ParamType} (sized : element.hasSize = true)
    (first : 0 ≤ offset) (inside : offset + 24 ≤ d.buffer.size) : d.readVectorHead element offset = .ok (0, 0) := by
  refine bindOk.mpr ⟨_, takeBlank blank _ first (by decide) inside, ?_⟩
  have none : Word.read (Bytes.zeros (24 : Int).toNat) 0 = 0 := by decide
  have empty : Word.read (Bytes.zeros (24 : Int).toNat) 16 = 0 := by decide
  simp only [none, empty, blank.base]
  refine bindOk.mpr ⟨(), checkCountOk.mpr ⟨sized, fun _ => Int.natCast_nonneg _⟩, ?_⟩
  refine bindOk.mpr ⟨_, ParamType.sizeOk.mpr ⟨sized, rfl⟩, ?_⟩
  simp

theorem toNatMul {length size : Int} (nonneg : 0 ≤ size) (total : 0 ≤ length * size) :
    (length.toNat : Int) * size = length * size := by
  rcases Int.lt_or_le length 0 with negative | whole
  · have none : length * size = 0 :=
      Int.le_antisymm (Int.mul_nonpos_of_nonpos_of_nonneg (Int.le_of_lt negative) nonneg) total
    rw [none, Int.toNat_of_nonpos (Int.le_of_lt negative), Int.natCast_zero, Int.zero_mul]
  · rw [Int.toNat_of_nonneg whole]

mutual

theorem readAtBlank (blank : d.Blank) : (type : ParamType) → ∀ {depth : Nat} {offset : Int},
    type.isZeroable d.maxElements = true → (depth + type.height : Int) ≤ d.maxDepth → 0 ≤ offset →
    offset + type.staticSize ≤ d.buffer.size →
    d.readAt depth offset type = .ok (type.zero, offset + type.staticSize)
  | .primitive p, depth, offset, _, nested, first, inside => by
    rw [readAt]
    exact bindOk.mpr ⟨(), checkDepthOk.mpr (by omega), primitiveBlank blank p first inside⟩
  | .string length, depth, offset, zeroable, nested, first, inside => by
    simp only [ParamType.isZeroable, decide_eq_true_eq] at zeroable
    rw [readAt]
    exact bindOk.mpr ⟨(), checkDepthOk.mpr (by omega), stringBlank blank first zeroable inside⟩
  | .array element length, depth, offset, zeroable, nested, first, inside => by
    have sized := ParamType.hasSizeOfZeroable _ zeroable
    simp only [ParamType.isZeroable, Bool.and_eq_true, Bool.or_eq_true, decide_eq_true_eq] at zeroable
    obtain ⟨⟨whole, few⟩, zeroable⟩ := zeroable
    have nonneg := ParamType.nonnegOfZeroable element zeroable
    rw [ParamType.height] at nested
    rw [ParamType.staticSize] at inside ⊢
    have reads : ∀ start, 0 ≤ start → start + element.staticSize ≤ d.buffer.size →
        d.readAt (depth + 1) start element = .ok (element.zero, start + element.staticSize) :=
      fun start begins room => readAtBlank blank element zeroable (by omega) begins room
    rw [readAt]
    refine bindOk.mpr ⟨(), checkDepthOk.mpr (by omega), ?_⟩
    refine bindOk.mpr ⟨_, ParamType.sizeOk.mpr ⟨sized, rfl⟩, ?_⟩
    refine bindOk.mpr ⟨_, takeBlank blank _ first whole inside, ?_⟩
    refine bindOk.mpr ⟨(), checkCountOk.mpr ⟨ParamType.hasSizeOfZeroable element zeroable, by tauto⟩, ?_⟩
    have same := toNatMul nonneg whole
    refine bindOk.mpr ⟨_, repeatWithin nonneg reads first (by omega), ?_⟩
    rw [same]
    rfl
  | .vector element, depth, offset, zeroable, nested, first, inside => by
    rw [readAt]
    refine bindOk.mpr ⟨(), checkDepthOk.mpr (by omega), ?_⟩
    exact bindOk.mpr ⟨_, vectorHeadBlank blank zeroable first inside, rfl⟩
  | .tuple elements, depth, offset, zeroable, nested, first, inside => by
    rw [readAt]
    refine bindOk.mpr ⟨(), checkDepthOk.mpr (by omega), ?_⟩
    exact bindOk.mpr ⟨_, readAllAtBlank blank elements zeroable nested first inside, rfl⟩
  | .struct fields _ _ _, depth, offset, zeroable, nested, first, inside => by
    rw [readAt]
    refine bindOk.mpr ⟨(), checkDepthOk.mpr (by omega), ?_⟩
    exact bindOk.mpr ⟨_, readAllAtBlank blank fields zeroable nested first inside, rfl⟩
  | .enum variants _ _ _, depth, offset, zeroable, nested, first, inside => by
    have sized := ParamType.hasSizeOfZeroable _ zeroable
    have whole := ParamType.nonnegOfZeroable _ zeroable
    cases variants with
    | nil => cases zeroable
    | cons type types =>
      simp only [ParamType.isZeroable, ParamType.firstZeroable, Bool.and_eq_true] at zeroable
      have nonneg := ParamType.nonnegOfZeroable type zeroable.1
      have widest := ParamType.leWidest (ParamType.memStaticSizes (List.mem_cons_self (a := type) (l := types)))
      have deep : (depth + 1 : Nat) + (type.height : Int) ≤ d.maxDepth := by
        rw [ParamType.height, ParamType.heights] at nested
        omega
      rw [ParamType.staticSize] at inside whole ⊢
      rw [readAt]
      refine bindOk.mpr ⟨(), checkDepthOk.mpr (by omega), ?_⟩
      refine bindOk.mpr ⟨_, ParamType.sizeOk.mpr ⟨sized, rfl⟩, ?_⟩
      refine bindOk.mpr ⟨_, takeBlank blank _ first whole inside, ?_⟩
      have selects : (d.between offset (offset + 8)).toNat = 0 := by
        rw [betweenBlank blank first (by decide) (by omega)]
        decide
      have room : offset + 8 + type.staticSize ≤ d.buffer.size := by omega
      have payload := readAtBlank blank type zeroable.1 deep (by omega) room
      rw [selects]
      refine bindOk.mpr ⟨_, mapOk.mpr ⟨_, payload, rfl⟩, rfl⟩

theorem readAllAtBlank (blank : d.Blank) : (types : List ParamType) → ∀ {depth : Nat} {offset : Int},
    ParamType.allZeroable d.maxElements types = true → (depth + ParamType.heights types : Int) ≤ d.maxDepth →
    0 ≤ offset → offset + ParamType.total (ParamType.staticSizes types) ≤ d.buffer.size →
    d.readAllAt (depth + 1) offset types =
      .ok (ParamType.zeros types, offset + ParamType.total (ParamType.staticSizes types))
  | [], depth, offset, _, _, _, _ => by simp [readAllAt, ParamType.zeros, ParamType.total, ParamType.staticSizes]
  | type :: types, depth, offset, zeroable, nested, first, inside => by
    simp only [ParamType.allZeroable, Bool.and_eq_true] at zeroable
    have nonneg := ParamType.nonnegOfZeroable type zeroable.1
    have others := ParamType.totalNonnegOfZeroable types zeroable.2
    rw [ParamType.heights] at nested
    rw [ParamType.staticSizes, ParamType.total] at inside ⊢
    rw [readAllAt]
    refine bindOk.mpr ⟨_, readAtBlank blank type zeroable.1 (by omega) first (by omega), ?_⟩
    refine bindOk.mpr ⟨_, readAllAtBlank blank types zeroable.2 (by omega) (by omega) (by omega), ?_⟩
    rw [Int.add_assoc]
    rfl

end

end Decoder

open Outcome

variable {settings : Settings} {type : ParamType} {receipts : List Receipt}

theorem ParamType.zeroBytesOk {limit : Nat} (sized : type.hasSize = true) (nonneg : 0 ≤ type.staticSize)
    (small : type.staticSize ≤ limit) : type.zeroBytes limit = .ok (Bytes.zeros type.staticSize.toNat) := by
  refine bindOk.mpr ⟨_, sizeOk.mpr ⟨sized, rfl⟩, ?_⟩
  rw [if_neg (by omega), if_neg (by omega)]

/-- Where no receipt is a return, the zero of the type is returned. -/
theorem decodeReturnAbsent (absent : ∀ receipt ∈ receipts, receipt.isReturn = false)
    (zeroable : type.isZeroable settings.maxPayload = true) (nested : (type.height : Int) ≤ settings.maxDepth)
    (small : type.staticSize ≤ settings.maxPayload) : decodeReturn settings receipts type = .ok type.zero := by
  have nonneg := type.nonnegOfZeroable zeroable
  have none : receipts.find? (·.isReturn) = none := by
    rw [List.find?_eq_none]
    intro receipt member
    rw [absent receipt member]
    decide
  have long : (Bytes.zeros type.staticSize.toNat).length = type.staticSize := by
    rw [Bytes.lengthZeros, Int.toNat_of_nonneg nonneg]
  have room : 0 + type.staticSize ≤ ((Bytes.zeros type.staticSize.toNat).toArray.size : Int) := by
    rw [List.size_toArray]
    omega
  have levels : ((0 : Nat) + type.height : Int) ≤ settings.maxDepth := by omega
  unfold decodeReturn
  rw [none]
  refine bindOk.mpr ⟨_, type.zeroBytesOk (type.hasSizeOfZeroable zeroable) nonneg small, ?_⟩
  refine decodeSingleOk.mpr ⟨by omega, _, Decoder.readAtBlank ⟨rfl, ?_⟩ type zeroable levels (Int.le_refl 0) room⟩
  intro byte member
  exact List.eq_of_mem_replicate member

theorem decodeReturnAbsentStruct :
    let variants : List ParamType := [.tuple [.primitive .b256, .string 3], .vector (.primitive .u8)]
    let type : ParamType :=
      .struct [.array (.primitive .bool) 2, .vector (.primitive .u64), .enum variants [] "Choice" []] [] "Pair" []
    (∀ receipt ∈ [Receipt.log 7 9], receipt.isReturn = false) ∧
      type.isZeroable Settings.default.maxPayload = true ∧ (type.height : Int) ≤ Settings.default.maxDepth ∧
      type.staticSize ≤ Settings.default.maxPayload ∧
      decodeReturn .default [.log 7 9] type = .ok (.sequence .struct [.sequence .array [.bool false, .bool false],
        .sequence .vector [],
        .enum 0 (.sequence .tuple [.b256 (Bytes.zeros 32), .string "\x00\x00\x00" 3]) ⟨variants, []⟩]) := by
  intro variants type
  have absent : ∀ receipt ∈ [Receipt.log 7 9], receipt.isReturn = false := by simp [Receipt.isReturn]
  exact ⟨absent, by decide, by decide, by decide,
    decodeReturnAbsent absent (by decide) (by decide) (by decide)⟩

theorem negativeLengthUnreturned :
    let array : ParamType := .array (.primitive .u64) (-1)
    let types : List ParamType := [.string (-8), array, .tuple [array, .primitive .u64]]
    (∀ type ∈ types, (type.height : Int) ≤ Settings.default.maxDepth ∧
      type.staticSize ≤ Settings.default.maxPayload) ∧
    decodeReturn .default [] (.string (-8)) = .error (.misuse .badValue) ∧
    decodeReturn .default [] array = .error (.misuse .badValue) ∧
    decodeReturn .default [] (.tuple [array, .primitive .u64]) =
      .error (.invalidData (.shortBuffer (.primitive .u64) 8 0 0)) := by
  exact ⟨by decide, rfl, rfl, rfl⟩

end WordAbi
