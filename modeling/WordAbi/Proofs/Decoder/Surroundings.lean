import WordAbi.Proofs.Decoder.Failure
/-! Where a buffer sits. A buffer that is read as a part of a larger one, from the position it has there and
with the addresses counted from there, is read as the same tokens, as long as no type takes a negative number
of bytes: then no check reaches before the part, and every check that its end passes the larger end passes. -/
namespace WordAbi

namespace ParamType

mutual

/-- No string in the type is padded to a negative width, and no enum is narrower than its discriminant. -/
def isForward : ParamType → Bool
  | string length => 0 ≤ Word.paddedLength length
  | array element _ => isForward element
  | vector element => isForward element
  | tuple elements => allForward elements
  | struct fields _ _ _ => allForward fields
  | enum variants _ _ _ => 0 ≤ widest (staticSizes variants) && allForward variants
  | primitive _ => true
  | unspecified => true

def allForward : List ParamType → Bool
  | [] => true
  | type :: types => isForward type && allForward types

end

end ParamType

namespace Decoder
open Outcome

variable {outer inner : Decoder} {shift depth : Nat} {offset : Int}

structure Encloses (outer inner : Decoder) (shift : Nat) : Prop where
  holds : outer.Holds shift inner.buffer.toList
  base : outer.base = inner.base - shift
  maxDepth : outer.maxDepth = inner.maxDepth
  strictBool : outer.strictBool = inner.strictBool
  maxElements : outer.maxElements = inner.maxElements

theorem enclosedEnd (encloses : outer.Encloses inner shift) :
    inner.buffer.size + shift ≤ outer.buffer.size := by
  have inside := holdsEnd encloses.holds
  rw [Array.length_toList] at inside
  omega

theorem betweenEnclosed (encloses : outer.Encloses inner shift) {start stop : Int} (first : 0 ≤ start)
    (order : start ≤ stop) (last : stop ≤ inner.buffer.size) :
    outer.between (start + shift) (stop + shift) = inner.between start stop := by
  obtain ⟨start, rfl⟩ := Int.eq_ofNat_of_zero_le first
  obtain ⟨stop, rfl⟩ := Int.eq_ofNat_of_zero_le (Int.le_trans first order)
  have room := enclosedEnd encloses
  obtain ⟨before, after, parts, rfl⟩ := encloses.holds
  have inside : stop ≤ inner.buffer.toList.length := by
    rw [Array.length_toList]
    omega
  rw [betweenNat (by omega), ← Int.natCast_add, ← Int.natCast_add, betweenNat (by omega), parts,
    List.append_assoc, Nat.add_comm stop, Nat.add_comm start, List.take_length_add_append,
    List.drop_length_add_append, List.take_append_of_le_length inside]

theorem takeEnclosed (encloses : outer.Encloses inner shift) {type : ParamType} {count : Int} {bs : Bytes}
    (nonneg : 0 ≤ count) (taken : inner.take type offset count = .ok bs) :
    outer.take type (offset + shift) count = .ok bs := by
  obtain ⟨first, last, same⟩ := takeOk.mp taken
  have room := enclosedEnd encloses
  refine takeOk.mpr ⟨by omega, by omega, ?_⟩
  rw [← same, ← betweenEnclosed encloses first (by omega) last]
  congr 1
  omega

theorem takenEnclosed (encloses : outer.Encloses inner shift) {type : ParamType} {count : Int} {bs : Bytes}
    (taken : inner.take type offset count = .ok bs) :
    ∃ bs', outer.take type (offset + shift) count = .ok bs' := by
  obtain ⟨first, last, _⟩ := takeOk.mp taken
  have room := enclosedEnd encloses
  exact ⟨_, takeOk.mpr ⟨by omega, by omega, rfl⟩⟩

theorem checkDepthEnclosed (encloses : outer.Encloses inner shift) {type : ParamType} {u : Unit}
    (passed : inner.checkDepth depth type = .ok u) : outer.checkDepth depth type = .ok () :=
  checkDepthOk.mpr (encloses.maxDepth ▸ checkDepthOk.mp passed)

theorem checkCountEnclosed (encloses : outer.Encloses inner shift) {type element : ParamType}
    {start count : Int} {u : Unit} (passed : inner.checkCount type element start count = .ok u) :
    outer.checkCount type element (start + shift) count = .ok () :=
  checkCountOk.mpr (encloses.maxElements ▸ checkCountOk.mp passed)

theorem boolEnclosed (encloses : outer.Encloses inner shift) {word : Bytes} {token : Token}
    (read : inner.boolOf word offset = .ok token) : outer.boolOf word (offset + shift) = .ok token := by
  simp only [boolOf, encloses.strictBool] at read ⊢
  split at read
  · contradiction
  · rename_i accepted
    exact (if_neg accepted).trans read

theorem readPrimitiveEnclosed (encloses : outer.Encloses inner shift) {p : Primitive} {token : Token}
    {next : Int} (read : inner.readPrimitive p offset = .ok (token, next)) :
    outer.readPrimitive p (offset + shift) = .ok (token, next + shift) := by
  have after (count : Int) : offset + shift + count = offset + count + shift := by omega
  cases p with
  | bool =>
    obtain ⟨word, taken, read⟩ := bindOk.mp read
    obtain ⟨_, truth, last⟩ := bindOk.mp read
    cases last
    exact bindOk.mpr ⟨word, takeEnclosed encloses (by decide) taken,
      bindOk.mpr ⟨token, boolEnclosed encloses truth, by rw [after]⟩⟩
  | _ =>
    obtain ⟨word, taken, last⟩ := bindOk.mp read
    cases last
    exact bindOk.mpr ⟨word, takeEnclosed encloses (by decide) taken, by rw [after]⟩

theorem readStringEnclosed (encloses : outer.Encloses inner shift) {length : Int}
    (forward : 0 ≤ Word.paddedLength length) {token : Token} {next : Int}
    (read : inner.readString length offset = .ok (token, next)) :
    outer.readString length (offset + shift) = .ok (token, next + shift) := by
  obtain ⟨padded, taken, read⟩ := bindOk.mp read
  refine bindOk.mpr ⟨padded, takeEnclosed encloses forward taken, ?_⟩
  dsimp only at read ⊢
  split at read
  · rename_i low
    cases read
    rw [if_pos low, Int.add_right_comm]
  · contradiction

theorem readVectorHeadEnclosed (encloses : outer.Encloses inner shift) {element : ParamType}
    {position : Int} {count : Nat} (head : inner.readVectorHead element offset = .ok (position, count)) :
    outer.readVectorHead element (offset + shift) = .ok (position + shift, count) := by
  have room := enclosedEnd encloses
  obtain ⟨words, taken, head⟩ := bindOk.mp head
  dsimp only at head
  obtain ⟨_, few, head⟩ := bindOk.mp head
  obtain ⟨size, sized, head⟩ := bindOk.mp head
  refine bindOk.mpr ⟨words, takeEnclosed encloses (by decide) taken, ?_⟩
  dsimp only
  refine bindOk.mpr ⟨(), checkCountEnclosed encloses few, bindOk.mpr ⟨size, sized, ?_⟩⟩
  split at head
  · contradiction
  · cases head
    -- the pointer leads as much further into the larger buffer as its base is lower
    have moved : (Word.read words 0 : Int) - outer.base = Word.read words 0 - inner.base + shift := by
      rw [encloses.base]
      omega
    rw [moved, if_neg (by omega)]

theorem repeatEnclosed {element : ParamType}
    (each : ∀ {start next : Int} {token : Token}, inner.readAt depth start element = .ok (token, next) →
      outer.readAt depth (start + shift) element = .ok (token, next + shift))
    {count : Nat} {before items : List Token} {next : Int}
    (done : repeatFrom (fun start => inner.readAt depth start element) count before offset =
      .ok (items, next)) :
    repeatFrom (fun start => outer.readAt depth start element) count before (offset + shift) =
      .ok (items, next + shift) := by
  induction count generalizing before offset with
  | zero =>
    cases done
    rfl
  | succ count ih =>
    rw [repeatFrom] at done ⊢
    split at done
    · contradiction
    · rename_i token last found
      rw [each found]
      exact ih done

theorem discriminantEnclosed (encloses : outer.Encloses inner shift) {type : ParamType} {width : Int}
    {bs : Bytes} (wide : 8 ≤ width) (taken : inner.take type offset width = .ok bs) :
    outer.between (offset + shift) (offset + shift + 8) = inner.between offset (offset + 8) := by
  obtain ⟨first, last, _⟩ := takeOk.mp taken
  rw [← betweenEnclosed encloses first (by omega) (by omega), Int.add_right_comm]

mutual

theorem readAtEnclosed (encloses : outer.Encloses inner shift) : (type : ParamType) →
    type.isForward = true → ∀ {depth : Nat} {offset next : Int} {token : Token},
    inner.readAt depth offset type = .ok (token, next) →
    outer.readAt depth (offset + shift) type = .ok (token, next + shift)
  | .primitive _, _, _, _, _, _, read => by
    rw [readAt, bindOk] at read ⊢
    obtain ⟨_, here, read⟩ := read
    exact ⟨(), checkDepthEnclosed encloses here, readPrimitiveEnclosed encloses read⟩
  | .string _, forward, _, _, _, _, read => by
    rw [readAt, bindOk] at read ⊢
    obtain ⟨_, here, read⟩ := read
    exact ⟨(), checkDepthEnclosed encloses here,
      readStringEnclosed encloses (by simpa [ParamType.isForward] using forward) read⟩
  | .array element length, forward, _, _, _, _, read => by
    rw [readAt, bindOk] at read ⊢
    obtain ⟨_, here, read⟩ := read
    obtain ⟨size, sized, read⟩ := bindOk.mp read
    obtain ⟨_, taken, read⟩ := bindOk.mp read
    obtain ⟨_, few, read⟩ := bindOk.mp read
    obtain ⟨⟨items, _⟩, done, last⟩ := bindOk.mp read
    cases last
    obtain ⟨bytes, taken⟩ := takenEnclosed encloses taken
    refine ⟨(), checkDepthEnclosed encloses here, bindOk.mpr ⟨size, sized, ?_⟩⟩
    refine bindOk.mpr ⟨bytes, taken, bindOk.mpr ⟨(), checkCountEnclosed encloses few, ?_⟩⟩
    exact bindOk.mpr ⟨_, repeatEnclosed (readAtEnclosed encloses element forward) done, rfl⟩
  | .vector element, forward, _, _, _, _, read => by
    rw [readAt, bindOk] at read ⊢
    obtain ⟨_, here, read⟩ := read
    obtain ⟨⟨position, count⟩, head, read⟩ := bindOk.mp read
    obtain ⟨⟨items, _⟩, done, last⟩ := bindOk.mp read
    cases last
    have done := repeatEnclosed (readAtEnclosed encloses element forward) done
    refine ⟨(), checkDepthEnclosed encloses here, bindOk.mpr ⟨_, readVectorHeadEnclosed encloses head, ?_⟩⟩
    exact bindOk.mpr ⟨_, done, by rw [Int.add_right_comm]⟩
  | .tuple elements, forward, _, _, _, _, read => by
    rw [readAt, bindOk] at read ⊢
    obtain ⟨_, here, read⟩ := read
    obtain ⟨⟨items, _⟩, all, last⟩ := bindOk.mp read
    cases last
    exact ⟨(), checkDepthEnclosed encloses here,
      bindOk.mpr ⟨_, readAllAtEnclosed encloses elements forward all, rfl⟩⟩
  | .struct fields _ _ _, forward, _, _, _, _, read => by
    rw [readAt, bindOk] at read ⊢
    obtain ⟨_, here, read⟩ := read
    obtain ⟨⟨items, _⟩, all, last⟩ := bindOk.mp read
    cases last
    exact ⟨(), checkDepthEnclosed encloses here,
      bindOk.mpr ⟨_, readAllAtEnclosed encloses fields forward all, rfl⟩⟩
  | .enum variants generics name names, forward, _, _, _, _, read => by
    simp only [ParamType.isForward, Bool.and_eq_true, decide_eq_true_eq] at forward
    rw [readAt, bindOk] at read ⊢
    obtain ⟨_, here, read⟩ := read
    obtain ⟨width, size, read⟩ := bindOk.mp read
    obtain ⟨_, taken, read⟩ := bindOk.mp read
    dsimp only at read
    obtain ⟨payload, found, read⟩ := bindOk.mp read
    have wide : 8 ≤ width := by
      rw [(ParamType.sizeOk.mp size).2, ParamType.staticSize]
      omega
    have found := readVariantAtEnclosed encloses variants forward.2 found
    rw [Int.add_right_comm] at found
    refine ⟨(), checkDepthEnclosed encloses here, bindOk.mpr ⟨width, size, ?_⟩⟩
    refine bindOk.mpr ⟨_, takeEnclosed encloses (by omega) taken, ?_⟩
    dsimp only
    rw [discriminantEnclosed encloses wide taken]
    refine bindOk.mpr ⟨_, found, ?_⟩
    split at read
    · cases read
      simp only [Option.map_some]
      rw [Int.add_right_comm]
    · contradiction
  | .unspecified, _, _, _, _, _, read => by
    rw [readAt, bindOk] at read
    obtain ⟨_, _, read⟩ := read
    contradiction

theorem readAllAtEnclosed (encloses : outer.Encloses inner shift) : (types : List ParamType) →
    ParamType.allForward types = true → ∀ {depth : Nat} {offset next : Int} {tokens : List Token},
    inner.readAllAt depth offset types = .ok (tokens, next) →
    outer.readAllAt depth (offset + shift) types = .ok (tokens, next + shift)
  | [], _, _, _, _, _, read => by
    cases read
    rfl
  | type :: types, forward, _, _, _, _, read => by
    simp only [ParamType.allForward, Bool.and_eq_true] at forward
    rw [readAllAt, bindOk] at read ⊢
    obtain ⟨⟨token, _⟩, first, read⟩ := read
    obtain ⟨⟨tokens, _⟩, rest, last⟩ := bindOk.mp read
    cases last
    exact ⟨_, readAtEnclosed encloses type forward.1 first,
      bindOk.mpr ⟨_, readAllAtEnclosed encloses types forward.2 rest, rfl⟩⟩

theorem readVariantAtEnclosed (encloses : outer.Encloses inner shift) : (types : List ParamType) →
    ParamType.allForward types = true → ∀ {depth : Nat} {offset : Int} {index : Nat}
    {found : Option (Token × Int)}, inner.readVariantAt depth offset index types = .ok found →
    outer.readVariantAt depth (offset + shift) index types =
      .ok (found.map fun read => (read.1, read.2 + shift))
  | [], _, _, _, index, _, read => by
    cases index <;> cases read <;> rfl
  | type :: _, forward, _, _, 0, _, read => by
    simp only [ParamType.allForward, Bool.and_eq_true] at forward
    obtain ⟨⟨token, next⟩, first, rfl⟩ := mapOk.mp read
    exact mapOk.mpr ⟨_, readAtEnclosed encloses type forward.1 first, rfl⟩
  | _ :: types, forward, _, _, index + 1, _, read => by
    simp only [ParamType.allForward, Bool.and_eq_true] at forward
    exact readVariantAtEnclosed encloses types forward.2 read

end

end Decoder

/-- Bytes that are decoded by types which take no negative number of bytes are decoded as the same tokens
from among any other bytes, from the offset they have there and with the base as much lower, as long as all
of the bytes are within the payload limit. -/
theorem decodeAmong (settings : Settings) (limit : Int) (strict : Bool) {types : List ParamType}
    {data : Bytes} {base : Int} {tokens : List Token} (before after : Bytes)
    (forward : ParamType.allForward types = true)
    (decoded : decodeWithin settings limit strict types data base = .ok tokens)
    (short : (before ++ data ++ after).length ≤ settings.maxPayload) :
    (do let decoder ← Decoder.make settings (before ++ data ++ after) (base - before.length)
        (decoder.limited limit strict).read types before.length) = .ok tokens := by
  obtain ⟨_, next, read⟩ := Decoder.decodeWithinOk.mp decoded
  let inner : Decoder := ⟨data.toArray, base, limit, strict, settings.maxPayload⟩
  let outer : Decoder :=
    ⟨(before ++ data ++ after).toArray, base - before.length, limit, strict, settings.maxPayload⟩
  have encloses : outer.Encloses inner before.length :=
    ⟨⟨before, after, by simp [outer, inner], rfl⟩, rfl, rfl, rfl, rfl⟩
  have among := Decoder.readAllAtEnclosed encloses types forward read
  rw [Int.zero_add] at among
  exact Outcome.bindOk.mpr ⟨_, Decoder.makeOk.mpr ⟨short, rfl⟩, Outcome.mapOk.mpr ⟨_, among, rfl⟩⟩

theorem decodeAmongNested :
    let variants : List ParamType := [.primitive .bool, .vector (.string 3)]
    let types : List ParamType := [.vector (.enum variants [] "Choice" ["flag", "texts"])]
    let data := Word.bytes 124 ++ Word.bytes 7 ++ Word.bytes 1
      ++ Word.bytes 1 ++ Word.bytes 156 ++ Word.bytes 9 ++ Word.bytes 1 ++ Bytes.ofAscii "abc-----"
    let before : Bytes := [1, 2, 3]
    let after := Word.bytes 9
    let tokens : List Token := [.sequence .vector
      [.enum 1 (.sequence .vector [.string "abc" 3]) ⟨variants, ["flag", "texts"]⟩]]
    ParamType.allForward types = true ∧
      decodeWithin (Settings.ofEnvironment fun _ => none) 3 true types data 100 = .ok tokens ∧
      (before ++ data ++ after).length ≤ (Settings.ofEnvironment fun _ => none).maxPayload ∧
      (do let decoder ← Decoder.make (Settings.ofEnvironment fun _ => none) (before ++ data ++ after)
            (100 - before.length)
          (decoder.limited 3 true).read types before.length) = .ok tokens := by
  intro variants types data before after tokens
  have forward : ParamType.allForward types = true := rfl
  have decoded : decodeWithin (Settings.ofEnvironment fun _ => none) 3 true types data 100 = .ok tokens := by
    dsimp only [variants, types, data, tokens]
    rfl
  have short : (before ++ data ++ after).length ≤ (Settings.ofEnvironment fun _ => none).maxPayload := by
    decide
  exact ⟨forward, decoded, short, decodeAmong _ 3 true before after forward decoded short⟩

theorem negativeWidthSeesSurroundings :
    let settings := Settings.ofEnvironment fun _ => none
    let among (types : List ParamType) (before data after : Bytes) : Except Fault (List Token) := do
      let decoder ← Decoder.make settings (before ++ data ++ after) (0 - before.length)
      (decoder.limited 64 true).read types before.length
    let text := List.replicate 40 (65 : UInt8)
    let narrow : List ParamType := [.array (.primitive .u64) (-1)]
    decodeWithin settings 64 true [.string (-20)] text 0 = .ok [.string "AAAA" (-20)] ∧
      among [.string (-20)] (Bytes.zeros 16) text [] = .ok [.string "" (-20)] ∧
      decodeWithin settings 64 true [.enum narrow [] "" []] [] 0 =
        .ok [.enum 0 (.sequence .array []) ⟨narrow, []⟩] ∧
      among [.enum narrow [] "" []] [] [] (Word.bytes 1) =
        .error (.invalidData (.noVariantAt 1 1 (some (.enum narrow [] "" [], 0)))) :=
  ⟨rfl, rfl, rfl, rfl⟩

end WordAbi
