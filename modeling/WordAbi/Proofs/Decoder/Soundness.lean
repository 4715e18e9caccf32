import WordAbi.Proofs.Decoder.Inversion
/-! What a decoder gives. Whatever the bytes are, tokens that are read by a type without negative lengths
are values of it, nested within the decoder's limit and as sparse as it asks for; so they can be encoded
again, and their own encoding is decoded as the same tokens. -/
namespace WordAbi

namespace ParamType

mutual

def isCounted : ParamType → Bool
  | string length => 0 ≤ length
  | array element length => 0 ≤ length && isCounted element
  | vector element => isCounted element
  | tuple elements => allCounted elements
  | struct fields _ _ _ => allCounted fields
  | enum variants _ _ _ => allCounted variants
  | primitive _ => true
  | unspecified => true

def allCounted : List ParamType → Bool
  | [] => true
  | type :: types => isCounted type && allCounted types

end

end ParamType

namespace Decoder
open Outcome Token

variable {d : Decoder} {depth : Nat}

structure Decoded (d : Decoder) (depth : Nat) (type : ParamType) (token : Token) : Prop where
  value : IsValue type token
  sparse : Sparse d.maxElements type token
  within : (depth + token.depth : Int) ≤ d.maxDepth

structure AllDecoded (d : Decoder) (depth : Nat) (types : List ParamType) (tokens : List Token) : Prop where
  values : AreValues types tokens
  sparse : AllSparse d.maxElements types tokens
  within : Within d.maxDepth depth tokens

theorem decodedChain {element : ParamType} {items : List Token} {start next : Int}
    (chain : Chain (fun first => d.readAt depth first element) start items next)
    (each : ∀ {first last : Int} {item : Token}, d.readAt depth first element = .ok (item, last) →
      d.Decoded depth element item) : ∀ item ∈ items, d.Decoded depth element item := by
  intro item member
  obtain ⟨_, _, found⟩ := readOfChain chain item member
  exact each found

theorem lowBytesLt {word : Bytes} {width : Nat} (length : word.length = 8) (narrow : width ≤ 8) :
    Bytes.toNat (word.drop (8 - width)) < Bytes.capacity width := by
  have small := Bytes.toNatLt (word.drop (8 - width))
  rw [List.length_drop, length] at small
  rwa [show 8 - (8 - width) = width by omega] at small

theorem decodedPrimitive {p : Primitive} {token : Token} {start next : Int}
    (read : d.readAt depth start (.primitive p) = .ok (token, next)) :
    d.Decoded depth (.primitive p) token := by
  obtain ⟨within, read⟩ := primitiveRead read
  suffices value : IsScalarValue p token by
    obtain ⟨payload, rfl⟩ := scalarOfValue value
    exact ⟨value, by simp [Sparse], by simpa [Token.depth] using within⟩
  cases p with
  | unit =>
    obtain ⟨_, _, last⟩ := bindOk.mp read
    cases last
    rfl
  | bool =>
    obtain ⟨word, _, read⟩ := bindOk.mp read
    obtain ⟨found, truth, last⟩ := bindOk.mp read
    cases last
    exact ⟨_, boolOfOk truth⟩
  | b256 =>
    obtain ⟨bytes, taken, last⟩ := bindOk.mp read
    cases last
    have length := lengthTake (by decide) taken
    exact ⟨bytes, rfl, by omega⟩
  | _ =>
    obtain ⟨word, taken, last⟩ := bindOk.mp read
    cases last
    have length := lengthTake (by decide) taken
    exact ⟨_, rfl, by omega, by exact_mod_cast lowBytesLt (by omega) (by decide)⟩

theorem betweenWhole (bs : Bytes) (count : Nat) : bs.between 0 count = bs.take count := by
  simpa using Bytes.betweenNat bs 0 count

theorem toTextAscii {bs : Bytes} (low : bs.all (· < 0x80) = true) :
    (∀ c ∈ bs.toText.toList, c.toNat < 0x80) ∧ bs.toText.length = bs.length := by
  rw [Bytes.toText, ← String.length_toList, String.toList_ofList]
  refine ⟨?_, by simp⟩
  intro c member
  obtain ⟨b, inside, rfl⟩ := List.mem_map.mp member
  have small : b < 0x80 := by simpa using List.all_eq_true.mp low b inside
  have small : b.toNat < 0x80 := small
  have valid : b.toNat.isValidChar := Or.inl (by omega)
  rw [Char.ofNat, dif_pos valid]
  exact small

theorem decodedString {length : Int} (counted : 0 ≤ length) {token : Token} {start next : Int}
    (read : d.readAt depth start (.string length) = .ok (token, next)) :
    d.Decoded depth (.string length) token := by
  obtain ⟨padded, ⟨within, taken, low⟩, rfl, _⟩ := stringRead read
  obtain ⟨count, rfl⟩ := Int.eq_ofNat_of_zero_le counted
  have room : (count : Int) ≤ padded.length := by
    rw [lengthTake (by have := Word.lePaddedLength count; omega) taken]
    exact Word.lePaddedLength count
  obtain ⟨ascii, whole⟩ := toTextAscii low
  refine ⟨⟨_, rfl, ascii, ?_⟩, by simp [Sparse], by simpa [Token.depth] using within⟩
  rw [whole, betweenWhole, List.length_take]
  omega

theorem decodedArray {element : ParamType} {length : Int} (counted : 0 ≤ length) {token : Token}
    {start next : Int} (read : d.readAt depth start (.array element length) = .ok (token, next))
    (each : ∀ {first last : Int} {item : Token}, d.readAt (depth + 1) first element = .ok (item, last) →
      d.Decoded (depth + 1) element item) : d.Decoded depth (.array element length) token := by
  obtain ⟨items, rfl, found⟩ := arrayRead read
  have decoded := decodedChain found.chain each
  have whole : (items.length : Int) = length := by
    rw [found.count]
    omega
  refine ⟨⟨items, rfl, whole, found.sized, fun item member => (decoded item member).value⟩,
    ⟨fun empty => ?_, fun item member => (decoded item member).sparse⟩,
    sequenceWithin found.within fun item member => (decoded item member).within⟩
  have := found.few empty
  omega

theorem decodedVector {element : ParamType} {token : Token} {start next : Int}
    (read : d.readAt depth start (.vector element) = .ok (token, next))
    (each : ∀ {first last : Int} {item : Token}, d.readAt (depth + 1) first element = .ok (item, last) →
      d.Decoded (depth + 1) element item) : d.Decoded depth (.vector element) token := by
  obtain ⟨items, _, _, rfl, _, found⟩ := vectorRead read
  have decoded := decodedChain found.chain each
  exact ⟨⟨items, rfl, found.head.sized, fun item member => (decoded item member).value⟩,
    ⟨found.head.few, fun item member => (decoded item member).sparse⟩,
    sequenceWithin found.within fun item member => (decoded item member).within⟩

theorem readWordFits (bs : Bytes) {start : Int} (nonneg : 0 ≤ start) : Word.read bs start ≤ Word.max := by
  obtain ⟨start, rfl⟩ := Int.eq_ofNat_of_zero_le nonneg
  have between := Bytes.betweenNat bs start (start + 8)
  have short : (bs.between start (start + 8 : Nat)).length ≤ 8 := by
    rw [between]
    simp only [List.length_drop, List.length_take]
    omega
  have small := Nat.lt_of_lt_of_le (Bytes.toNatLt _) (Bytes.capacityMono short)
  simp only [Bytes.capacity, Word.max] at small ⊢
  exact Nat.le_of_lt_succ small

def DecodedVariant (d : Decoder) (depth : Nat) (types : List ParamType) (index : Nat) (token : Token) :
    Prop :=
  IsVariantValue types index token ∧ SparseVariant d.maxElements types index token ∧
    (depth + token.depth : Int) ≤ d.maxDepth

theorem decodedEnum {variants generics : List ParamType} {name : String} {names : List String}
    {token : Token} {start next : Int}
    (read : d.readAt depth start (.enum variants generics name names) = .ok (token, next))
    (chosen : ∀ {first last : Int} {index : Nat} {payload : Token},
      d.readVariantAt (depth + 1) first index variants = .ok (some (payload, last)) →
      d.DecodedVariant (depth + 1) variants index payload) :
    d.Decoded depth (.enum variants generics name names) token := by
  obtain ⟨index, payload, _, rfl, _, found⟩ := enumRead read
  obtain ⟨value, sparse, within⟩ := chosen found.payload
  have fits : index ≤ Word.max := found.discriminant ▸ readWordFits _ found.first
  refine ⟨⟨index, payload, rfl, fits, found.sized, value⟩, by simpa [Sparse] using sparse, ?_⟩
  rw [Token.depth]
  omega

mutual

theorem decodedOfReadAt : (type : ParamType) → type.isCounted = true →
    ∀ {depth : Nat} {start next : Int} {token : Token}, d.readAt depth start type = .ok (token, next) →
    d.Decoded depth type token
  | .primitive _, _, _, _, _, _, read => decodedPrimitive read
  | .string _, counted, _, _, _, _, read => decodedString (by simpa [ParamType.isCounted] using counted) read
  | .array element _, counted, _, _, _, _, read => by
    simp only [ParamType.isCounted, Bool.and_eq_true, decide_eq_true_eq] at counted
    exact decodedArray counted.1 read (decodedOfReadAt element counted.2)
  | .vector element, counted, _, _, _, _, read =>
    decodedVector read (decodedOfReadAt element (by simpa [ParamType.isCounted] using counted))
  | .tuple elements, counted, _, _, _, _, read => by
    obtain ⟨here, items, rfl, all⟩ := tupleRead read
    have decoded := allDecodedOfReadAllAt elements (by simpa [ParamType.isCounted] using counted) all
    exact ⟨⟨items, rfl, decoded.values⟩, decoded.sparse, sequenceWithin here decoded.within⟩
  | .struct fields _ _ _, counted, _, _, _, _, read => by
    obtain ⟨here, items, rfl, all⟩ := structRead read
    have decoded := allDecodedOfReadAllAt fields (by simpa [ParamType.isCounted] using counted) all
    exact ⟨⟨items, rfl, decoded.values⟩, decoded.sparse, sequenceWithin here decoded.within⟩
  | .enum variants _ _ _, counted, _, _, _, _, read =>
    decodedEnum read (decodedVariantOfRead variants (by simpa [ParamType.isCounted] using counted))
  | .unspecified, _, _, _, _, _, read => (unspecifiedUnread read).elim

theorem allDecodedOfReadAllAt : (types : List ParamType) → ParamType.allCounted types = true →
    ∀ {depth : Nat} {start next : Int} {tokens : List Token},
    d.readAllAt depth start types = .ok (tokens, next) → d.AllDecoded depth types tokens
  | [], _, _, _, _, _, read => by
    rw [readAllAt] at read
    cases read
    exact ⟨rfl, trivial, by simp [Within]⟩
  | type :: types, counted, _, _, _, _, read => by
    simp only [ParamType.allCounted, Bool.and_eq_true] at counted
    obtain ⟨token, tokens, _, rfl, first, rest⟩ := consRead read
    have head := decodedOfReadAt type counted.1 first
    have tail := allDecodedOfReadAllAt types counted.2 rest
    exact ⟨⟨token, tokens, rfl, head.value, tail.values⟩, ⟨head.sparse, tail.sparse⟩,
      List.forall_mem_cons.mpr ⟨head.within, tail.within⟩⟩

theorem decodedVariantOfRead : (types : List ParamType) → ParamType.allCounted types = true →
    ∀ {depth : Nat} {start next : Int} {index : Nat} {token : Token},
    d.readVariantAt depth start index types = .ok (some (token, next)) →
    d.DecodedVariant depth types index token
  | [], _, _, _, _, index, _, read => by
    cases index <;> simp [readVariantAt] at read
  | type :: _, counted, _, _, _, 0, _, read => by
    simp only [ParamType.allCounted, Bool.and_eq_true] at counted
    obtain ⟨_, read, same⟩ := mapOk.mp read
    obtain rfl := Option.some.inj same
    have decoded := decodedOfReadAt type counted.1 read
    exact ⟨decoded.value, decoded.sparse, decoded.within⟩
  | _ :: types, counted, _, _, _, index + 1, _, read => by
    simp only [ParamType.allCounted, Bool.and_eq_true] at counted
    exact decodedVariantOfRead types counted.2 read

end

end Decoder

open Token Chunk

/-- Tokens that are decoded by types without negative lengths are encoded within the same nesting limit.
Wherever their encoding resolves to a buffer within the payload limit, it is decoded as the same
tokens, strictly or not. -/
theorem encodeOfDecode (environment : Environment) (limit : Int) (strict : Bool)
    {types : List ParamType} {data : Bytes} {base : Int} {tokens : List Token}
    (counted : ParamType.allCounted types = true)
    (decoded : decodeWithin (Settings.ofEnvironment environment) limit strict types data base =
      .ok tokens) :
    ∃ chunks, encode limit tokens = .ok chunks ∧
      ∀ (again : Bool) (address : Int) (buffer : Bytes), resolve chunks address = .ok buffer →
        buffer.length ≤ (Settings.ofEnvironment environment).maxPayload →
        decodeWithin (Settings.ofEnvironment environment) limit again types buffer address =
          .ok tokens := by
  obtain ⟨_, _, read⟩ := Decoder.decodeWithinOk.mp decoded
  obtain ⟨values, sparse, within⟩ := Decoder.allDecodedOfReadAllAt types counted read
  obtain ⟨chunks, encoded, _⟩ := allEncodeOfAreValues types values within
  refine ⟨chunks, encoded, fun again address buffer resolved short => ?_⟩
  obtain ⟨address, rfl⟩ := Int.eq_ofNat_of_zero_le (resolveOk.mp resolved).1
  exact decodeOfReads (Settings.maxPayloadFits environment) values within sparse encoded resolved short

theorem encodeOfDecodeOverlapping :
    let types : List ParamType :=
      [.primitive .bool, .vector (.primitive .u8), .vector (.primitive .u8)]
    let data := Word.bytes 5 ++ Word.bytes 156 ++ Word.bytes 77 ++ Word.bytes 1
      ++ Word.bytes 156 ++ Word.bytes 0 ++ Word.bytes 1 ++ Word.bytes 0xFF07
    let tokens := [Token.bool true, .sequence .vector [.number .u8 7], .sequence .vector [.number .u8 7]]
    ParamType.allCounted types = true ∧
      decodeWithin (Settings.ofEnvironment fun _ => none) 1 false types data 100 = .ok tokens ∧
      ∃ chunks, encode 1 tokens = .ok chunks ∧
        ∀ (again : Bool) (address : Int) (buffer : Bytes), resolve chunks address = .ok buffer →
          buffer.length ≤ (Settings.ofEnvironment fun _ => none).maxPayload →
          decodeWithin (Settings.ofEnvironment fun _ => none) 1 again types buffer address =
            .ok tokens := by
  intro types data tokens
  have decoded : decodeWithin (Settings.ofEnvironment fun _ => none) 1 false types data 100 =
      .ok tokens := by
    dsimp only [types, data, tokens]
    rfl
  have counted : ParamType.allCounted types = true := rfl
  exact ⟨counted, decoded, encodeOfDecode (fun _ => none) 1 false counted decoded⟩

theorem negativeLengthDecodedOnly :
    let variants : EnumVariants := ⟨[.array (.primitive .u64) (-1)], []⟩
    decodeWithin (Settings.ofEnvironment fun _ => none) 64 true [.string (-5)] [] 0 =
        .ok [.string "" (-5)] ∧
      encode 64 [.string "" (-5)] = .error (.invalidData (.stringLength 0 (-5))) ∧
      decodeWithin (Settings.ofEnvironment fun _ => none) 64 true [.enum variants.types [] "" []]
          (Word.bytes 0) 0 =
        .ok [.enum 0 (.sequence .array []) variants] ∧
      encode 64 [.enum 0 (.sequence .array []) variants] =
        .error (.invalidData (.variantWidth 0 (.array (.primitive .u64) (-1)) 0)) :=
  ⟨rfl, rfl, rfl, rfl⟩

end WordAbi
