import WordAbi.Proofs.Decoder.Strictness
/-! Where scalars are read from. The cursor moves by an amount that the type alone tells, so that the words of the
buffer tell the place of every scalar, and each one is what is read at its place. A truth value is true exactly when
the last byte of its word is not zero; the bytes before it do not count, unless the decoder is strict. -/
namespace WordAbi

namespace ParamType

mutual

/-- By how many bytes the cursor moves over a value of the type: its static size, but for arrays of negative length,
over which it does not move. -/
def advance : ParamType → Int
  | primitive p => p.size
  | string length => Word.paddedLength length
  | array element length => length.toNat * advance element
  | vector _ => vectorHead
  | tuple elements => advances elements
  | struct fields _ _ _ => advances fields
  | enum variants _ _ _ => 8 + widest (staticSizes variants)
  | unspecified => 0

def advances : List ParamType → Int
  | [] => 0
  | type :: types => advance type + advances types

end

def repeatedPlaces (each : Int → List Int) (step : Int) : (count : Nat) → (start : Int) → List Int
  | 0, _ => []
  | count + 1, start => each start ++ repeatedPlaces each step count (start + step)

mutual

/-- Where the scalars of a kind are in a value of the type that is read at the offset, as the words of the buffer say
it: a vector's pointer and length, and the discriminant of an enum. -/
def places (p : Primitive) (data : Bytes) (base : Int) : ParamType → (start : Int) → List Int
  | primitive q, start => if q = p then [start] else []
  | array element length, start => repeatedPlaces (places p data base element) element.advance length.toNat start
  | vector element, start =>
    repeatedPlaces (places p data base element) element.advance (Word.read data (start + 16))
      (Word.read data start - base)
  | tuple elements, start => allPlaces p data base elements start
  | struct fields _ _ _, start => allPlaces p data base fields start
  | enum variants _ _ _, start => variantPlaces p data base variants (Word.read data start) (start + 8)
  | string _, _ => []
  | unspecified, _ => []

def allPlaces (p : Primitive) (data : Bytes) (base : Int) : List ParamType → (start : Int) → List Int
  | [], _ => []
  | type :: types, start => places p data base type start ++ allPlaces p data base types (start + type.advance)

def variantPlaces (p : Primitive) (data : Bytes) (base : Int) :
    List ParamType → (index : Nat) → (start : Int) → List Int
  | [], _, _ => []
  | type :: _, 0, start => places p data base type start
  | _ :: types, index + 1, start => variantPlaces p data base types index start

end

end ParamType

namespace Token

mutual

def scalars (p : Primitive) : Token → List Datum
  | scalar q payload => if q = p then [payload] else []
  | sequence _ items => allScalars p items
  | enum _ payload _ => scalars p payload
  | _ => []

def allScalars (p : Primitive) : List Token → List Datum
  | [] => []
  | token :: tokens => scalars p token ++ allScalars p tokens

end

end Token

namespace Decoder
open Outcome Token ParamType

variable {d : Decoder} {p : Primitive}

def ReadsScalar (d : Decoder) (p : Primitive) (place : Int) (payload : Datum) : Prop :=
  d.readPrimitive p place = .ok (.scalar p payload, place + p.size)

structure Located (d : Decoder) (p : Primitive) (places : List Int) (scalars : List Datum) (stop next : Int) :
    Prop where
  reads : List.Forall₂ (d.ReadsScalar p) places scalars
  next : next = stop

def Locates (d : Decoder) (p : Primitive) (type : ParamType) : Prop :=
  ∀ {depth : Nat} {start : Int} {token : Token} {next : Int}, d.readAt depth start type = .ok (token, next) →
    d.Located p (places p d.buffer.toList d.base type start) (token.scalars p) (start + type.advance) next

theorem locatesPrimitive (q : Primitive) : d.Locates p (.primitive q) := by
  intro depth start token next read
  obtain ⟨_, read⟩ := primitiveRead read
  obtain ⟨⟨payload, rfl⟩, rfl, _⟩ := takesPrimitive read
  refine ⟨?_, rfl⟩
  rw [places, scalars]
  split
  · rename_i same
    subst same
    exact .cons read .nil
  · exact .nil

theorem locatesString (length : Int) : d.Locates p (.string length) := by
  intro depth start token next read
  obtain ⟨padded, _, rfl, rfl⟩ := stringRead read
  exact ⟨.nil, rfl⟩

theorem locatedChain {element : ParamType} {depth : Nat} (locates : d.Locates p element) {items : List Token}
    {next : Int} : ∀ {start : Int}, Chain (fun start => d.readAt depth start element) start items next →
    d.Located p (repeatedPlaces (places p d.buffer.toList d.base element) element.advance items.length start)
      (allScalars p items) (start + items.length * element.advance) next := by
  induction items with
  | nil =>
    intro start chain
    cases chain
    exact ⟨.nil, by simp⟩
  | cons item items ih =>
    intro start chain
    obtain ⟨middle, found, rest⟩ := chain
    obtain ⟨here, rfl⟩ := locates found
    obtain ⟨others, rfl⟩ := ih rest
    refine ⟨List.rel_append here others, ?_⟩
    rw [List.length_cons, Int.natCast_add, Int.add_mul]
    omega

theorem locatesArray {element : ParamType} (length : Int) (locates : d.Locates p element) :
    d.Locates p (.array element length) := by
  intro depth start token next read
  obtain ⟨items, rfl, found⟩ := arrayRead read
  rw [places, advance, ← found.count]
  exact locatedChain locates found.chain

theorem locatesVector {element : ParamType} (locates : d.Locates p element) : d.Locates p (.vector element) := by
  intro depth start token next read
  obtain ⟨items, place, last, rfl, rfl, found⟩ := vectorRead read
  rw [places, ← found.head.pointer, ← found.head.length]
  exact ⟨(locatedChain locates found.chain).reads, rfl⟩

def AllLocates (d : Decoder) (p : Primitive) (types : List ParamType) : Prop :=
  ∀ {depth : Nat} {start : Int} {tokens : List Token} {next : Int},
    d.readAllAt depth start types = .ok (tokens, next) →
    d.Located p (allPlaces p d.buffer.toList d.base types start) (allScalars p tokens) (start + advances types) next

theorem locatesTuple {elements : List ParamType} (locates : d.AllLocates p elements) :
    d.Locates p (.tuple elements) := by
  intro depth start token next read
  obtain ⟨_, items, rfl, all⟩ := tupleRead read
  exact locates all

theorem locatesStruct {fields generics : List ParamType} {name : String} {names : List String}
    (locates : d.AllLocates p fields) : d.Locates p (.struct fields generics name names) := by
  intro depth start token next read
  obtain ⟨_, items, rfl, all⟩ := structRead read
  exact locates all

theorem locatesEnum {variants generics : List ParamType} {name : String} {names : List String}
    (locates : ∀ {depth : Nat} {start : Int} {index : Nat} {payload : Token} {next : Int},
      d.readVariantAt depth start index variants = .ok (some (payload, next)) →
      List.Forall₂ (d.ReadsScalar p) (variantPlaces p d.buffer.toList d.base variants index start)
        (payload.scalars p)) :
    d.Locates p (.enum variants generics name names) := by
  intro depth start token next read
  obtain ⟨index, payload, last, rfl, rfl, found⟩ := enumRead read
  refine ⟨?_, rfl⟩
  rw [places, ← found.discriminant]
  show List.Forall₂ _ _ (payload.scalars p)
  exact locates found.payload

mutual

theorem locates : (type : ParamType) → d.Locates p type
  | .primitive q => locatesPrimitive q
  | .string length => locatesString length
  | .array element length => locatesArray length (locates element)
  | .vector element => locatesVector (locates element)
  | .tuple elements => locatesTuple (allLocates elements)
  | .struct fields _ _ _ => locatesStruct (allLocates fields)
  | .enum variants _ _ _ => locatesEnum (variantLocates variants)
  | .unspecified => fun read => (unspecifiedUnread read).elim

theorem allLocates : (types : List ParamType) → d.AllLocates p types
  | [] => by
    intro read
    cases read
    exact ⟨.nil, (Int.add_zero _).symm⟩
  | type :: types => by
    intro read
    obtain ⟨token, tokens, middle, rfl, first, rest⟩ := consRead read
    obtain ⟨here, rfl⟩ := locates type first
    obtain ⟨others, rfl⟩ := allLocates types rest
    exact ⟨List.rel_append here others, Int.add_assoc _ _ _⟩

theorem variantLocates : (types : List ParamType) → ∀ {depth : Nat} {start : Int} {index : Nat} {payload : Token}
    {next : Int}, d.readVariantAt depth start index types = .ok (some (payload, next)) →
    List.Forall₂ (d.ReadsScalar p) (variantPlaces p d.buffer.toList d.base types index start) (payload.scalars p)
  | [], _, _, _, _, _, read => by simp [readVariantAt] at read
  | type :: _, _, _, 0, _, _, read => by
    obtain ⟨_, read, same⟩ := mapOk.mp read
    obtain rfl := Option.some.inj same
    exact (locates type read).reads
  | _ :: types, _, _, _ + 1, _, _, read => variantLocates types read

end

def IsLastByte (data : Bytes) (place : Int) (payload : Datum) : Prop :=
  ∃ (position : Nat) (last : UInt8), place = position ∧ data[position + 7]? = some last ∧ payload = .bool (last ≠ 0)

theorem lastOfWord {position : Nat} (inside : position + 8 ≤ d.buffer.size) :
    d.buffer.toList[position + 7]? = some ((d.between position (position + 8)).getLastD 0) := by
  have word : d.between position (position + 8) = (d.buffer.toList.take (position + 8)).drop position :=
    betweenNat inside
  have length : ((d.buffer.toList.take (position + 8)).drop position).length = 8 := by
    rw [List.length_drop, List.length_take, Array.length_toList]
    omega
  have there : position + 7 < d.buffer.toList.length := inside
  rw [word, List.getLastD_eq_getLast?, List.getLast?_eq_getElem?, length, List.getElem?_drop,
    List.getElem?_take_of_lt (by omega), List.getElem?_eq_getElem there]
  rfl

theorem lastByteOfReads {place : Int} {payload : Datum} (reads : d.ReadsScalar .bool place payload) :
    IsLastByte d.buffer.toList place payload := by
  obtain ⟨word, taken, reads⟩ := bindOk.mp reads
  obtain ⟨token, truth, same⟩ := bindOk.mp reads
  obtain ⟨first, room, rfl⟩ := takeOk.mp taken
  obtain rfl := boolOfOk truth
  obtain ⟨position, rfl⟩ := Int.eq_ofNat_of_zero_le first
  cases same
  exact ⟨position, _, rfl, lastOfWord (by omega), rfl⟩

end Decoder

open Decoder Token ParamType

/-- Strictly or not, each truth value that is decoded is false exactly when the last byte of the word in its place is
zero. -/
theorem decodeTruths {settings : Settings} {limit : Int} {strict : Bool} {types : List ParamType} {data : Bytes}
    {base offset : Int} {tokens : List Token}
    (decoded : decodeFrom settings limit strict types data base offset = .ok tokens) :
    List.Forall₂ (IsLastByte data) (allPlaces .bool data base types offset) (allScalars .bool tokens) := by
  obtain ⟨_, next, read⟩ := decodeFromOk.mp decoded
  exact (allLocates types read).reads.imp fun _ _ reads => lastByteOfReads reads

theorem decodeTruthsNested :
    let variants : List ParamType := [.primitive .u8, .array (.primitive .bool) 2]
    let types : List ParamType := [.vector (.enum variants [] "Choice" []), .primitive .bool]
    let data := [9, 140, 7, 1, 256, 1, 256, 513].flatMap Word.bytes
    let tokens : List Token :=
      [.sequence .vector [.enum 1 (.sequence .array [.bool false, .bool true]) ⟨variants, []⟩], .bool false]
    decodeFrom .default 3 false types data 100 8 = .ok tokens ∧
      allPlaces .bool data 100 types 8 = [48, 56, 32] ∧
      List.Forall₂ (IsLastByte data) [48, 56, 32] [.bool false, .bool true, .bool false] := by
  intro variants types data tokens
  have decoded : decodeFrom .default 3 false types data 100 8 = .ok tokens := by
    dsimp only [types, data, tokens, variants]
    rfl
  have places : allPlaces .bool data 100 types 8 = [48, 56, 32] := by
    dsimp only [types, data, variants]
    rfl
  have truths := decodeTruths decoded
  rw [places] at truths
  exact ⟨decoded, places, truths⟩

theorem dirtyWordFalse :
    Word.bytes 256 ≠ Word.bytes 0 ∧
      decodeFrom .default 64 false [.primitive .bool] (Word.bytes 256) 0 0 = .ok [.bool false] ∧
      decodeFrom .default 64 true [.primitive .bool] (Word.bytes 256) 0 0 =
        .error (.invalidData (.boolWord (Word.bytes 256) 0)) :=
  ⟨by decide, rfl, rfl⟩

end WordAbi
