import WordAbi.Proofs.Decoder.Surroundings
import WordAbi.Proofs.Token.Written
/-! Decoding a part of an encoding. From the start of a buffer in which a value stands, the value is read only
when all its bytes are there, those of every block that its pointers lead to included; else some check fails
as invalid data. So no proper start of an encoding is decoded. -/
namespace WordAbi

namespace Decoder
open Outcome Chunk Token

variable {d whole part : Decoder} {depth offset position : Nat}

theorem decodedItems {element : ParamType} {items : List Token} {start next : Int}
    (values : ∀ item ∈ items, IsValue element item)
    (chain : Chain (fun first => d.readAt depth first element) start items next)
    (each : ∀ {first last : Int} {item : Token}, IsValue element item →
      d.readAt depth first element = .ok (item, last) → d.Decoded depth element item) :
    ∀ item ∈ items, d.Decoded depth element item := by
  intro item member
  obtain ⟨_, _, found⟩ := readOfChain chain item member
  exact each (values item member) found

mutual

theorem decodedOfValue : (type : ParamType) → ∀ {depth : Nat} {start next : Int} {token : Token},
    IsValue type token → d.readAt depth start type = .ok (token, next) → d.Decoded depth type token
  | .primitive _, _, _, _, _, _, read => decodedPrimitive read
  | .string _, _, _, _, _, value, read => by
    obtain ⟨_, _, _, length⟩ := value
    exact decodedString (by omega) read
  | .array element _, _, _, _, _, value, read => by
    have ⟨items, same, length, _, values⟩ := value
    obtain ⟨_, rfl, found⟩ := arrayRead read
    cases same
    have decoded := decodedItems values found.chain (decodedOfValue element)
    have few := found.few
    rw [← length] at few
    exact ⟨value, ⟨fun empty => by exact_mod_cast few empty, fun item member => (decoded item member).sparse⟩,
      sequenceWithin found.within fun item member => (decoded item member).within⟩
  | .vector element, _, _, _, _, value, read => by
    have ⟨items, same, _, values⟩ := value
    obtain ⟨_, _, _, rfl, _, found⟩ := vectorRead read
    cases same
    have decoded := decodedItems values found.chain (decodedOfValue element)
    exact ⟨value, ⟨found.head.few, fun item member => (decoded item member).sparse⟩,
      sequenceWithin found.within fun item member => (decoded item member).within⟩
  | .tuple elements, _, _, _, _, value, read => by
    have ⟨items, same, values⟩ := value
    obtain ⟨here, _, rfl, all⟩ := tupleRead read
    cases same
    obtain ⟨_, sparse, within⟩ := allDecodedOfValues elements values all
    exact ⟨value, sparse, sequenceWithin here within⟩
  | .struct fields _ _ _, _, _, _, _, value, read => by
    have ⟨items, same, values⟩ := value
    obtain ⟨here, _, rfl, all⟩ := structRead read
    cases same
    obtain ⟨_, sparse, within⟩ := allDecodedOfValues fields values all
    exact ⟨value, sparse, sequenceWithin here within⟩
  | .enum variants _ _ _, _, _, _, _, value, read => by
    have ⟨index, payload, same, _, _, chosen⟩ := value
    obtain ⟨_, _, _, rfl, _, found⟩ := enumRead read
    cases same
    obtain ⟨_, sparse, within⟩ := decodedVariantOfValue variants chosen found.payload
    exact ⟨value, sparse, by rw [Token.depth]; omega⟩
  | .unspecified, _, _, _, _, value, _ => value.elim

theorem allDecodedOfValues : (types : List ParamType) →
    ∀ {depth : Nat} {start next : Int} {tokens : List Token}, AreValues types tokens →
    d.readAllAt depth start types = .ok (tokens, next) → d.AllDecoded depth types tokens
  | [], _, _, _, _, values, _ => by
    cases values
    exact ⟨rfl, trivial, by simp [Within]⟩
  | type :: types, _, _, _, _, values, read => by
    have ⟨_, _, same, value, later⟩ := values
    obtain ⟨_, _, _, rfl, first, rest⟩ := consRead read
    cases same
    have head := decodedOfValue type value first
    have tail := allDecodedOfValues types later rest
    exact ⟨values, ⟨head.sparse, tail.sparse⟩, List.forall_mem_cons.mpr ⟨head.within, tail.within⟩⟩

theorem decodedVariantOfValue : (types : List ParamType) →
    ∀ {depth : Nat} {start next : Int} {index : Nat} {token : Token}, IsVariantValue types index token →
    d.readVariantAt depth start index types = .ok (some (token, next)) →
    d.DecodedVariant depth types index token
  | [], _, _, _, _, _, value, _ => value.elim
  | type :: _, _, _, _, 0, _, value, read => by
    obtain ⟨_, read, same⟩ := mapOk.mp read
    obtain rfl := Option.some.inj same
    have decoded := decodedOfValue type value read
    exact ⟨value, decoded.sparse, decoded.within⟩
  | _ :: types, _, _, _, index + 1, _, value, read => decodedVariantOfValue types value read

end

def Covers (d : Decoder) (chunks : List Chunk) (offset position : Nat) : Prop :=
  (headSizes chunks = 0 ∨ offset + headSizes chunks ≤ d.buffer.size) ∧
    (blockSizes chunks = 0 ∨ position + blockSizes chunks ≤ d.buffer.size)

theorem coversAppend {chunks others : List Chunk} (first : d.Covers chunks offset position)
    (rest : d.Covers others (offset + headSizes chunks) (position + blockSizes chunks)) :
    d.Covers (chunks ++ others) offset position := by
  unfold Covers at *
  rw [headSizesAppend, blockSizesAppend]
  omega

def Refused (closed : Bool) (fault : Fault) : Prop :=
  ∃ cause, fault = .invalidData cause ∧ (closed = true → cause.types.all (·.hasName) = true)

theorem endsPart {α : Type} {holds : α → Prop} {closed closed' : Bool} {outcome : Except Fault α}
    (ends : Ends holds (Refused closed) outcome) (less : closed' = true → closed = true) :
    Ends holds (Refused closed') outcome := by
  refine endsMono ends (fun _ held => held) ?_
  rintro _ ⟨cause, rfl, named⟩
  exact ⟨cause, rfl, fun whole => named (less whole)⟩

def Cuts (whole part : Decoder) (depth : Nat) (type : ParamType) (token : Token) : Prop :=
  ∀ (chunks : List Chunk) (offset position : Nat), encodeAt part.maxDepth depth token = .ok chunks →
    whole.Stands chunks offset position →
    Ends (fun read => read = (token, ((offset + headSizes chunks : Nat) : Int)) ∧
      part.Covers chunks offset position) (Refused type.isClosed) (part.readAt depth offset type)

def CutsAll (whole part : Decoder) (depth : Nat) (types : List ParamType) (tokens : List Token) : Prop :=
  ∀ (chunks : List Chunk) (offset position : Nat), encodeAllAt part.maxDepth depth tokens = .ok chunks →
    whole.Stands chunks offset position →
    Ends (fun read => read = (tokens, ((offset + headSizes chunks : Nat) : Int)) ∧
      part.Covers chunks offset position) (Refused (ParamType.allClosed types))
      (part.readAllAt depth offset types)

theorem holdsStart (encloses : whole.Encloses part 0) {bs : Bytes} (holds : whole.Holds position bs)
    (room : position + bs.length ≤ part.buffer.size) : part.Holds position bs := by
  obtain ⟨before, after, parts, rfl⟩ := holds
  obtain ⟨none, rest, same, empty⟩ := encloses.holds
  obtain rfl := List.length_eq_zero_iff.mp empty
  have start : part.buffer.toList = (before ++ bs ++ after).take part.buffer.size := by
    rw [← parts, same]
    simp
  refine ⟨before, after.take (part.buffer.size - (before ++ bs).length), ?_, rfl⟩
  rw [start, List.take_append, List.take_of_length_le (by simpa using room)]

theorem refusedShort {type : ParamType} {start count : Int} {size : Nat} :
    Refused type.isClosed (.invalidData (.shortBuffer type count start size)) := by
  refine ⟨_, rfl, fun closed => ?_⟩
  simp [DataFault.types, ParamType.hasNameOfIsClosed type closed]

theorem endsTake {type : ParamType} {count : Int} :
    Ends (fun _ => offset + count ≤ (d.buffer.size : Int)) (Refused type.isClosed)
      (d.take type offset count) := by
  unfold take
  split
  · exact refusedShort
  · rename_i enough
    simp only [Ends]
    omega

theorem endsShort {α : Type} {holds : α → Prop} {type : ParamType} {count : Int} {f : Bytes → Except Fault α}
    (short : (d.buffer.size : Int) < offset + count) :
    Ends holds (Refused type.isClosed) (d.take type offset count >>= f) := by
  refine endsBind endsTake fun _ enough => ?_
  omega

theorem endsWithin {α : Type} {holds : α → Prop} {blame : Fault → Prop} {type : ParamType}
    {f : Unit → Except Fault α} (within : (depth : Int) ≤ d.maxDepth) (rest : Ends holds blame (f ())) :
    Ends holds blame (d.checkDepth depth type >>= f) :=
  endsAfter (checkDepthOk.mpr within) rest

theorem cutsInline {type : ParamType} {token : Token} {bytes : Bytes} (encloses : whole.Encloses part 0)
    (encoded : encodeAt part.maxDepth depth token = .ok [.inline bytes])
    (reads : part.Reads depth type token)
    (short : ∀ {holds : Token × Int → Prop} {offset : Nat}, (part.buffer.size : Int) < offset + bytes.length →
      Ends holds (Refused type.isClosed) (part.readAt depth offset type)) :
    Cuts whole part depth type token := by
  intro chunks offset position same stands
  obtain rfl := Except.ok.inj (encoded.symm.trans same)
  by_cases room : offset + bytes.length ≤ part.buffer.size
  · have holds := holdsStart encloses (standsInline stands).1 room
    obtain ⟨origin, _, _, base, _⟩ := stands
    have stands : part.Stands [.inline bytes] offset 0 := by
      refine ⟨origin, bytes, [], ?_, ?_, holds, [], part.buffer.toList, by simp, rfl⟩
      · rw [← base, encloses.base]
        simp
      · simp [placeAll, Chunk.place, bind, Except.bind]
    rw [reads _ offset 0 encoded stands]
    exact ⟨rfl, by simpa [headSize] using .inr room, .inl (by simp [blockSizes, blockSize])⟩
  · exact short (by omega)

theorem cutsScalar (encloses : whole.Encloses part 0) {p : Primitive} {token : Token}
    (value : IsScalarValue p token) (within : (depth : Int) ≤ part.maxDepth) :
    Cuts whole part depth (.primitive p) token := by
  have length := lengthScalarBytes value
  refine cutsInline encloses (encodeScalarValue value within) (readsScalar value) fun short => ?_
  rw [length] at short
  rw [readAt]
  refine endsWithin within ?_
  cases p with
  | _ => exact endsShort short

theorem cutsString (encloses : whole.Encloses part 0) {text : String} {length : Int}
    (value : IsValue (.string length) (.string text length)) (within : (depth : Int) ≤ part.maxDepth) :
    Cuts whole part depth (.string length) (.string text length) := by
  obtain ⟨_, same, ascii, size⟩ := value
  cases same
  have padded : ((Word.pad (Bytes.ofAscii text)).length : Int) = (ParamType.string length).staticSize := by
    rw [Word.lengthPad, lengthOfAscii, size, ParamType.staticSize]
  refine cutsInline encloses (encodeStringOk.mpr ⟨within, ascii, size, rfl⟩) readsString fun short => ?_
  rw [padded] at short
  rw [readAt]
  exact endsWithin within (endsShort short)

theorem cutsRepeat {element : ParamType} {items : List Token}
    (cuts : ∀ item ∈ items, Cuts whole part depth element item) (before : List Token) {chunks : List Chunk}
    (encoded : encodeAllAt part.maxDepth depth items = .ok chunks)
    (stands : whole.Stands chunks offset position) :
    Ends (fun read => read = (before.reverse ++ items, ((offset + headSizes chunks : Nat) : Int)) ∧
        part.Covers chunks offset position) (Refused element.isClosed)
      (repeatFrom (fun start => part.readAt depth start element) items.length before offset) := by
  induction items generalizing before chunks offset position with
  | nil =>
    cases encoded
    simp [repeatFrom, Ends, Covers, blockSizes]
  | cons item items ih =>
    obtain ⟨first, rest, head, tail, rfl⟩ := encodeAllAtConsOk.mp encoded
    obtain ⟨here, later⟩ := standsAppend stands
    have read := cuts item (by simp) first offset position head here
    rw [List.length_cons, repeatFrom]
    split
    · rename_i failed
      rwa [failed] at read
    · rename_i done
      rw [done] at read
      obtain ⟨same, covers⟩ := read
      cases same
      have others := ih (fun t member => cuts t (by simp [member])) (item :: before) tail later
      refine endsMono others ?_ fun _ refused => refused
      rintro _ ⟨rfl, rest⟩
      exact ⟨by simp [Nat.add_assoc], coversAppend covers rest⟩

theorem cutsAllNil : CutsAll whole part depth [] [] := by
  intro chunks offset position encoded _
  cases encoded
  simp [readAllAt, Ends, Covers, blockSizes]

theorem cutsAllCons {type : ParamType} {types : List ParamType} {token : Token} {tokens : List Token}
    (first : Cuts whole part depth type token) (rest : CutsAll whole part depth types tokens) :
    CutsAll whole part depth (type :: types) (token :: tokens) := by
  intro chunks offset position encoded stands
  obtain ⟨heads, tails, head, tail, rfl⟩ := encodeAllAtConsOk.mp encoded
  obtain ⟨here, later⟩ := standsAppend stands
  have closed : ParamType.allClosed (type :: types) = true →
      type.isClosed = true ∧ ParamType.allClosed types = true := by
    simp only [ParamType.allClosed, Bool.and_eq_true, imp_self]
  have head := endsPart (first heads offset position head here) fun all => (closed all).1
  have tail := endsPart (rest tails _ _ tail later) fun all => (closed all).2
  rw [readAllAt]
  refine endsBind head ?_
  rintro _ ⟨rfl, covers⟩
  refine endsBind tail ?_
  rintro _ ⟨rfl, others⟩
  exact ⟨by simp [Nat.add_assoc], coversAppend covers others⟩

theorem cutsMembers {type : ParamType} {types : List ParamType} {kind : SequenceKind} {items : List Token}
    (inPlace : kind ≠ .vector) (closed : type.isClosed = true → ParamType.allClosed types = true)
    (read : ∀ start, part.readAt depth start type = part.checkDepth depth type >>= fun _ =>
      part.readAllAt (depth + 1) start types >>= fun read => .ok (.sequence kind read.1, read.2))
    (cuts : CutsAll whole part (depth + 1) types items) :
    Cuts whole part depth type (.sequence kind items) := by
  intro chunks offset position encoded stands
  obtain ⟨within, encoded⟩ := (encodeSequenceOk inPlace).mp encoded
  rw [read]
  refine endsWithin within (endsBind (endsPart (cuts chunks offset position encoded stands) closed) ?_)
  rintro _ ⟨rfl, covers⟩
  exact ⟨rfl, covers⟩

theorem cutsArray {element : ParamType} {length : Int} {items : List Token}
    (count : (items.length : Int) = length) (sized : element.hasSize = true)
    (few : element.staticSize = 0 → items.length ≤ part.maxElements)
    (cuts : ∀ item ∈ items, Cuts whole part (depth + 1) element item) :
    Cuts whole part depth (.array element length) (.sequence .array items) := by
  intro chunks offset position encoded stands
  obtain ⟨within, encoded⟩ := (encodeSequenceOk (by decide)).mp encoded
  have passed : part.checkCount (.array element length) element offset length = .ok () :=
    checkCountOk.mpr ⟨sized, fun empty => by have := few empty; omega⟩
  have size : (ParamType.array element length).size = .ok (ParamType.array element length).staticSize :=
    ParamType.sizeOfHasSize (by simpa [ParamType.hasSize] using sized)
  have read := cutsRepeat cuts [] encoded stands
  rw [show items.length = length.toNat by omega] at read
  rw [readAt]
  refine endsWithin within (endsAfter size (endsBind endsTake fun _ _ => ?_))
  refine endsAfter passed (endsBind read ?_)
  rintro _ ⟨rfl, covers⟩
  exact ⟨rfl, covers⟩

theorem cutsVector (encloses : whole.Encloses part 0) (measured : whole.Measured) {element : ParamType}
    {items : List Token} (sized : element.hasSize = true)
    (few : element.staticSize = 0 → items.length ≤ part.maxElements)
    (wide : AllEncodeIn part.maxDepth (depth + 1) (items.length * element.staticSize) items)
    (cuts : ∀ item ∈ items, Cuts whole part (depth + 1) element item) :
    Cuts whole part depth (.vector element) (.sequence .vector items) := by
  intro chunks offset position encoded stands
  obtain ⟨within, elements, inner, rfl⟩ := encodeVectorOk.mp encoded
  obtain ⟨_, same, width⟩ := wide
  obtain rfl := Except.ok.inj (same.symm.trans inner)
  obtain ⟨pointer, pointerFits, place, here, block, rest⟩ := standsDynamic stands
  obtain ⟨capacity, rest⟩ := standsInline rest
  obtain ⟨length, _⟩ := standsInline rest
  have holds : whole.Holds offset
      (Word.bytes pointer ++ Word.bytes items.length ++ Word.bytes items.length) := by
    refine holdsAppend.mpr ⟨holdsAppend.mpr ⟨here, ?_⟩, ?_⟩
    · simpa using capacity
    · simpa [Nat.add_assoc] using length
  have counted : items.length ≤ Word.max :=
    countFits measured (encloses.maxElements ▸ few) width (by have := standsEnd block; omega)
  have base : (pointer : Int) - part.base = position := by
    rw [← place, encloses.base]
    simp
  rw [readAt]
  refine endsWithin within ?_
  by_cases room : offset + 24 ≤ part.buffer.size
  · have head := readVectorHeadWords (holdsStart encloses holds (by simpa using room)) pointerFits counted
      base sized few
    split at head
    · refine endsFailed head ⟨_, rfl, fun closed => ?_⟩
      simp [DataFault.types, ParamType.hasNameOfIsClosed element closed]
    · rename_i inside
      refine endsAfter head (endsBind (cutsRepeat cuts [] inner block) ?_)
      rintro _ ⟨rfl, covers⟩
      refine ⟨by simp [vectorChunks, headSize], ?_⟩
      simp only [Covers, vectorChunks, headSizesCons, headSizesNil, headSize, blockSizes, blockSize,
        Word.lengthBytes] at covers ⊢
      omega
  · exact endsBind (endsShort (by omega)) fun _ => False.elim

theorem cutsEnum (encloses : whole.Encloses part 0) {variants generics : List ParamType} {name : String}
    {names : List String} {index : Nat} {payload : Token} {type : ParamType}
    (found : variants[index]? = some type) (fits : index ≤ Word.max)
    (sized : ParamType.allHaveSize variants = true)
    (wide : EncodesIn part.maxDepth (depth + 1) type.staticSize payload)
    (cuts : Cuts whole part (depth + 1) type payload) :
    Cuts whole part depth (.enum variants generics name names) (.enum index payload ⟨variants, names⟩) := by
  intro chunks offset position encoded stands
  obtain ⟨within, other, found', inner, encodedInner, laid⟩ := encodeEnumOk.mp encoded
  rw [EnumVariants.typeOfNat, found] at found'
  obtain rfl := Option.some.inj found'
  obtain ⟨_, same, width⟩ := encodesInEnum ⟨variants, names⟩ within found sized fits wide
  obtain rfl := Except.ok.inj (encoded.symm.trans same)
  have width : (headSizes chunks : Int) = 8 + ParamType.widest (ParamType.staticSizes variants) := width
  obtain ⟨_, _, _, _, parts⟩ := enumChunksOk.mp laid
  have first : 8 ≤ headSizes chunks := by
    rw [← parts]
    simp [headSize]
  have blocks : blockSizes chunks = blockSizes inner := by
    rw [← parts]
    simp [blockSizes, blockSize, blockSizesAppend, blockSizesFiller]
  rw [← parts] at stands
  obtain ⟨here, rest⟩ := standsInline stands
  rw [Word.lengthBytes] at rest
  have size : ParamType.size (.enum variants generics name names) =
      .ok (8 + ParamType.widest (ParamType.staticSizes variants)) :=
    ParamType.sizeOfHasSize (by simpa [ParamType.hasSize] using sized)
  have closed : (ParamType.enum variants generics name names).isClosed = true → type.isClosed = true := by
    simp only [ParamType.isClosed, Bool.and_eq_true]
    exact fun closed => ParamType.closedOfMem closed.2 (List.mem_of_getElem? found)
  have read := endsPart (cuts inner (offset + 8) position encodedInner (standsAppend rest).1) closed
  rw [readAt]
  refine endsWithin within (endsAfter size (endsBind endsTake fun _ enough => ?_))
  have room : offset + headSizes chunks ≤ part.buffer.size := by omega
  have word := betweenOfHolds (holdsStart encloses here (by rw [Word.lengthBytes]; omega))
  rw [Word.lengthBytes, Int.toNat_natCast] at word
  have discriminant : Bytes.toNat (part.between offset (offset + 8)) = index :=
    (congrArg Bytes.toNat word).trans (Word.toNatBytes fits)
  have chosen : Ends (fun found => found = some (payload, ((offset + 8 + headSizes inner : Nat) : Int)) ∧
      part.Covers inner (offset + 8) position) (Refused (ParamType.enum variants generics name names).isClosed)
      ((part.readAt (depth + 1) (offset + 8) type).map some) := by
    refine endsMap read ?_
    rintro _ ⟨rfl, covers⟩
    exact ⟨rfl, covers⟩
  simp only [discriminant, readVariantAtEq found]
  refine endsBind chosen ?_
  rintro _ ⟨rfl, covers⟩
  have next : (offset : Int) + (8 + ParamType.widest (ParamType.staticSizes variants)) =
      ((offset + headSizes chunks : Nat) : Int) := by omega
  refine ⟨by rw [← next], .inr room, ?_⟩
  rw [blocks]
  exact covers.2

mutual

theorem cutsOfIsValue (encloses : whole.Encloses part 0) (measured : whole.Measured) : (type : ParamType) →
    ∀ {depth : Nat} {token : Token}, IsValue type token → Sparse part.maxElements type token →
    (depth + token.depth : Int) ≤ part.maxDepth → Cuts whole part depth type token
  | .primitive _, _, _, value, _, within => cutsScalar encloses value (by omega)
  | .string _, _, _, value, _, within => by
    have ⟨text, same, _⟩ := value
    cases same
    exact cutsString encloses value (by omega)
  | .array element _, _, _, value, sparse, within => by
    obtain ⟨items, rfl, count, sized, values⟩ := value
    have deeper := withinItems within
    exact cutsArray count sized sparse.1 fun item member =>
      cutsOfIsValue encloses measured element (values item member) (sparse.2 item member) (deeper item member)
  | .vector element, _, _, value, sparse, within => by
    obtain ⟨items, rfl, sized, values⟩ := value
    have deeper := withinItems within
    have wide := allEncodeOfEach fun item member =>
      encodesOfIsValue element (values item member) (deeper item member)
    exact cutsVector encloses measured sized sparse.1 wide fun item member =>
      cutsOfIsValue encloses measured element (values item member) (sparse.2 item member) (deeper item member)
  | .tuple elements, _, _, value, sparse, within => by
    obtain ⟨items, rfl, values⟩ := value
    exact cutsMembers (by decide) id (fun _ => rfl)
      (cutsOfAreValues encloses measured elements values sparse (withinItems within))
  | .struct fields _ _ _, _, _, value, sparse, within => by
    obtain ⟨items, rfl, values⟩ := value
    refine cutsMembers (by decide) (fun closed => ?_) (fun _ => rfl)
      (cutsOfAreValues encloses measured fields values sparse (withinItems within))
    rw [ParamType.isClosed, Bool.and_eq_true] at closed
    exact closed.2
  | .enum variants _ _ names, depth, _, value, sparse, within => by
    obtain ⟨index, payload, rfl, fits, sized, value⟩ := value
    rw [Token.depth] at within
    have below : ((depth + 1 : Nat) + payload.depth : Int) ≤ part.maxDepth := by omega
    obtain ⟨type, found, wide⟩ := variantEncodes variants value below
    obtain ⟨type', found', cuts⟩ := cutsOfVariant encloses measured variants value sparse below
    obtain rfl := Option.some.inj (found.symm.trans found')
    exact cutsEnum encloses found fits sized wide cuts
  | .unspecified, _, _, value, _, _ => value.elim

theorem cutsOfAreValues (encloses : whole.Encloses part 0) (measured : whole.Measured) :
    (types : List ParamType) → ∀ {depth : Nat} {tokens : List Token}, AreValues types tokens →
    AllSparse part.maxElements types tokens → Within part.maxDepth depth tokens →
    CutsAll whole part depth types tokens
  | [], _, _, values, _, _ => by
    obtain rfl := values
    exact cutsAllNil
  | type :: types, _, _, values, sparse, within => by
    obtain ⟨token, tokens, rfl, value, values⟩ := values
    obtain ⟨here, later⟩ := List.forall_mem_cons.mp within
    exact cutsAllCons (cutsOfIsValue encloses measured type value sparse.1 here)
      (cutsOfAreValues encloses measured types values sparse.2 later)

theorem cutsOfVariant (encloses : whole.Encloses part 0) (measured : whole.Measured) :
    (types : List ParamType) → ∀ {depth index : Nat} {token : Token}, IsVariantValue types index token →
    SparseVariant part.maxElements types index token → (depth + token.depth : Int) ≤ part.maxDepth →
    ∃ type, types[index]? = some type ∧ Cuts whole part depth type token
  | [], _, _, _, value, _, _ => value.elim
  | type :: _, _, 0, _, value, sparse, within =>
    ⟨type, rfl, cutsOfIsValue encloses measured type value sparse within⟩
  | _ :: types, _, _ + 1, _, value, sparse, within =>
    cutsOfVariant encloses measured types value sparse within

end

end Decoder

open Token Chunk

/-- When values are encoded and resolved to a buffer that is decoded as them, decoding any proper start of the
buffer at the same address fails with invalid data, reported as such for closed types. -/
theorem decodeTruncated (environment : Environment) {encodingLimit limit base : Int} {strict : Bool}
    {types : List ParamType} {tokens : List Token} {chunks : List Chunk} {data start rest : Bytes}
    (values : AreValues types tokens) (encoded : encode encodingLimit tokens = .ok chunks)
    (resolved : resolve chunks base = .ok data)
    (decoded : decodeWithin (Settings.ofEnvironment environment) limit strict types data base = .ok tokens)
    (parts : start ++ rest = data) (proper : rest ≠ []) :
    ∃ cause, decodeWithin (Settings.ofEnvironment environment) limit strict types start base =
        .error (.invalidData cause) ∧
      (ParamType.allClosed types = true →
        (Fault.invalidData cause).report = .codec .invalidData cause.message cause.context) := by
  obtain ⟨short, _, read⟩ := Decoder.decodeWithinOk.mp decoded
  obtain ⟨_, sparse, within⟩ := Decoder.allDecodedOfValues types values read
  have encoded := encodeAllAtUnder tokens encoded within
  have lengths := lengthResolve resolved
  obtain ⟨base, rfl⟩ := Int.eq_ofNat_of_zero_le (resolveOk.mp resolved).1
  have fits := Settings.maxPayloadFits environment
  let whole : Decoder := ⟨data.toArray, base, limit, strict, (Settings.ofEnvironment environment).maxPayload⟩
  let part : Decoder := ⟨start.toArray, base, limit, strict, (Settings.ofEnvironment environment).maxPayload⟩
  have encloses : whole.Encloses part 0 :=
    ⟨⟨[], rest, by simp [whole, part, parts], rfl⟩, by simp [whole, part], rfl, rfl, rfl⟩
  have measured : whole.Measured := ⟨Nat.le_trans (by simpa [whole] using short) fits, fits⟩
  have stands : whole.Stands chunks 0 (headSizes chunks) :=
    Decoder.standsResolved rfl (by simp [whole]) resolved
  have cut := Decoder.cutsOfAreValues encloses measured types values sparse within chunks 0 _ encoded stands
  have longer : start.length < data.length := by
    rw [← parts, List.length_append]
    have := List.length_pos_iff.mpr proper
    omega
  have same : decodeWithin (Settings.ofEnvironment environment) limit strict types start base =
      part.read types 0 := by
    rw [decodeWithin, Decoder.makeOk.mpr ⟨by omega, rfl⟩]
    rfl
  rw [same, Decoder.read]
  cases outcome : part.readAllAt 0 0 types with
  | ok read =>
    rw [Int.natCast_zero, outcome] at cut
    obtain ⟨_, heads, blocks⟩ := cut
    have size : part.buffer.size = start.length := by simp [part]
    simp only [totalSize] at lengths
    omega
  | error fault =>
    rw [Int.natCast_zero, outcome] at cut
    obtain ⟨cause, rfl, named⟩ := cut
    exact ⟨cause, rfl, fun closed => if_pos (named closed)⟩

theorem decodeTruncatedNested :
    let variants : List ParamType := [.primitive .bool, .vector (.string 3)]
    let types : List ParamType := [.vector (.enum variants [] "Choice" ["flag", "texts"])]
    let tokens : List Token := [.sequence .vector
      [.enum 1 (.sequence .vector [.string "abc" 3]) ⟨variants, ["flag", "texts"]⟩]]
    let text : List Chunk := [.inline (Bytes.ofAscii "abc" ++ Bytes.zeros 5)]
    let chunks := vectorChunks (.inline (Word.bytes 1) :: vectorChunks text 1) 1
    let start := Word.bytes 124 ++ Word.bytes 1 ++ Word.bytes 1
      ++ Word.bytes 1 ++ Word.bytes 156 ++ Word.bytes 1 ++ Word.bytes 1 ++ Bytes.ofAscii "abc" ++ Bytes.zeros 3
    let data := start ++ Bytes.zeros 2
    AreValues types tokens ∧ encode 3 tokens = .ok chunks ∧ resolve chunks 100 = .ok data ∧
      decodeWithin (Settings.ofEnvironment fun _ => none) 3 true types data 100 = .ok tokens ∧
      Bytes.zeros 2 ≠ [] ∧ ParamType.allClosed types = true ∧
      ∃ cause, decodeWithin (Settings.ofEnvironment fun _ => none) 3 true types start 100 =
          .error (.invalidData cause) ∧
        (Fault.invalidData cause).report = .codec .invalidData cause.message cause.context := by
  intro variants types tokens text chunks start data
  have string : IsValue (.string 3) (.string "abc" 3) := ⟨"abc", rfl, by simp, rfl⟩
  have values : AreValues types tokens :=
    ⟨_, _, rfl, ⟨_, rfl, rfl, List.forall_mem_singleton.mpr
      ⟨1, _, rfl, by decide, rfl, _, rfl, rfl, List.forall_mem_singleton.mpr string⟩⟩, rfl⟩
  have encoded : encode 3 tokens = .ok chunks := rfl
  have resolved : resolve chunks 100 = .ok data := rfl
  have decoded : decodeWithin (Settings.ofEnvironment fun _ => none) 3 true types data 100 = .ok tokens := by
    dsimp only [variants, types, tokens, data, start]
    rfl
  have closed : ParamType.allClosed types = true := rfl
  obtain ⟨cause, failed, reported⟩ :=
    decodeTruncated (fun _ => none) values encoded resolved decoded rfl (by decide)
  exact ⟨values, encoded, resolved, decoded, by decide, closed, cause, failed, reported closed⟩

end WordAbi
