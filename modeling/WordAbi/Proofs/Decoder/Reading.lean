import WordAbi.Proofs.Bytes.Slice
import WordAbi.Proofs.Decoder.Standing
import WordAbi.Proofs.Token.Value
/-! Reading back what is encoded. A value whose encoding stands in the buffer is read from there, with
every element that a pointer leads to. -/
namespace WordAbi

namespace Token

mutual

def Sparse (limit : Nat) : ParamType → Token → Prop
  | .array element _, .sequence _ items =>
    (element.staticSize = 0 → items.length ≤ limit) ∧ ∀ item ∈ items, Sparse limit element item
  | .vector element, .sequence _ items =>
    (element.staticSize = 0 → items.length ≤ limit) ∧ ∀ item ∈ items, Sparse limit element item
  | .tuple elements, .sequence _ items => AllSparse limit elements items
  | .struct fields _ _ _, .sequence _ items => AllSparse limit fields items
  | .enum variants _ _ _, .enum index payload _ => SparseVariant limit variants index.toNat payload
  | _, _ => True

def AllSparse (limit : Nat) : List ParamType → List Token → Prop
  | type :: types, token :: tokens => Sparse limit type token ∧ AllSparse limit types tokens
  | _, _ => True

def SparseVariant (limit : Nat) : List ParamType → Nat → Token → Prop
  | [], _, _ => True
  | type :: _, 0, token => Sparse limit type token
  | _ :: types, index + 1, token => SparseVariant limit types index token

end

end Token

namespace Decoder
open Outcome Chunk Token

variable {d : Decoder} {depth offset position : Nat}

theorem checkDepthOk {type : ParamType} {u : Unit} :
    d.checkDepth depth type = .ok u ↔ (depth : Int) ≤ d.maxDepth := by
  unfold checkDepth
  split
  · simp only [reduceCtorEq, false_iff]
    omega
  · simp only [true_iff]
    omega

theorem checkCountOk {type element : ParamType} {start count : Int} {u : Unit} :
    d.checkCount type element start count = .ok u ↔
      element.hasSize = true ∧ (element.staticSize = 0 → count ≤ d.maxElements) := by
  simp only [checkCount, ParamType.size]
  by_cases sized : element.hasSize = true
  · by_cases empty : element.staticSize = 0
    · by_cases many : (d.maxElements : Int) < count
      · simp [bindOk, sized, empty, many]
      · simp [bindOk, sized, empty, many]
        omega
    · simp [bindOk, sized, empty]
  · simp [bindOk, sized]

def Reads (d : Decoder) (depth : Nat) (type : ParamType) (token : Token) : Prop :=
  ∀ (chunks : List Chunk) (offset position : Nat), encodeAt d.maxDepth depth token = .ok chunks →
    d.Stands chunks offset position →
    d.readAt depth offset type = .ok (token, ((offset + headSizes chunks : Nat) : Int))

def ReadsAll (d : Decoder) (depth : Nat) (types : List ParamType) (tokens : List Token) : Prop :=
  ∀ (chunks : List Chunk) (offset position : Nat), encodeAllAt d.maxDepth depth tokens = .ok chunks →
    d.Stands chunks offset position →
    d.readAllAt depth offset types = .ok (tokens, ((offset + headSizes chunks : Nat) : Int))

theorem repeatReads {element : ParamType} {items : List Token}
    (reads : ∀ item ∈ items, d.Reads depth element item) (before : List Token) {chunks : List Chunk}
    (encoded : encodeAllAt d.maxDepth depth items = .ok chunks) (stands : d.Stands chunks offset position) :
    repeatFrom (fun start => d.readAt depth start element) items.length before offset =
      .ok (before.reverse ++ items, ((offset + headSizes chunks : Nat) : Int)) := by
  induction items generalizing before chunks offset position with
  | nil =>
    simp only [encodeAllAt, Except.ok.injEq] at encoded
    subst encoded
    simp [repeatFrom]
  | cons item items ih =>
    obtain ⟨first, rest, head, tail, rfl⟩ := encodeAllAtConsOk.mp encoded
    obtain ⟨here, later⟩ := standsAppend stands
    have read := reads item (by simp) first offset position head here
    have others := ih (fun t member => reads t (by simp [member])) (item :: before) tail later
    rw [List.length_cons, repeatFrom, read]
    simp only [others, headSizesAppend, Nat.add_assoc]
    simp

theorem readsAllNil : d.ReadsAll depth [] [] := by
  intro chunks offset position encoded _
  simp only [encodeAllAt, Except.ok.injEq] at encoded
  subst encoded
  simp [readAllAt]

theorem readsAllCons {type : ParamType} {types : List ParamType} {token : Token} {tokens : List Token}
    (first : d.Reads depth type token) (rest : d.ReadsAll depth types tokens) :
    d.ReadsAll depth (type :: types) (token :: tokens) := by
  intro chunks offset position encoded stands
  obtain ⟨heads, tails, head, tail, rfl⟩ := encodeAllAtConsOk.mp encoded
  obtain ⟨here, later⟩ := standsAppend stands
  rw [readAllAt, bindOk]
  refine ⟨_, first heads offset position head here, ?_⟩
  rw [bindOk]
  refine ⟨_, rest tails _ _ tail later, ?_⟩
  simp [Nat.add_assoc]

theorem boolWord (b : Bool) (start : Int) :
    d.boolOf (Word.bytes (if b then 1 else 0)) start = .ok (.bool b) := by
  have word : Word.bytes (if b then 1 else 0) = [0, 0, 0, 0, 0, 0, 0, if b then 1 else 0] := by
    cases b <;> decide
  rw [word]
  cases b <;> cases strict : d.strictBool <;> simp [boolOf, strict]

theorem readNumberWord {p : Primitive} {width n : Nat} (width? : p.width? = some width)
    (narrow : width ≤ 8) (small : n < Bytes.capacity width) :
    Bytes.toNat ((Word.bytes n).drop (8 - p.width?.getD 8)) = n := by
  rw [width?]
  exact Word.toNatDropBytes narrow small

theorem readsScalar {p : Primitive} {token : Token} (value : IsScalarValue p token) :
    d.Reads depth (.primitive p) token := by
  intro chunks offset position encoded stands
  have within : (depth : Int) ≤ d.maxDepth := by
    obtain ⟨payload, rfl⟩ := scalarOfValue value
    exact (encodeScalarOk.mp encoded).1
  obtain rfl := Except.ok.inj ((encodeScalarValue value within).symm.trans encoded)
  have holds := (standsInline stands).1
  have length := lengthScalarBytes value
  have wide : headSizes [.inline (scalarBytes token)] = (scalarBytes token).length := by
    simp [headSize]
  rw [readAt, bindOk]
  refine ⟨(), checkDepthOk.mpr within, ?_⟩
  rw [wide, Int.natCast_add, length]
  have taken : d.take (.primitive p) offset p.size = .ok (scalarBytes token) :=
    takeOfHolds holds length.symm
  cases p with
  | unit =>
    subst value
    exact bindOk.mpr ⟨_, taken, rfl⟩
  | bool =>
    obtain ⟨b, rfl⟩ := value
    exact bindOk.mpr ⟨_, taken, bindOk.mpr ⟨_, boolWord b offset, rfl⟩⟩
  | b256 =>
    obtain ⟨bs, rfl, _⟩ := value
    exact bindOk.mpr ⟨_, taken, rfl⟩
  | _ =>
    obtain ⟨n, rfl, low, high⟩ := value
    obtain ⟨n, rfl⟩ := Int.eq_ofNat_of_zero_le low
    refine bindOk.mpr ⟨_, taken, ?_⟩
    rw [show scalarBytes (number _ (n : Int)) = Word.bytes n from rfl,
      readNumberWord rfl (by decide) (by exact_mod_cast high)]
    rfl

theorem readsString {text : String} {length : Int} : d.Reads depth (.string length) (.string text length) := by
  intro chunks offset position encoded stands
  obtain ⟨within, ascii, size, rfl⟩ := encodeStringOk.mp encoded
  have holds := (standsInline stands).1
  have padded : (Word.paddedLength length) = ((Word.pad (Bytes.ofAscii text)).length : Int) := by
    rw [Word.lengthPad, lengthOfAscii, size]
  have whole : (Word.pad (Bytes.ofAscii text)).between 0 length = Bytes.ofAscii text := by
    have place := Bytes.betweenAppend [] (Bytes.ofAscii text)
      (Bytes.zeros ((8 - (Bytes.ofAscii text).length % 8) % 8))
    rw [← size, ← lengthOfAscii]
    simpa [Word.pad] using place
  have taken : d.take (.string length) offset (ParamType.string length).staticSize =
      .ok (Word.pad (Bytes.ofAscii text)) := takeOfHolds holds padded
  rw [readAt, bindOk]
  refine ⟨(), checkDepthOk.mpr within, ?_⟩
  rw [readString, bindOk]
  refine ⟨_, taken, ?_⟩
  rw [whole, if_pos (Bytes.ofAsciiLow ascii), Bytes.toTextOfAscii ascii]
  simp [ParamType.staticSize, padded, headSize]

theorem readsTuple {types : List ParamType} {items : List Token}
    (reads : d.ReadsAll (depth + 1) types items) :
    d.Reads depth (.tuple types) (.sequence .tuple items) := by
  intro chunks offset position encoded stands
  obtain ⟨within, encoded⟩ := (encodeSequenceOk (by decide)).mp encoded
  rw [readAt, bindOk]
  refine ⟨(), checkDepthOk.mpr within, ?_⟩
  exact bindOk.mpr ⟨_, reads chunks offset position encoded stands, rfl⟩

theorem readsStruct {types generics : List ParamType} {name : String} {names : List String}
    {items : List Token} (reads : d.ReadsAll (depth + 1) types items) :
    d.Reads depth (.struct types generics name names) (.sequence .struct items) := by
  intro chunks offset position encoded stands
  obtain ⟨within, encoded⟩ := (encodeSequenceOk (by decide)).mp encoded
  rw [readAt, bindOk]
  refine ⟨(), checkDepthOk.mpr within, ?_⟩
  exact bindOk.mpr ⟨_, reads chunks offset position encoded stands, rfl⟩

theorem takeWithin (type : ParamType) {count : Int} (inside : (offset : Int) + count ≤ d.buffer.size) :
    ∃ bs, d.take type offset count = .ok bs := ⟨_, takeOk.mpr ⟨by omega, inside, rfl⟩⟩

theorem readsArray {element : ParamType} {length : Int} {items : List Token}
    (count : (items.length : Int) = length) (sized : element.hasSize = true)
    (few : element.staticSize = 0 → items.length ≤ d.maxElements)
    (wide : AllEncodeIn d.maxDepth (depth + 1) (items.length * element.staticSize) items)
    (reads : ∀ item ∈ items, d.Reads (depth + 1) element item) :
    d.Reads depth (.array element length) (.sequence .array items) := by
  intro chunks offset position encoded stands
  obtain ⟨within, encoded⟩ := (encodeSequenceOk (by decide)).mp encoded
  obtain ⟨_, same, width⟩ := wide
  obtain rfl := Except.ok.inj (same.symm.trans encoded)
  have inside := standsEnd stands
  have fits : (offset : Int) + length * element.staticSize ≤ d.buffer.size := by
    rw [← count, ← width]
    omega
  obtain ⟨bytes, taken⟩ := takeWithin (.array element length) fits
  have read := repeatReads reads [] encoded stands
  rw [readAt, bindOk]
  refine ⟨(), checkDepthOk.mpr within, bindOk.mpr ⟨_, ParamType.sizeOfHasSize ?_, ?_⟩⟩
  · simpa [ParamType.hasSize] using sized
  refine bindOk.mpr ⟨bytes, taken, bindOk.mpr ⟨(), checkCountOk.mpr ⟨sized, fun empty => ?_⟩, ?_⟩⟩
  · have := few empty
    omega
  refine bindOk.mpr ⟨(items, _), ?_, rfl⟩
  rw [← count, Int.toNat_natCast, read]
  rfl

theorem readVectorHeadWords {element : ParamType} {pointer count : Nat}
    (holds : d.Holds offset (Word.bytes pointer ++ Word.bytes count ++ Word.bytes count))
    (pointerFits : pointer ≤ Word.max) (countFits : count ≤ Word.max)
    (place : (pointer : Int) - d.base = position) (sized : element.hasSize = true)
    (few : element.staticSize = 0 → count ≤ d.maxElements) :
    d.readVectorHead element offset =
      if (d.buffer.size : Int) < position + count * element.staticSize then
        .error (.invalidData (.vectorOutside element offset pointer count))
      else .ok (position, count) := by
  have taken : d.take (.vector element) offset 24 =
      .ok (Word.bytes pointer ++ Word.bytes count ++ Word.bytes count) :=
    takeOfHolds holds (by simp)
  have first : Word.read (Word.bytes pointer ++ Word.bytes count ++ Word.bytes count) 0 = pointer := by
    have read := Word.readAppend [] (Word.bytes count ++ Word.bytes count)
      (Word.lengthBytes pointer)
    rw [Word.toNatBytes pointerFits] at read
    simpa using read
  have last : Word.read (Word.bytes pointer ++ Word.bytes count ++ Word.bytes count) 16 = count := by
    have read := Word.readAppend (Word.bytes pointer ++ Word.bytes count) []
      (Word.lengthBytes count)
    rw [Word.toNatBytes countFits] at read
    simpa using read
  have counted : d.checkCount (.vector element) element offset count = .ok () :=
    checkCountOk.mpr ⟨sized, fun empty => by exact_mod_cast few empty⟩
  have nonneg : ¬ (position : Int) < 0 := by omega
  simp only [readVectorHead, taken, first, last, place, counted, ParamType.sizeOfHasSize sized, nonneg,
    false_or, bind, Except.bind]

theorem readVectorHeadOk {element : ParamType} {pointer count : Nat}
    (holds : d.Holds offset (Word.bytes pointer ++ Word.bytes count ++ Word.bytes count))
    (pointerFits : pointer ≤ Word.max) (countFits : count ≤ Word.max)
    (place : (pointer : Int) - d.base = position) (sized : element.hasSize = true)
    (few : element.staticSize = 0 → count ≤ d.maxElements)
    (inside : (position : Int) + count * element.staticSize ≤ d.buffer.size) :
    d.readVectorHead element offset = .ok (position, count) :=
  (readVectorHeadWords holds pointerFits countFits place sized few).trans (if_neg (by omega))

def Measured (d : Decoder) : Prop := d.buffer.size ≤ Word.max ∧ d.maxElements ≤ Word.max

theorem countFits (measured : d.Measured) {size : Int} {count width : Nat}
    (few : size = 0 → count ≤ d.maxElements) (wide : (width : Int) = count * size)
    (inside : width ≤ d.buffer.size) : count ≤ Word.max := by
  by_cases empty : size = 0
  · exact Nat.le_trans (few empty) measured.2
  · refine Nat.le_trans (Nat.le_trans ?_ inside) measured.1
    by_cases none : count = 0
    · omega
    · have positive : 0 < size := by
        rcases Int.lt_or_le size 0 with negative | nonneg
        · have below : (count : Int) * size < 0 := Int.mul_neg_of_pos_of_neg (by omega) negative
          omega
        · omega
      have grow := Int.mul_le_mul_of_nonneg_left (show (1 : Int) ≤ size by omega) (show 0 ≤ (count : Int) by omega)
      omega

theorem readsVector (measured : d.Measured) {element : ParamType} {items : List Token}
    (sized : element.hasSize = true) (few : element.staticSize = 0 → items.length ≤ d.maxElements)
    (wide : AllEncodeIn d.maxDepth (depth + 1) (items.length * element.staticSize) items)
    (reads : ∀ item ∈ items, d.Reads (depth + 1) element item) :
    d.Reads depth (.vector element) (.sequence .vector items) := by
  intro chunks offset position encoded stands
  obtain ⟨within, elements, inner, rfl⟩ := encodeVectorOk.mp encoded
  obtain ⟨_, same, width⟩ := wide
  obtain rfl := Except.ok.inj (same.symm.trans inner)
  obtain ⟨pointer, pointerFits, place, here, block, rest⟩ := standsDynamic stands
  obtain ⟨capacity, rest⟩ := standsInline rest
  obtain ⟨length, _⟩ := standsInline rest
  have inside := standsEnd block
  have holds : d.Holds offset
      (Word.bytes pointer ++ Word.bytes items.length ++ Word.bytes items.length) := by
    refine holdsAppend.mpr ⟨holdsAppend.mpr ⟨here, ?_⟩, ?_⟩
    · simpa using capacity
    · simpa [Nat.add_assoc] using length
  have head := readVectorHeadOk holds pointerFits (countFits measured few width (by omega)) place
    sized few (by rw [← width]; omega)
  have read := repeatReads reads [] inner block
  rw [readAt, bindOk]
  refine ⟨(), checkDepthOk.mpr within, bindOk.mpr ⟨_, head, bindOk.mpr ⟨_, read, ?_⟩⟩⟩
  simp [vectorChunks, headSize]

theorem readVariantAtEq {types : List ParamType} {index : Nat} {type : ParamType} {start : Int}
    (found : types[index]? = some type) :
    d.readVariantAt depth start index types = (d.readAt depth start type).map some := by
  induction types generalizing index with
  | nil => simp at found
  | cons first types ih =>
    cases index with
    | zero =>
      simp only [List.getElem?_cons_zero, Option.some.injEq] at found
      rw [readVariantAt, found]
    | succ index => exact ih (by simpa using found)

theorem readsEnum {variants generics : List ParamType} {name : String} {names : List String}
    {index : Nat} {payload : Token} {type : ParamType} (found : variants[index]? = some type)
    (fits : index ≤ Word.max) (sized : ParamType.allHaveSize variants = true)
    (wide : EncodesIn d.maxDepth (depth + 1) type.staticSize payload)
    (reads : d.Reads (depth + 1) type payload) :
    d.Reads depth (.enum variants generics name names) (.enum index payload ⟨variants, names⟩) := by
  intro chunks offset position encoded stands
  have encodes := encodesInEnum ⟨variants, names⟩
    (encodeEnumOk.mp encoded).1 found sized fits wide
  obtain ⟨chunks, same, width⟩ := encodes
  obtain rfl := Except.ok.inj (same.symm.trans encoded)
  have width : (headSizes chunks : Int) = 8 + ParamType.widest (ParamType.staticSizes variants) := width
  have inside := standsEnd stands
  obtain ⟨within, other, found', inner, encodedInner, laid⟩ := encodeEnumOk.mp encoded
  rw [EnumVariants.typeOfNat, found] at found'
  obtain rfl := Option.some.inj found'
  obtain ⟨_, _, _, _, parts⟩ := enumChunksOk.mp laid
  rw [← parts] at stands
  obtain ⟨here, rest⟩ := standsInline stands
  rw [Word.lengthBytes] at rest
  have read := reads inner (offset + 8) position encodedInner (standsAppend rest).1
  rw [Int.toNat_natCast] at here
  have discriminant : Bytes.toNat (d.between offset (offset + 8)) = index := by
    have word := betweenOfHolds here
    rw [Word.lengthBytes] at word
    exact (congrArg Bytes.toNat word).trans (Word.toNatBytes fits)
  have size : ParamType.size (.enum variants generics name names) =
      .ok (8 + ParamType.widest (ParamType.staticSizes variants)) :=
    ParamType.sizeOfHasSize (by simpa [ParamType.hasSize] using sized)
  have fits : (offset : Int) + (8 + ParamType.widest (ParamType.staticSizes variants)) ≤
      d.buffer.size := by omega
  obtain ⟨bytes, taken⟩ := takeWithin (.enum variants generics name names) fits
  rw [readAt, bindOk]
  refine ⟨(), checkDepthOk.mpr within, bindOk.mpr ⟨_, size, bindOk.mpr ⟨bytes, taken, ?_⟩⟩⟩
  simp only [discriminant, readVariantAtEq found]
  refine bindOk.mpr ⟨some (payload, _), mapOk.mpr ⟨_, read, rfl⟩, ?_⟩
  have next : (offset : Int) + (8 + ParamType.widest (ParamType.staticSizes variants)) =
      ((offset + headSizes chunks : Nat) : Int) := by omega
  rw [← next]

mutual

theorem readsOfIsValue (measured : d.Measured) : (type : ParamType) → ∀ {depth : Nat} {token : Token},
    IsValue type token → Sparse d.maxElements type token → (depth + token.depth : Int) ≤ d.maxDepth →
    d.Reads depth type token
  | .primitive _, _, _, value, _, _ => readsScalar value
  | .string _, _, _, value, _, _ => by
    obtain ⟨text, rfl, _⟩ := value
    exact readsString
  | .array element _, depth, _, value, sparse, within => by
    obtain ⟨items, rfl, count, sized, values⟩ := value
    obtain ⟨few, sparse⟩ := sparse
    have deeper := withinItems within
    refine readsArray count sized few (allEncodeOfEach fun item member =>
      encodesOfIsValue element (values item member) (deeper item member)) ?_
    intro item member
    exact readsOfIsValue measured element (values item member) (sparse item member)
      (deeper item member)
  | .vector element, depth, _, value, sparse, within => by
    obtain ⟨items, rfl, sized, values⟩ := value
    obtain ⟨few, sparse⟩ := sparse
    have deeper := withinItems within
    refine readsVector measured sized few (allEncodeOfEach fun item member =>
      encodesOfIsValue element (values item member) (deeper item member)) ?_
    intro item member
    exact readsOfIsValue measured element (values item member) (sparse item member)
      (deeper item member)
  | .tuple elements, depth, _, value, sparse, within => by
    obtain ⟨items, rfl, values⟩ := value
    exact readsTuple (readsAllOfAreValues measured elements values sparse (withinItems within))
  | .struct fields _ _ _, depth, _, value, sparse, within => by
    obtain ⟨items, rfl, values⟩ := value
    exact readsStruct (readsAllOfAreValues measured fields values sparse (withinItems within))
  | .enum variants _ _ names, depth, _, value, sparse, within => by
    obtain ⟨index, payload, rfl, fits, sized, value⟩ := value
    rw [Token.depth] at within
    have below : ((depth + 1 : Nat) + payload.depth : Int) ≤ d.maxDepth := by omega
    obtain ⟨type, found, wide⟩ := variantEncodes variants value below
    obtain ⟨type', found', reads⟩ := readsVariant measured variants value sparse below
    obtain rfl := Option.some.inj (found.symm.trans found')
    exact readsEnum found fits sized wide reads
  | .unspecified, _, _, value, _, _ => value.elim

theorem readsAllOfAreValues (measured : d.Measured) : (types : List ParamType) →
    ∀ {depth : Nat} {tokens : List Token}, AreValues types tokens →
    AllSparse d.maxElements types tokens → Within d.maxDepth depth tokens →
    d.ReadsAll depth types tokens
  | [], depth, _, values, _, _ => by
    obtain rfl := values
    exact readsAllNil
  | type :: types, depth, _, values, sparse, within => by
    obtain ⟨token, tokens, rfl, value, values⟩ := values
    obtain ⟨here, later⟩ := List.forall_mem_cons.mp within
    exact readsAllCons (readsOfIsValue measured type value sparse.1 here)
      (readsAllOfAreValues measured types values sparse.2 later)

theorem readsVariant (measured : d.Measured) : (types : List ParamType) →
    ∀ {depth index : Nat} {token : Token}, IsVariantValue types index token →
    SparseVariant d.maxElements types index token → (depth + token.depth : Int) ≤ d.maxDepth →
    ∃ type, types[index]? = some type ∧ d.Reads depth type token
  | [], _, _, _, value, _, _ => value.elim
  | type :: _, _, 0, _, value, sparse, within =>
    ⟨type, rfl, readsOfIsValue measured type value sparse within⟩
  | _ :: types, _, _ + 1, _, value, sparse, within => readsVariant measured types value sparse within

end

end Decoder

end WordAbi
