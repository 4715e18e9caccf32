import WordAbi.Proofs.Decoder.Soundness
/-! How a decoder fails. By types without negative lengths its cursor never leaves the buffer, wherever
pointers and lengths in the bytes lead to; so every failure is one of too deep a nesting or tells a type and
an offset within the buffer. -/
namespace WordAbi

namespace ParamType

inductive Nested : (levels : Nat) → (inner outer : ParamType) → Prop
  | same (type) : Nested 0 type type
  | array {levels inner element} (length) : Nested levels inner element →
      Nested (levels + 1) inner (.array element length)
  | vector {levels inner element} : Nested levels inner element → Nested (levels + 1) inner (.vector element)
  | tuple {levels inner element elements} : element ∈ elements → Nested levels inner element →
      Nested (levels + 1) inner (.tuple elements)
  | struct {levels inner field fields} (generics name names) : field ∈ fields → Nested levels inner field →
      Nested (levels + 1) inner (.struct fields generics name names)
  | enum {levels inner variant variants} (generics name names) : variant ∈ variants →
      Nested levels inner variant → Nested (levels + 1) inner (.enum variants generics name names)

theorem closedOfMem {type : ParamType} {types : List ParamType} (closed : allClosed types = true)
    (member : type ∈ types) : type.isClosed = true := by
  rw [allClosedEqAll, List.all_eq_true] at closed
  exact closed type member

theorem closedOfNested {levels : Nat} {inner outer : ParamType} (nested : Nested levels inner outer)
    (closed : outer.isClosed = true) : inner.isClosed = true := by
  induction nested with
  | same => exact closed
  | array _ _ ih => exact ih closed
  | vector _ ih => exact ih closed
  | tuple member _ ih => exact ih (closedOfMem closed member)
  | struct _ _ _ member _ ih =>
    simp only [isClosed, Bool.and_eq_true] at closed
    exact ih (closedOfMem closed.2 member)
  | enum _ _ _ member _ ih =>
    simp only [isClosed, Bool.and_eq_true] at closed
    exact ih (closedOfMem closed.2 member)

mutual

theorem hasNameOfIsClosed : (type : ParamType) → type.isClosed = true → type.hasName = true
  | primitive _, _ => rfl
  | string _, _ => rfl
  | array element _, closed => hasNameOfIsClosed element closed
  | vector element, closed => hasNameOfIsClosed element closed
  | tuple elements, closed => allHaveNameOfAllClosed elements closed
  | struct _ _ _ _, _ => rfl
  | enum _ _ _ _, _ => rfl

theorem allHaveNameOfAllClosed : (types : List ParamType) → allClosed types = true →
    allHaveName types = true
  | [], _ => rfl
  | type :: types, closed => by
    simp only [allClosed, Bool.and_eq_true] at closed
    simp [allHaveName, hasNameOfIsClosed type closed.1, allHaveNameOfAllClosed types closed.2]

end

theorem totalNonneg {sizes : List Int} (nonneg : ∀ size ∈ sizes, 0 ≤ size) : 0 ≤ total sizes := by
  induction sizes with
  | nil => exact Int.le_refl 0
  | cons size sizes ih =>
    obtain ⟨first, rest⟩ := List.forall_mem_cons.mp nonneg
    exact Int.add_nonneg first (ih rest)

theorem widestNonneg {sizes : List Int} (nonneg : ∀ size ∈ sizes, 0 ≤ size) : 0 ≤ widest sizes := by
  cases sizes with
  | nil => exact Int.le_refl 0
  | cons size sizes => exact Int.le_trans (nonneg size (by simp)) (leWidest (by simp))

mutual

theorem staticSizeNonneg : (type : ParamType) → type.isCounted = true → 0 ≤ type.staticSize
  | primitive p, _ => by cases p <;> decide
  | string length, counted => by
    have long := Word.lePaddedLength length
    simp only [isCounted, decide_eq_true_eq] at counted
    simp only [staticSize]
    omega
  | array element length, counted => by
    simp only [isCounted, Bool.and_eq_true, decide_eq_true_eq] at counted
    exact Int.mul_nonneg counted.1 (staticSizeNonneg element counted.2)
  | vector _, _ => by simp [staticSize, vectorHead]
  | tuple elements, counted => totalNonneg (staticSizesNonneg elements counted)
  | struct fields _ _ _, counted => totalNonneg (staticSizesNonneg fields counted)
  | enum variants _ _ _, counted =>
    Int.add_nonneg (by decide) (widestNonneg (staticSizesNonneg variants counted))
  | unspecified, _ => Int.le_refl 0

theorem staticSizesNonneg : (types : List ParamType) → allCounted types = true →
    ∀ size ∈ staticSizes types, 0 ≤ size
  | [], _ => by simp [staticSizes]
  | type :: types, counted => by
    simp only [allCounted, Bool.and_eq_true] at counted
    exact List.forall_mem_cons.mpr
      ⟨staticSizeNonneg type counted.1, staticSizesNonneg types counted.2⟩

end

end ParamType

open ParamType (Nested)

structure DataFault.Locates (cause : DataFault) (type : ParamType) (size : Nat) : Prop where
  named : cause.types.all (·.hasName) = true
  type : cause.context.lookup "type" = some (.str type.typeName)
  offset : ∃ offset : Int, cause.context.lookup "offset" = some (.int offset) ∧ 0 ≤ offset ∧ offset ≤ size

inductive DecodingFault (limit : Int) (size : Nat) (met : Nat → ParamType → Prop) : Fault → Prop
  | tooDeep {depth type} : met depth type → limit < depth →
      DecodingFault limit size met (.unsupported (.typeDepth limit type depth))
  | invalid {depth type cause} : met depth type → cause.Locates type size →
      DecodingFault limit size met (.invalidData cause)

theorem DecodingFault.mono {limit : Int} {size : Nat} {met other : Nat → ParamType → Prop} {fault : Fault}
    (decoding : DecodingFault limit size met fault) (more : ∀ depth type, met depth type → other depth type) :
    DecodingFault limit size other fault := by
  cases decoding with
  | tooDeep here beyond => exact .tooDeep (more _ _ here) beyond
  | invalid here located => exact .invalid (more _ _ here) located

namespace Decoder
open Outcome

variable {d : Decoder} {depth : Nat} {offset : Int}

def Inside (d : Decoder) (offset : Int) : Prop := 0 ≤ offset ∧ offset ≤ d.buffer.size

def Met (depth : Nat) (types : List ParamType) (level : Nat) (inner : ParamType) : Prop :=
  ∃ type ∈ types, ∃ levels, level = depth + levels ∧ Nested levels inner type

def Ending {α : Type} (d : Decoder) (holds : α → Prop) (depth : Nat) (types : List ParamType) :
    Except Fault α → Prop :=
  Ends holds (DecodingFault d.maxDepth d.buffer.size (Met depth types))

section

variable {type : ParamType} {α : Type} {holds : α → Prop}

theorem metItself : Met depth [type] depth type := ⟨type, by simp, 0, rfl, .same type⟩

theorem endingInvalid {cause : DataFault} (located : cause.Locates type d.buffer.size) :
    d.Ending holds depth [type] (.error (.invalidData cause)) := .invalid metItself located

theorem endingParts {parts : List ParamType} {outcome : Except Fault α}
    (ending : d.Ending holds (depth + 1) parts outcome)
    (nested : ∀ part ∈ parts, ∀ levels inner, Nested levels inner part → Nested (levels + 1) inner type) :
    d.Ending holds depth [type] outcome := by
  refine endsMono ending (fun _ held => held) fun fault decoding => decoding.mono ?_
  rintro _ inner ⟨part, member, levels, rfl, inside⟩
  exact ⟨type, by simp, levels + 1, by omega, nested part member levels inner inside⟩

theorem endingMore {types others : List ParamType} {outcome : Except Fault α}
    (ending : d.Ending holds depth types outcome) (more : types ⊆ others) :
    d.Ending holds depth others outcome := by
  refine endsMono ending (fun _ held => held) fun fault decoding => decoding.mono ?_
  rintro level inner ⟨other, member, met⟩
  exact ⟨other, more member, met⟩

theorem endingDepth : d.Ending (fun _ => True) depth [type] (d.checkDepth depth type) := by
  unfold checkDepth
  split
  · rename_i beyond
    exact .tooDeep metItself beyond
  · trivial

theorem endingSize {sized : ParamType} (closed : sized.isClosed = true) :
    d.Ending (· = sized.staticSize) depth [type] sized.size := by
  rw [ParamType.sizeOfHasSize (ParamType.hasSizeOfIsClosed sized closed)]
  rfl

theorem endingTake {count : Int} (closed : type.isClosed = true) (inside : d.Inside offset) :
    d.Ending (fun _ => offset + count ≤ d.buffer.size) depth [type] (d.take type offset count) := by
  unfold take
  split
  · refine endingInvalid ⟨?_, rfl, offset, rfl, inside⟩
    simp [DataFault.types, ParamType.hasNameOfIsClosed type closed]
  · rename_i enough
    show offset + count ≤ d.buffer.size
    omega

theorem endingCount {element : ParamType} {count : Int} (closed : type.isClosed = true)
    (elementClosed : element.isClosed = true) (inside : d.Inside offset) :
    d.Ending (fun _ => True) depth [type] (d.checkCount type element offset count) := by
  refine endsBind (endingSize elementClosed) fun size _ => ?_
  split
  · refine endingInvalid ⟨?_, rfl, offset, rfl, inside⟩
    simp [DataFault.types, ParamType.hasNameOfIsClosed type closed]
  · trivial

end

theorem endingBool {word : Bytes} (inside : d.Inside offset) :
    d.Ending (fun _ => True) depth [.primitive .bool] (d.boolOf word offset) := by
  unfold boolOf
  dsimp only
  split
  · exact endingInvalid ⟨rfl, rfl, offset, rfl, inside⟩
  · trivial

theorem endingPrimitive {p : Primitive} (inside : d.Inside offset) :
    d.Ending (fun read => d.Inside read.2) depth [.primitive p] (d.readPrimitive p offset) := by
  have after {count : Int} (enough : offset + count ≤ d.buffer.size) (nonneg : 0 ≤ count) :
      d.Inside (offset + count) := ⟨Int.add_nonneg inside.1 nonneg, enough⟩
  unfold readPrimitive
  cases p with
  | bool =>
    refine endsBind (endingTake rfl inside) fun word enough => ?_
    exact endsBind (endingBool inside) fun _ _ => after enough (by decide)
  | _ => exact endsBind (endingTake rfl inside) fun _ enough => after enough (by decide)

theorem endingString {length : Int} (counted : 0 ≤ length) (inside : d.Inside offset) :
    d.Ending (fun read => d.Inside read.2) depth [.string length] (d.readString length offset) := by
  have nonneg := ParamType.staticSizeNonneg (.string length) (by simpa [ParamType.isCounted] using counted)
  refine endsBind (endingTake rfl inside) fun padded enough => ?_
  dsimp only
  split
  · exact ⟨Int.add_nonneg inside.1 nonneg, enough⟩
  · exact endingInvalid ⟨rfl, rfl, offset, rfl, inside⟩

theorem endingVectorHead {element : ParamType} (closed : element.isClosed = true)
    (counted : element.isCounted = true) (inside : d.Inside offset) :
    d.Ending (fun read => d.Inside read.1 ∧ d.Inside (offset + 24)) depth [.vector element]
      (d.readVectorHead element offset) := by
  have nonneg := ParamType.staticSizeNonneg element counted
  refine endsBind (endingTake closed inside) fun head enough => ?_
  refine endsBind (endingCount closed closed inside) fun _ _ => endsBind (endingSize closed) ?_
  rintro size rfl
  split
  · refine endingInvalid ⟨?_, rfl, offset, rfl, inside⟩
    simp [DataFault.types, ParamType.hasNameOfIsClosed element closed]
  · rename_i within
    have wide := Int.mul_nonneg (Int.natCast_nonneg (Word.read head 16)) nonneg
    have first := inside.1
    exact ⟨⟨by omega, by omega⟩, by omega, enough⟩

theorem endsRepeat {blame : Fault → Prop} {read : Int → Except Fault (Token × Int)}
    (each : ∀ {start : Int}, d.Inside start → Ends (fun found => d.Inside found.2) blame (read start))
    (count : Nat) (before : List Token) (inside : d.Inside offset) :
    Ends (fun found => d.Inside found.2) blame (repeatFrom read count before offset) := by
  induction count generalizing before offset with
  | zero => exact inside
  | succ count ih =>
    have here := each inside
    unfold repeatFrom
    split
    · rename_i failed
      rwa [failed] at here
    · rename_i done
      rw [done] at here
      exact ih _ here

mutual

theorem endingReadAt : (type : ParamType) → type.isClosed = true → type.isCounted = true →
    ∀ {depth : Nat} {offset : Int}, d.Inside offset →
    d.Ending (fun read => d.Inside read.2) depth [type] (d.readAt depth offset type)
  | .primitive _, _, _, _, _, inside => by
    rw [readAt]
    exact endsBind endingDepth fun _ _ => endingPrimitive inside
  | .string _, _, counted, _, _, inside => by
    rw [readAt]
    exact endsBind endingDepth fun _ _ =>
      endingString (by simpa [ParamType.isCounted] using counted) inside
  | .array element length, closed, counted, _, _, inside => by
    have whole := closed
    simp only [ParamType.isCounted, Bool.and_eq_true, decide_eq_true_eq] at counted
    rw [readAt]
    refine endsBind endingDepth fun _ _ => endsBind (endingSize whole) fun size _ => ?_
    refine endsBind (endingTake whole inside) fun _ _ => ?_
    refine endsBind (endingCount whole closed inside) fun _ _ => ?_
    refine endsBind (endsRepeat (fun start => ?_) _ _ inside) fun _ after => after
    refine endingParts (endingReadAt element closed counted.2 start) ?_
    rintro part member levels inner nested
    obtain rfl := List.mem_singleton.mp member
    exact .array length nested
  | .vector element, closed, counted, _, _, inside => by
    rw [readAt]
    refine endsBind endingDepth fun _ _ => endsBind (endingVectorHead closed counted inside) ?_
    rintro ⟨position, count⟩ ⟨target, after⟩
    refine endsBind (endsRepeat (fun start => ?_) _ _ target) fun _ _ => after
    refine endingParts (endingReadAt element closed counted start) ?_
    rintro part member levels inner nested
    obtain rfl := List.mem_singleton.mp member
    exact .vector nested
  | .tuple elements, closed, counted, _, _, inside => by
    rw [readAt]
    refine endsBind endingDepth fun _ _ => endsBind ?_ fun _ after => after
    exact endingParts (endingReadAllAt elements closed counted inside)
      fun _ member _ _ nested => .tuple member nested
  | .struct fields _ _ _, closed, counted, _, _, inside => by
    simp only [ParamType.isClosed, Bool.and_eq_true] at closed
    rw [readAt]
    refine endsBind endingDepth fun _ _ => endsBind ?_ fun _ after => after
    exact endingParts (endingReadAllAt fields closed.2 counted inside)
      fun _ member _ _ nested => .struct _ _ _ member nested
  | .enum variants generics name names, closed, counted, _, offset, inside => by
    have whole := closed
    have nonneg := ParamType.widestNonneg (ParamType.staticSizesNonneg variants counted)
    simp only [ParamType.isClosed, Bool.and_eq_true] at closed
    have first := inside.1
    rw [readAt]
    refine endsBind endingDepth fun _ _ => endsBind (endingSize whole) ?_
    rintro width rfl
    refine endsBind (endingTake whole inside) fun _ enough => ?_
    simp only [ParamType.staticSize] at enough
    have payload : d.Inside (offset + 8) := ⟨by omega, by omega⟩
    refine endsBind (endingParts (endingReadVariantAt variants closed.2 counted payload)
      fun _ member _ _ nested => .enum _ _ _ member nested) fun payload _ => ?_
    split
    · simp only [ParamType.staticSize]
      exact ⟨by omega, by omega⟩
    · exact endingInvalid ⟨rfl, rfl, offset, rfl, inside⟩

theorem endingReadAllAt : (types : List ParamType) → ParamType.allClosed types = true →
    ParamType.allCounted types = true → ∀ {depth : Nat} {offset : Int}, d.Inside offset →
    d.Ending (fun read => d.Inside read.2) depth types (d.readAllAt depth offset types)
  | [], _, _, _, _, inside => inside
  | type :: types, closed, counted, depth, _, inside => by
    simp only [ParamType.allClosed, Bool.and_eq_true] at closed
    simp only [ParamType.allCounted, Bool.and_eq_true] at counted
    rw [readAllAt]
    refine endsBind (endingMore (endingReadAt type closed.1 counted.1 inside) (by simp)) ?_
    rintro ⟨token, next⟩ inside
    exact endsBind (endingMore (endingReadAllAt types closed.2 counted.2 inside) (by simp))
      fun _ after => after

theorem endingReadVariantAt : (types : List ParamType) → ParamType.allClosed types = true →
    ParamType.allCounted types = true → ∀ {depth : Nat} {offset : Int} {index : Nat}, d.Inside offset →
    d.Ending (fun _ => True) depth types (d.readVariantAt depth offset index types)
  | [], _, _, _, _, index, _ => by cases index <;> trivial
  | type :: types, closed, counted, _, _, 0, inside => by
    simp only [ParamType.allClosed, Bool.and_eq_true] at closed
    simp only [ParamType.allCounted, Bool.and_eq_true] at counted
    exact endsMap (endingMore (endingReadAt type closed.1 counted.1 inside) (by simp)) fun _ _ => trivial
  | type :: types, closed, counted, _, _, index + 1, inside => by
    simp only [ParamType.allClosed, Bool.and_eq_true] at closed
    simp only [ParamType.allCounted, Bool.and_eq_true] at counted
    exact endingMore (endingReadVariantAt types closed.2 counted.2 inside) (by simp)

end

theorem lengthOfReadAllAt {types : List ParamType} {depth : Nat} {offset next : Int} {tokens : List Token}
    (read : d.readAllAt depth offset types = .ok (tokens, next)) : tokens.length = types.length := by
  induction types generalizing offset next tokens with
  | nil =>
    rw [readAllAt] at read
    cases read
    rfl
  | cons type types ih =>
    rw [readAllAt, bindOk] at read
    obtain ⟨⟨token, _⟩, _, read⟩ := read
    obtain ⟨⟨tokens, _⟩, rest, last⟩ := bindOk.mp read
    cases last
    simp [ih rest]

end Decoder

/-- The documented ends of decoding so many bytes by types: a token for each type, a type that is nested
beyond the limit, or invalid data with the type that failed and its offset within the bytes. -/
inductive DecodingEnd (limit : Int) (types : List ParamType) (size : Nat) :
    Except Fault (List Token) → Prop
  | decoded {tokens} : tokens.length = types.length → DecodingEnd limit types size (.ok tokens)
  | tooDeep {type levels inner fault} : type ∈ types → Nested levels inner type → limit < levels →
      fault.report = .codec .unsupported ("type nesting exceeds max depth " ++ Decimal.text limit)
        [("type", .str inner.typeName), ("depth", .int levels)] →
      DecodingEnd limit types size (.error fault)
  | invalid {type levels inner fault message context} {offset : Int} : type ∈ types →
      Nested levels inner type → fault.report = .codec .invalidData message context →
      context.lookup "type" = some (.str inner.typeName) →
      context.lookup "offset" = some (.int offset) → 0 ≤ offset → offset ≤ size →
      DecodingEnd limit types size (.error fault)

theorem decodingEndOfFault {limit : Int} {types : List ParamType} {size : Nat} {fault : Fault}
    (closed : ParamType.allClosed types = true)
    (decoding : DecodingFault limit size (Decoder.Met 0 types) fault) :
    DecodingEnd limit types size (.error fault) := by
  cases decoding with
  | tooDeep met beyond =>
    obtain ⟨type, member, levels, same, nested⟩ := met
    rw [Nat.zero_add] at same
    subst same
    have named := ParamType.hasNameOfIsClosed _
      (ParamType.closedOfNested nested (ParamType.closedOfMem closed member))
    refine .tooDeep member nested beyond ?_
    rw [Fault.report, if_pos (by simpa [UnsupportedFault.types] using named)]
    rfl
  | invalid met located =>
    obtain ⟨type, member, levels, _, nested⟩ := met
    obtain ⟨offset, told, first, last⟩ := located.offset
    exact .invalid member nested (if_pos located.named) located.type told first last

/-- Decoding bytes within the payload limit by closed types without negative lengths ends in one of the
documented ways, whatever the bytes are and wherever they were resolved. -/
theorem decodeEnds (settings : Settings) (limit : Int) (strict : Bool) {types : List ParamType}
    {data : Bytes} (base : Int) (closed : ParamType.allClosed types = true)
    (counted : ParamType.allCounted types = true) (short : data.length ≤ settings.maxPayload) :
    DecodingEnd limit types data.length (decodeWithin settings limit strict types data base) := by
  let d : Decoder := ⟨data.toArray, base, limit, strict, settings.maxPayload⟩
  have same : decodeWithin settings limit strict types data base = d.read types 0 := by
    rw [decodeWithin, Decoder.makeOk.mpr ⟨short, rfl⟩]
    rfl
  have inside : d.Inside 0 := ⟨by omega, by omega⟩
  have ending := @Decoder.endingReadAllAt d types closed counted 0 0 inside
  rw [same, Decoder.read]
  cases outcome : d.readAllAt 0 0 types with
  | ok read => exact .decoded (Decoder.lengthOfReadAllAt outcome)
  | error fault =>
    rw [outcome] at ending
    exact decodingEndOfFault closed (by simpa [Decoder.Ending, Outcome.Ends, d] using ending)

theorem decodeEndsAtPointer :
    let types : List ParamType :=
      [.vector (.enum [.tuple [], .array (.primitive .u8) 0] [] "E" ["a", "b"])]
    let data := Word.bytes 124 ++ Word.bytes 7 ++ Word.bytes 1 ++ Word.bytes 2
    ParamType.allClosed types = true ∧ ParamType.allCounted types = true ∧
      data.length ≤ (Settings.ofEnvironment fun _ => none).maxPayload ∧
      decodeWithin (Settings.ofEnvironment fun _ => none) 1 true types data 100 =
        .error (.invalidData (.noVariantAt 2 2
          (some (.enum [.tuple [], .array (.primitive .u8) 0] [] "E" ["a", "b"], 24)))) ∧
      DecodingEnd 1 types data.length
        (decodeWithin (Settings.ofEnvironment fun _ => none) 1 true types data 100) := by
  intro types data
  have closed : ParamType.allClosed types = true := rfl
  have counted : ParamType.allCounted types = true := rfl
  have short : data.length ≤ (Settings.ofEnvironment fun _ => none).maxPayload := by decide
  refine ⟨closed, counted, short, ?_, decodeEnds _ 1 true 100 closed counted short⟩
  dsimp only [types, data]
  rfl

theorem negativeLengthEndsBefore :
    let types : List ParamType := [.string (-20), .primitive .u64]
    ParamType.allClosed types = true ∧
      decodeWithin (Settings.ofEnvironment fun _ => none) 64 true types [] 0 =
        .error (.invalidData (.shortBuffer (.primitive .u64) 8 (-16) 0)) ∧
      ¬ DecodingEnd 64 types 0 (decodeWithin (Settings.ofEnvironment fun _ => none) 64 true types [] 0) := by
  intro types
  have failed : decodeWithin (Settings.ofEnvironment fun _ => none) 64 true types [] 0 =
      .error (.invalidData (.shortBuffer (.primitive .u64) 8 (-16) 0)) := rfl
  refine ⟨rfl, failed, ?_⟩
  rw [failed]
  intro ends
  cases ends with
  | tooDeep _ _ _ report => cases report
  | invalid _ _ report _ told first _ =>
    cases report
    cases told
    contradiction

end WordAbi
