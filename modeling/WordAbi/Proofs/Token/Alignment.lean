import WordAbi.Proofs.Token.Written
/-! Encodings are whole words. Main statement: values of types are encoded with a head as wide as the types say, each
enum as wide as its widest variant, and into as many whole words wherever the encoding is placed. -/
namespace WordAbi

namespace ParamType

theorem totalDvd {sizes : List Int} (each : ∀ size ∈ sizes, 8 ∣ size) : 8 ∣ total sizes := by
  induction sizes with
  | nil => exact Int.dvd_zero 8
  | cons size sizes ih =>
    obtain ⟨first, rest⟩ := List.forall_mem_cons.mp each
    exact Int.dvd_add first (ih rest)

theorem widestDvd {sizes : List Int} (each : ∀ size ∈ sizes, 8 ∣ size) : 8 ∣ widest sizes := by
  rw [widest]
  cases most : sizes.max? with
  | none => exact Int.dvd_zero 8
  | some size => exact each size (List.max?_eq_some_iff.mp most).1

mutual

theorem staticSizeDvd : (type : ParamType) → 8 ∣ type.staticSize
  | primitive p => by cases p <;> decide
  | string length => Word.paddedLengthDvd length
  | array element length => Int.dvd_mul_of_dvd_right (staticSizeDvd element)
  | vector _ => ⟨3, rfl⟩
  | tuple elements => totalDvd (staticSizesDvd elements)
  | struct fields _ _ _ => totalDvd (staticSizesDvd fields)
  | enum variants _ _ _ => Int.dvd_add (by decide) (widestDvd (staticSizesDvd variants))
  | unspecified => by decide

theorem staticSizesDvd : (types : List ParamType) → ∀ size ∈ staticSizes types, 8 ∣ size
  | [] => by simp [staticSizes]
  | type :: types => List.forall_mem_cons.mpr ⟨staticSizeDvd type, staticSizesDvd types⟩

end

end ParamType

namespace Chunk

mutual

def IsAligned : Chunk → Prop
  | inline bytes => 8 ∣ bytes.length
  | dynamic chunks => AllAligned chunks

def AllAligned : List Chunk → Prop
  | [] => True
  | chunk :: chunks => IsAligned chunk ∧ AllAligned chunks

end

theorem allAlignedAppend {chunks others : List Chunk} (first : AllAligned chunks) (second : AllAligned others) :
    AllAligned (chunks ++ others) := by
  induction chunks with
  | nil => exact second
  | cons chunk chunks ih => exact ⟨first.1, ih first.2⟩

theorem headSizesDvd {chunks : List Chunk} (aligned : AllAligned chunks) : 8 ∣ headSizes chunks := by
  induction chunks with
  | nil => exact Nat.dvd_zero 8
  | cons chunk chunks ih =>
    refine Nat.dvd_add ?_ (ih aligned.2)
    cases chunk with
    | inline bytes => exact aligned.1
    | dynamic elements => exact Nat.dvd_refl 8

mutual

theorem blockSizeDvd : (chunk : Chunk) → IsAligned chunk → 8 ∣ blockSize chunk
  | inline _, _ => Nat.dvd_zero 8
  | dynamic chunks, aligned => Nat.dvd_add (headSizesDvd aligned) (blockSizesDvd chunks aligned)

theorem blockSizesDvd : (chunks : List Chunk) → AllAligned chunks → 8 ∣ blockSizes chunks
  | [], _ => Nat.dvd_zero 8
  | chunk :: chunks, aligned => Nat.dvd_add (blockSizeDvd chunk aligned.1) (blockSizesDvd chunks aligned.2)

end

theorem totalSizeDvd {chunks : List Chunk} (aligned : AllAligned chunks) : 8 ∣ totalSize chunks :=
  Nat.dvd_add (headSizesDvd aligned) (blockSizesDvd chunks aligned)

end Chunk

namespace Token
open Outcome Chunk

variable {limit : Int}

theorem alignedWord (n : Nat) : IsAligned (.inline (Word.bytes n)) := by simp [IsAligned]

theorem alignedVector {elements : List Chunk} (aligned : AllAligned elements) (count : Nat) :
    AllAligned (vectorChunks elements count) :=
  ⟨aligned, alignedWord count, alignedWord count, trivial⟩

theorem alignedScalar {kind : Primitive} {payload : Datum} {chunks : List Chunk}
    (encoded : encodeScalar kind payload = .ok chunks) : AllAligned chunks := by
  cases kind with
  | unit =>
    cases encoded
    exact ⟨alignedWord 0, trivial⟩
  | bool =>
    simp only [encodeScalar] at encoded
    split at encoded <;> cases encoded
    exact ⟨alignedWord _, trivial⟩
  | b256 =>
    simp only [encodeScalar] at encoded
    split at encoded
    · split at encoded <;> cases encoded
      rename_i length
      exact ⟨by simp [IsAligned, length], trivial⟩
    · cases encoded
  | _ =>
    simp only [encodeScalar] at encoded
    split at encoded
    · split at encoded <;> cases encoded
      exact ⟨alignedWord _, trivial⟩
    · cases encoded

theorem alignedText (text : String) : IsAligned (.inline (Word.pad (Bytes.ofAscii text))) := by
  rw [IsAligned, ← Int.natCast_dvd_natCast, Word.lengthPad]
  exact Word.paddedLengthDvd _

theorem alignedFiller {count : Nat} (whole : 8 ∣ count) : AllAligned (filler count) := by
  unfold filler
  split
  · trivial
  · exact ⟨by simpa [IsAligned] using whole, trivial⟩

theorem alignedEnum {discriminant : Int} {variants : EnumVariants} {type : ParamType} {payload chunks : List Chunk}
    (aligned : AllAligned payload) (laid : enumChunks discriminant variants type payload = .ok chunks) :
    AllAligned chunks := by
  obtain ⟨_, _, _, _, rfl⟩ := enumChunksOk.mp laid
  have widest : 8 ∣ variants.payloadWidth := ParamType.widestDvd (ParamType.staticSizesDvd variants.types)
  have width := headSizesDvd aligned
  exact ⟨alignedWord _, allAlignedAppend aligned (alignedFiller (by omega))⟩

mutual

theorem alignedOfEncodeAt : (token : Token) → ∀ {depth : Nat} {chunks : List Chunk},
    encodeAt limit depth token = .ok chunks → AllAligned chunks
  | .scalar _ _, _, _, encoded => alignedScalar (encodeScalarOk.mp encoded).2
  | .string text _, _, _, encoded => by
    obtain ⟨_, _, _, rfl⟩ := encodeStringOk.mp encoded
    exact ⟨alignedText text, trivial⟩
  | .sequence kind items, _, _, encoded => by
    cases kind with
    | vector =>
      obtain ⟨_, elements, inner, rfl⟩ := encodeVectorOk.mp encoded
      exact alignedVector (alignedOfEncodeAllAt items inner) items.length
    | _ => exact alignedOfEncodeAllAt items ((encodeSequenceOk (by decide)).mp encoded).2
  | .enum _ payload _, _, _, encoded => by
    obtain ⟨_, _, _, _, inner, laid⟩ := encodeEnumOk.mp encoded
    exact alignedEnum (alignedOfEncodeAt payload inner) laid
  | .misfit _ _, _, _, encoded => by
    obtain ⟨_, sort, _, _, rfl⟩ := encodeMisfitOk.mp encoded
    split
    · exact alignedVector (show AllAligned [] from trivial) 0
    · trivial
  | .foreign _, _, _, encoded => by
    obtain ⟨_, _, refused⟩ := bindOk.mp encoded
    contradiction

theorem alignedOfEncodeAllAt : (tokens : List Token) → ∀ {depth : Nat} {chunks : List Chunk},
    encodeAllAt limit depth tokens = .ok chunks → AllAligned chunks
  | [], _, _, encoded => by
    cases encoded
    trivial
  | token :: tokens, _, _, encoded => by
    obtain ⟨_, _, head, tail, rfl⟩ := encodeAllAtConsOk.mp encoded
    exact allAlignedAppend (alignedOfEncodeAt token head) (alignedOfEncodeAllAt tokens tail)

end

mutual

theorem hasSizeOfIsValue : (type : ParamType) → ∀ {token : Token}, IsValue type token → type.hasSize = true
  | .primitive _, _, _ => rfl
  | .string _, _, _ => rfl
  | .array element _, _, value => by
    obtain ⟨_, _, _, sized, _⟩ := value
    exact sized
  | .vector _, _, _ => rfl
  | .tuple elements, _, value => by
    obtain ⟨_, _, values⟩ := value
    exact allHaveSizeOfAreValues elements values
  | .struct fields _ _ _, _, value => by
    obtain ⟨_, _, values⟩ := value
    exact allHaveSizeOfAreValues fields values
  | .enum variants _ _ _, _, value => by
    obtain ⟨_, _, _, _, sized, _⟩ := value
    exact sized
  | .unspecified, _, value => value.elim

theorem allHaveSizeOfAreValues : (types : List ParamType) → ∀ {tokens : List Token}, AreValues types tokens →
    ParamType.allHaveSize types = true
  | [], _, _ => rfl
  | type :: types, _, values => by
    obtain ⟨_, _, _, value, values⟩ := values
    rw [ParamType.allHaveSize, hasSizeOfIsValue type value, allHaveSizeOfAreValues types values]
    rfl

end

end Token

open Token Chunk

/-- Values of types that nest within the limit are encoded, with a head as wide as the sizes of the types together.
Every such size is whole words. A value of an enum, however deep it stands and whichever variant it is, is a word
wider than the widest variant. Wherever the encoding resolves, the buffer is whole words, as many as anywhere else. -/
theorem encodeWidth {limit : Int} {types : List ParamType} {tokens : List Token} (values : AreValues types tokens)
    (nested : ∀ token ∈ tokens, (token.depth : Int) ≤ limit) :
    (∃ chunks, encode limit tokens = .ok chunks ∧
      (∀ type ∈ types, type.size = .ok type.staticSize) ∧
      (headSizes chunks : Int) = ParamType.total (ParamType.staticSizes types) ∧
      8 ∣ totalSize chunks ∧ ∀ base data, resolve chunks base = .ok data → data.length = totalSize chunks) ∧
    (∀ type : ParamType, 8 ∣ type.staticSize) ∧
    ∀ {variants generics : List ParamType} {name : String} {names : List String} {depth : Nat} {token : Token},
      IsValue (.enum variants generics name names) token → (depth + token.depth : Int) ≤ limit →
        EncodesIn limit depth (8 + ParamType.widest (ParamType.staticSizes variants)) token := by
  refine ⟨?_, ParamType.staticSizeDvd, fun value within => encodesOfIsValue _ value within⟩
  have within : Within limit 0 tokens := by
    intro token member
    have := nested token member
    omega
  have sized := allHaveSizeOfAreValues types values
  rw [ParamType.allHaveSizeEqAll, List.all_eq_true] at sized
  obtain ⟨chunks, encoded, wide⟩ := allEncodeOfAreValues types values within
  exact ⟨chunks, encoded, fun type member => ParamType.sizeOfHasSize (sized type member), wide,
    totalSizeDvd (alignedOfEncodeAllAt tokens encoded), fun _ _ resolved => lengthResolve resolved⟩

theorem encodeWidthNested :
    let variants : List ParamType := [.primitive .bool, .vector (.string 3)]
    let types : List ParamType := [.enum variants [] "Choice" [], .array (.primitive .b256) 0, .string 9]
    let tokens : List Token := [.enum 1 (.sequence .vector [.string "abc" 3]) ⟨variants, []⟩, .sequence .array [],
      .string "character" 9]
    AreValues types tokens ∧ (∀ token ∈ tokens, (token.depth : Int) ≤ 2) ∧
      ∃ chunks data, encode 2 tokens = .ok chunks ∧ (headSizes chunks : Int) = 48 ∧ 8 ∣ totalSize chunks ∧
        resolve chunks 1000 = .ok data ∧ data.length = totalSize chunks := by
  intro variants types tokens
  have string : IsValue (.string 3) (.string "abc" 3) := ⟨"abc", rfl, by simp, rfl⟩
  have values : AreValues types tokens := by
    refine ⟨_, _, rfl, ⟨1, _, rfl, by decide, rfl, _, rfl, rfl, List.forall_mem_singleton.mpr string⟩, _, _, rfl,
      ⟨[], rfl, rfl, rfl, by simp⟩, _, _, rfl, ⟨"character", rfl, by simp, rfl⟩, rfl⟩
  have nested : ∀ token ∈ tokens, (token.depth : Int) ≤ 2 := by decide
  obtain ⟨⟨chunks, encoded, _, wide, whole, same⟩, _⟩ := encodeWidth values nested
  have resolved : ∃ data, resolve chunks 1000 = .ok data := by
    cases encoded
    exact ⟨_, rfl⟩
  obtain ⟨data, resolved⟩ := resolved
  exact ⟨values, nested, chunks, data, encoded, wide, whole, resolved, same 1000 data resolved⟩

end WordAbi
