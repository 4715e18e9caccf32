import WordAbi.Proofs.Chunk.Relocation
import WordAbi.Proofs.Token.Value
/-! Values without pointers. Main statement: values of types that use no vectors are encoded as bytes alone, which are
the bytes of the values one after another and the same at every address. -/
namespace WordAbi

namespace Chunk

def inlines (parts : List Bytes) : List Chunk := parts.map .inline

def AreInline (chunks : List Chunk) : Prop := ∃ parts, chunks = inlines parts

theorem inlinesAppend (parts more : List Bytes) : inlines (parts ++ more) = inlines parts ++ inlines more :=
  List.map_append

theorem inlineAppend {chunks others : List Chunk} (first : AreInline chunks) (second : AreInline others) :
    AreInline (chunks ++ others) := by
  obtain ⟨parts, rfl⟩ := first
  obtain ⟨more, rfl⟩ := second
  exact ⟨parts ++ more, (inlinesAppend parts more).symm⟩

theorem placeInline (parts : List Bytes) (address : Nat) :
    placeAll (inlines parts) address = .ok (parts.flatten, []) := by
  induction parts with
  | nil => rfl
  | cons bytes parts ih => exact placeAllConsOk.mpr ⟨bytes, [], parts.flatten, [], rfl, ih, rfl, rfl⟩

theorem resolveInline (parts : List Bytes) {base : Int} (nonneg : 0 ≤ base) :
    resolve (inlines parts) base = .ok parts.flatten := by
  have placed := placeInline parts (base.toNat + headSizes (inlines parts))
  exact resolveOk.mpr ⟨nonneg, parts.flatten, [], placed, (List.append_nil _).symm⟩

theorem headSizesInline (parts : List Bytes) : headSizes (inlines parts) = parts.flatten.length := by
  induction parts with
  | nil => rfl
  | cons bytes parts ih =>
    rw [List.flatten_cons, List.length_append, ← ih]
    rfl

theorem pointersInline (parts : List Bytes) (head block : Nat) :
    allPointersFrom (inlines parts) head block = [] := by
  induction parts generalizing head with
  | nil => rfl
  | cons bytes parts ih => exact ih (head + bytes.length)

end Chunk

namespace Token
open Outcome Chunk

variable {limit : Int} {depth : Nat}

theorem inlineWord (n : Nat) : AreInline [.inline (Word.bytes n)] := ⟨[Word.bytes n], rfl⟩

theorem inlineFiller (count : Nat) : AreInline (filler count) := by
  unfold filler
  split
  · exact ⟨[], rfl⟩
  · exact ⟨[Bytes.zeros count], rfl⟩

theorem inlineOfEach {tokens : List Token} {chunks : List Chunk}
    (each : ∀ token ∈ tokens, ∀ own, encodeAt limit depth token = .ok own → AreInline own)
    (encoded : encodeAllAt limit depth tokens = .ok chunks) :
    ∃ parts : List (List Bytes), chunks = inlines parts.flatten ∧
      List.Forall₂ (fun token own => encodeAt limit depth token = .ok (inlines own)) tokens parts := by
  induction tokens generalizing chunks with
  | nil =>
    cases encoded
    exact ⟨[], rfl, .nil⟩
  | cons token tokens ih =>
    obtain ⟨first, rest, head, tail, rfl⟩ := encodeAllAtConsOk.mp encoded
    obtain ⟨here, later⟩ := List.forall_mem_cons.mp each
    obtain ⟨own, rfl⟩ := here first head
    obtain ⟨parts, rfl, others⟩ := ih later tail
    exact ⟨own :: parts, (inlinesAppend own parts.flatten).symm, .cons head others⟩

theorem inlineOfItems {tokens : List Token} {chunks : List Chunk}
    (each : ∀ token ∈ tokens, ∀ own, encodeAt limit depth token = .ok own → AreInline own)
    (encoded : encodeAllAt limit depth tokens = .ok chunks) : AreInline chunks := by
  obtain ⟨parts, same, _⟩ := inlineOfEach each encoded
  exact ⟨parts.flatten, same⟩

mutual

theorem inlineOfIsValue : (type : ParamType) → type.usesVectors = false → ∀ {depth : Nat} {token : Token},
    IsValue type token → ∀ chunks, encodeAt limit depth token = .ok chunks → AreInline chunks
  | .primitive _, _, _, _, value, _, encoded => by
    obtain ⟨payload, rfl⟩ := scalarOfValue value
    have within := (encodeScalarOk.mp encoded).1
    cases (encodeScalarValue value within).symm.trans encoded
    exact ⟨[_], rfl⟩
  | .string _, _, _, _, value, _, encoded => by
    obtain ⟨_, rfl, _⟩ := value
    obtain ⟨_, _, _, rfl⟩ := encodeStringOk.mp encoded
    exact ⟨[_], rfl⟩
  | .array element _, flat, _, _, value, _, encoded => by
    obtain ⟨items, rfl, _, _, values⟩ := value
    obtain ⟨_, encoded⟩ := (encodeSequenceOk (by decide)).mp encoded
    exact inlineOfItems (fun item member => inlineOfIsValue element flat (values item member)) encoded
  | .tuple elements, flat, _, _, value, _, encoded => by
    obtain ⟨items, rfl, values⟩ := value
    obtain ⟨_, encoded⟩ := (encodeSequenceOk (by decide)).mp encoded
    exact inlineOfItems (inlineOfAreValues elements flat values) encoded
  | .struct fields _ _ _, flat, _, _, value, _, encoded => by
    obtain ⟨items, rfl, values⟩ := value
    obtain ⟨_, encoded⟩ := (encodeSequenceOk (by decide)).mp encoded
    exact inlineOfItems (inlineOfAreValues fields flat values) encoded
  | .enum variants _ _ _, flat, _, _, value, _, encoded => by
    obtain ⟨_, _, rfl, _, _, value⟩ := value
    obtain ⟨_, _, _, inner, payload, laid⟩ := encodeEnumOk.mp encoded
    obtain ⟨_, _, _, _, rfl⟩ := enumChunksOk.mp laid
    have body := inlineOfVariant variants flat value inner payload
    exact inlineAppend (inlineAppend (inlineWord _) body) (inlineFiller _)
  | .unspecified, _, _, _, value, _, _ => value.elim

theorem inlineOfAreValues : (types : List ParamType) → ParamType.anyUsesVectors types = false →
    ∀ {depth : Nat} {tokens : List Token}, AreValues types tokens →
    ∀ token ∈ tokens, ∀ chunks, encodeAt limit depth token = .ok chunks → AreInline chunks
  | [], _, _, _, values => by
    obtain rfl := values
    simp
  | type :: types, flat, _, _, values => by
    simp only [ParamType.anyUsesVectors, Bool.or_eq_false_iff] at flat
    obtain ⟨token, tokens, rfl, value, values⟩ := values
    exact List.forall_mem_cons.mpr
      ⟨inlineOfIsValue type flat.1 value, inlineOfAreValues types flat.2 values⟩

theorem inlineOfVariant : (types : List ParamType) → ParamType.anyUsesVectors types = false →
    ∀ {depth index : Nat} {token : Token}, IsVariantValue types index token →
    ∀ chunks, encodeAt limit depth token = .ok chunks → AreInline chunks
  | [], _, _, _, _, value => value.elim
  | type :: _, flat, _, 0, _, value => by
    simp only [ParamType.anyUsesVectors, Bool.or_eq_false_iff] at flat
    exact inlineOfIsValue type flat.1 value
  | _ :: types, flat, _, index + 1, _, value => by
    simp only [ParamType.anyUsesVectors, Bool.or_eq_false_iff] at flat
    exact inlineOfVariant types flat.2 value

end

def ResolvesTo (limit : Int) (token : Token) (bytes : Bytes) : Prop :=
  ∃ chunks, encode limit [token] = .ok chunks ∧ ∀ base, 0 ≤ base → resolve chunks base = .ok bytes

theorem resolvesOfInline {token : Token} {parts : List Bytes}
    (encoded : encodeAt limit 0 token = .ok (inlines parts)) : ResolvesTo limit token parts.flatten := by
  have alone : encode limit [token] = .ok (inlines parts) :=
    encodeAllAtConsOk.mpr ⟨_, [], encoded, rfl, (List.append_nil _).symm⟩
  exact ⟨_, alone, fun _ nonneg => resolveInline parts nonneg⟩

end Token

open Token Chunk

/-- Values of types that use no vectors, nested within the limit, are encoded without a pointer. They resolve at every
address to the same bytes, as many as the types take together: those that the values resolve to alone, one after
another. So where the bytes at two addresses differ, one of the types uses vectors. -/
theorem resolveStatic {limit : Int} {types : List ParamType} {tokens : List Token} (values : AreValues types tokens)
    (nested : ∀ token ∈ tokens, (token.depth : Int) ≤ limit) :
    ((∀ type ∈ types, type.usesVectors = false) →
      ∃ chunks data, encode limit tokens = .ok chunks ∧ pointers chunks = [] ∧
        (∀ base, 0 ≤ base → resolve chunks base = .ok data) ∧
        (data.length : Int) = ParamType.total (ParamType.staticSizes types) ∧
        ∃ parts, List.Forall₂ (ResolvesTo limit) tokens parts ∧ data = parts.flatten) ∧
    ∀ {chunks : List Chunk} {base other : Int} {data moved : Bytes}, encode limit tokens = .ok chunks →
      resolve chunks base = .ok data → resolve chunks other = .ok moved → data ≠ moved →
      ∃ type ∈ types, type.usesVectors = true := by
  have within : Within limit 0 tokens := by
    intro token member
    have := nested token member
    omega
  have static : (∀ type ∈ types, type.usesVectors = false) →
      ∃ parts : List (List Bytes), encode limit tokens = .ok (inlines parts.flatten) ∧
        List.Forall₂ (fun token own => encodeAt limit 0 token = .ok (inlines own)) tokens parts := by
    intro plain
    have flat : ParamType.anyUsesVectors types = false := by
      simpa [ParamType.anyUsesVectorsEqAny] using plain
    obtain ⟨chunks, encoded, _⟩ := allEncodeOfAreValues types values within
    obtain ⟨parts, rfl, each⟩ := inlineOfEach (inlineOfAreValues types flat values) encoded
    exact ⟨parts, encoded, each⟩
  constructor
  · intro plain
    obtain ⟨parts, encoded, each⟩ := static plain
    obtain ⟨_, same, wide⟩ := allEncodeOfAreValues types values within
    obtain rfl := Except.ok.inj (encoded.symm.trans same)
    rw [headSizesInline] at wide
    have apart : List.Forall₂ (ResolvesTo limit) tokens (parts.map List.flatten) :=
      List.forall₂_map_right_iff.mpr (each.imp fun _ _ => resolvesOfInline)
    exact ⟨_, _, encoded, pointersInline _ _ _, fun _ nonneg => resolveInline _ nonneg, wide, _, apart,
      List.flatten_flatten⟩
  · intro chunks base other data moved encoded resolved again differ
    by_contra none
    obtain ⟨parts, same, _⟩ := static (by simpa using none)
    obtain rfl := Except.ok.inj (same.symm.trans encoded)
    have first := resolveInline parts.flatten (resolveOk.mp resolved).1
    have second := resolveInline parts.flatten (resolveOk.mp again).1
    exact differ (Except.ok.inj (resolved.symm.trans (first.trans (second.symm.trans again))))

theorem resolveStaticChoices :
    let variants : List ParamType := [.primitive .bool, .string 9]
    let pair : ParamType := .tuple [.primitive .u16, .string 3]
    let types : List ParamType := [.enum variants [] "Choice" [], .array pair 1]
    let tokens : List Token := [.enum 0 (.bool true) ⟨variants, []⟩,
      .sequence .array [.sequence .tuple [.number .u16 7, .string "abc" 3]]]
    let moving : List ParamType := [.vector (.primitive .u8)]
    AreValues types tokens ∧ (∀ token ∈ tokens, (token.depth : Int) ≤ 2) ∧
      (∀ type ∈ types, type.usesVectors = false) ∧
      (∃ chunks data, encode 2 tokens = .ok chunks ∧ pointers chunks = [] ∧
        (∀ base, 0 ≤ base → resolve chunks base = .ok data) ∧ (data.length : Int) = 40 ∧
        ∃ parts, List.Forall₂ (ResolvesTo 2) tokens parts ∧ data = parts.flatten) ∧
      ∃ chunks data moved, encode 0 [.sequence .vector []] = .ok chunks ∧ resolve chunks 0 = .ok data ∧
        resolve chunks 8 = .ok moved ∧ data ≠ moved ∧ ∃ type ∈ moving, type.usesVectors = true := by
  intro variants pair types tokens moving
  have row : IsValue pair (.sequence .tuple [.number .u16 7, .string "abc" 3]) :=
    ⟨_, rfl, _, _, rfl, ⟨7, rfl, by decide, by decide⟩, _, _, rfl, ⟨"abc", rfl, by simp, rfl⟩, rfl⟩
  have values : AreValues types tokens :=
    ⟨_, _, rfl, ⟨0, _, rfl, by decide, rfl, true, rfl⟩, _, _, rfl,
      ⟨_, rfl, rfl, rfl, List.forall_mem_singleton.mpr row⟩, rfl⟩
  have nested : ∀ token ∈ tokens, (token.depth : Int) ≤ 2 := by decide
  have plain : ∀ type ∈ types, type.usesVectors = false := by decide
  have static := (resolveStatic values nested).1 plain
  have empty : AreValues moving [.sequence .vector []] := ⟨_, _, rfl, ⟨[], rfl, rfl, by simp⟩, rfl⟩
  have flat : ∀ token ∈ [Token.sequence .vector []], (token.depth : Int) ≤ 0 := by decide
  have encoded : encode 0 [.sequence .vector []] = .ok (vectorChunks [] 0) := rfl
  have resolved : resolve (vectorChunks [] 0) 0 = .ok (Word.bytes 24 ++ (Word.bytes 0 ++ Word.bytes 0)) := rfl
  have again : resolve (vectorChunks [] 0) 8 = .ok (Word.bytes 32 ++ (Word.bytes 0 ++ Word.bytes 0)) := rfl
  have differ : Word.bytes 24 ++ (Word.bytes 0 ++ Word.bytes 0) ≠ Word.bytes 32 ++ (Word.bytes 0 ++ Word.bytes 0) := by
    decide
  have vectors := (resolveStatic empty flat).2 encoded resolved again differ
  exact ⟨values, nested, plain, static, _, _, _, encoded, resolved, again, differ, vectors⟩

end WordAbi
