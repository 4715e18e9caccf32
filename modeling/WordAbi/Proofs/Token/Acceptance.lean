import WordAbi.Proofs.Decoder.Failure
import WordAbi.Proofs.Token.Written
/-! Which tokens are encoded. Main statement: tokens of the right shape are encoded exactly when none of them lies
below the limit and each holds what its kind asks for; otherwise the fault is told as one of the data or of the
nesting. -/
namespace WordAbi

namespace Primitive

def bits : Primitive → Nat
  | u8 => 8
  | u16 => 16
  | u32 => 32
  | byte => 8
  | _ => 64

def Holds (payload : Datum) : Primitive → Prop
  | unit => True
  | bool => ∃ b, payload = .bool b
  | b256 => ∃ bs, payload = .bytes bs ∧ bs.length = 32
  | p => ∃ n : Int, payload = .int n ∧ 0 ≤ n ∧ n < Nat.pow 2 p.bits

theorem capacityBits (p : Primitive) : Bytes.capacity (p.width?.getD 8) = Nat.pow 2 p.bits := by
  cases p <;> decide

end Primitive

def Fault.IsRefusal (fault : Fault) : Prop :=
  ∃ code message context, fault.report = .codec code message context ∧ (code = .invalidData ∨ code = .unsupported)

namespace Outcome

variable {α β : Type}

def Tests (good : Prop) (outcome : Except Fault α) : Prop :=
  Ends (fun _ => good) (fun fault => fault.IsRefusal ∧ ¬ good) outcome

variable {good more : Prop} {outcome : Except Fault α}

theorem testsOk (holds : good) (a : α) : Tests good (.ok a : Except Fault α) := holds

theorem testsIff (same : good ↔ more) (tests : Tests good outcome) : Tests more outcome :=
  endsMono tests (fun _ => same.mp) fun _ failed => ⟨failed.1, fun holds => failed.2 (same.mpr holds)⟩

theorem testsBind {next : α → Except Fault β} (first : Tests good outcome)
    (rest : ∀ a, outcome = .ok a → Tests more (next a)) : Tests (good ∧ more) (outcome >>= next) := by
  cases outcome with
  | error fault => exact ⟨first.1, fun both => first.2 both.1⟩
  | ok a =>
    have both : good ∧ more ↔ more := ⟨And.right, fun later => ⟨first, later⟩⟩
    exact testsIff both.symm (rest a rfl)

theorem succeedsIff (tests : Tests good outcome) : (∃ a, outcome = .ok a) ↔ good := by
  cases outcome with
  | error fault => simpa using tests.2
  | ok a => exact ⟨fun _ => tests, fun _ => ⟨a, rfl⟩⟩

theorem refusesIff (tests : Tests good outcome) :
    (∃ fault, outcome = .error fault ∧ fault.IsRefusal) ↔ ¬ good := by
  cases outcome with
  | error fault => exact ⟨fun _ => tests.2, fun _ => ⟨fault, rfl, tests.1⟩⟩
  | ok a => simpa using show good from tests

end Outcome

namespace Token
open Outcome Chunk

mutual

def headWidth : Token → Int
  | scalar p _ => p.size
  | string text _ => Word.paddedLength text.length
  | sequence .vector _ => ParamType.vectorHead
  | sequence _ items => headWidths items
  | enum _ _ variants => variants.width
  | misfit (.sequence .vector) _ => ParamType.vectorHead
  | misfit _ _ => 0
  | foreign _ => 0

def headWidths : List Token → Int
  | [] => 0
  | token :: tokens => headWidth token + headWidths tokens

end

theorem memOfVariant {variants : EnumVariants} {discriminant : Int} {type : ParamType}
    (found : variants.type? discriminant = some type) : type ∈ variants.types := by
  unfold EnumVariants.type? at found
  split at found
  · cases found
  · exact List.mem_of_getElem? found

inductive Nested : (level : Nat) → (node token : Token) → Prop
  | same (token) : Nested 0 token token
  | item {level node item items} (kind) : item ∈ items → Nested level node item →
      Nested (level + 1) node (.sequence kind items)
  | payload {level node payload} (discriminant variants) : Nested level node payload →
      Nested (level + 1) node (.enum discriminant payload variants)

/-- The token is of a known kind and holds what tokens of that kind are made of: an enum knows the types of its
variants, which are no more than a word counts. -/
def IsShaped : Token → Prop
  | enum _ _ variants => ParamType.allClosed variants.types = true ∧ variants.types.length ≤ Word.max + 1
  | misfit _ _ => False
  | foreign _ => False
  | _ => True

def IsSound : Token → Prop
  | scalar p payload => p.Holds payload
  | string text expected => (∀ c ∈ text.toList, c.toNat < 0x80) ∧ (text.length : Int) = expected
  | sequence _ _ => True
  | enum discriminant payload variants =>
    ∃ type, variants.type? discriminant = some type ∧ payload.headWidth = type.staticSize
  | _ => False

section

variable {holds : Nat → Token → Prop}

theorem nestedScalar {p : Primitive} {payload : Datum} :
    (∀ level node, Nested level node (scalar p payload) → holds level node) ↔ holds 0 (scalar p payload) := by
  constructor
  · exact fun all => all 0 _ (.same _)
  · intro here level node nested
    cases nested
    exact here

theorem nestedString {text : String} {expected : Int} :
    (∀ level node, Nested level node (string text expected) → holds level node) ↔ holds 0 (string text expected) := by
  constructor
  · exact fun all => all 0 _ (.same _)
  · intro here level node nested
    cases nested
    exact here

theorem nestedSequence {kind : SequenceKind} {items : List Token} :
    (∀ level node, Nested level node (sequence kind items) → holds level node) ↔
      holds 0 (sequence kind items) ∧
        ∀ item ∈ items, ∀ level node, Nested level node item → holds (level + 1) node := by
  constructor
  · intro all
    exact ⟨all 0 _ (.same _), fun item member level node nested => all _ node (.item kind member nested)⟩
  · intro here level node nested
    cases nested with
    | same => exact here.1
    | item _ member nested => exact here.2 _ member _ node nested

theorem nestedEnum {discriminant : Int} {payload : Token} {variants : EnumVariants} :
    (∀ level node, Nested level node (enum discriminant payload variants) → holds level node) ↔
      holds 0 (enum discriminant payload variants) ∧
        ∀ level node, Nested level node payload → holds (level + 1) node := by
  constructor
  · intro all
    exact ⟨all 0 _ (.same _), fun level node nested => all _ node (.payload discriminant variants nested)⟩
  · intro here level node nested
    cases nested with
    | same => exact here.1
    | payload _ _ nested => exact here.2 _ node nested

end

section

variable {limit : Int}

theorem headSizesScalar {p : Primitive} {payload : Datum} {chunks : List Chunk}
    (encoded : encodeScalar p payload = .ok chunks) : (headSizes chunks : Int) = p.size := by
  cases p with
  | unit =>
    cases encoded
    rfl
  | bool =>
    simp only [encodeScalar] at encoded
    split at encoded <;> cases encoded
    simp [headSize, Primitive.size]
  | b256 =>
    simp only [encodeScalar] at encoded
    split at encoded
    · split at encoded <;> cases encoded
      rename_i length
      simp [headSize, Primitive.size, length]
    · cases encoded
  | _ =>
    simp only [encodeScalar] at encoded
    split at encoded
    · split at encoded <;> cases encoded
      simp [headSize, Primitive.size]
    · cases encoded

theorem headSizesEnum {discriminant : Int} {variants : EnumVariants} {type : ParamType} {inner chunks : List Chunk}
    (found : variants.type? discriminant = some type)
    (laid : enumChunks discriminant variants type inner = .ok chunks) : (headSizes chunks : Int) = variants.width := by
  obtain ⟨_, wide, _, _, rfl⟩ := enumChunksOk.mp laid
  have narrow : type.staticSize ≤ variants.payloadWidth :=
    ParamType.leWidest (ParamType.memStaticSizes (memOfVariant found))
  simp only [List.cons_append, headSizesCons, headSize, Word.lengthBytes, headSizesAppend, headSizesFiller,
    EnumVariants.width]
  omega

mutual

theorem headWidthOfEncodeAt : (token : Token) → ∀ {depth : Nat} {chunks : List Chunk},
    encodeAt limit depth token = .ok chunks → (headSizes chunks : Int) = token.headWidth
  | .scalar p _, _, _, encoded => headSizesScalar (encodeScalarOk.mp encoded).2
  | .string text _, _, _, encoded => by
    obtain ⟨_, _, _, rfl⟩ := encodeStringOk.mp encoded
    simp [headSize, Word.lengthPad, lengthOfAscii, headWidth]
  | .sequence kind items, _, _, encoded => by
    cases kind with
    | vector =>
      obtain ⟨_, elements, _, rfl⟩ := encodeVectorOk.mp encoded
      rfl
    | _ => exact headWidthsOfEncodeAllAt items ((encodeSequenceOk (by decide)).mp encoded).2
  | .enum _ payload variants, _, _, encoded => by
    obtain ⟨_, type, found, inner, encoded, laid⟩ := encodeEnumOk.mp encoded
    exact headSizesEnum found laid
  | .misfit kind _, _, _, encoded => by
    obtain ⟨_, sort, rfl, _, rfl⟩ := encodeMisfitOk.mp encoded
    cases sort <;> rfl
  | .foreign _, _, _, encoded => by
    obtain ⟨_, _, refused⟩ := bindOk.mp encoded
    contradiction

theorem headWidthsOfEncodeAllAt : (tokens : List Token) → ∀ {depth : Nat} {chunks : List Chunk},
    encodeAllAt limit depth tokens = .ok chunks → (headSizes chunks : Int) = headWidths tokens
  | [], _, _, encoded => by
    cases encoded
    rfl
  | token :: tokens, _, _, encoded => by
    obtain ⟨first, rest, head, tail, rfl⟩ := encodeAllAtConsOk.mp encoded
    rw [headSizesAppend, Int.natCast_add, headWidthOfEncodeAt token head, headWidthsOfEncodeAllAt tokens tail]
    rfl

end

def Fits (limit : Int) (depth : Nat) (token : Token) : Prop :=
  ∀ level node, Nested level node token → (depth + level : Int) ≤ limit ∧ node.IsSound

section

variable {depth : Nat}

theorem fitsScalar {p : Primitive} {payload : Datum} :
    Fits limit depth (scalar p payload) ↔ (depth : Int) ≤ limit ∧ p.Holds payload := by
  rw [Fits, nestedScalar, Int.natCast_zero, Int.add_zero]
  rfl

theorem fitsString {text : String} {expected : Int} :
    Fits limit depth (string text expected) ↔
      (depth : Int) ≤ limit ∧ (∀ c ∈ text.toList, c.toNat < 0x80) ∧ (text.length : Int) = expected := by
  rw [Fits, nestedString, Int.natCast_zero, Int.add_zero]
  rfl

theorem fitsDeeper {token : Token} :
    (∀ level node, Nested level node token → (depth + (level + 1 : Nat) : Int) ≤ limit ∧ node.IsSound) ↔
      Fits limit (depth + 1) token := by
  have same : ∀ level : Nat, (depth + (level + 1 : Nat) : Int) = (depth + 1 : Nat) + level := by omega
  simp only [Fits, same]

theorem fitsSequence {kind : SequenceKind} {items : List Token} :
    Fits limit depth (sequence kind items) ↔
      (depth : Int) ≤ limit ∧ ∀ item ∈ items, Fits limit (depth + 1) item := by
  rw [Fits, nestedSequence, Int.natCast_zero, Int.add_zero]
  exact and_congr (and_iff_left trivial) (forall₂_congr fun _ _ => fitsDeeper)

theorem fitsEnum {discriminant : Int} {payload : Token} {variants : EnumVariants} :
    Fits limit depth (enum discriminant payload variants) ↔
      ((depth : Int) ≤ limit ∧
        ∃ type, variants.type? discriminant = some type ∧ payload.headWidth = type.staticSize) ∧
        Fits limit (depth + 1) payload := by
  rw [Fits, nestedEnum, Int.natCast_zero, Int.add_zero]
  exact and_congr Iff.rfl fitsDeeper

end

theorem testsDepth (limit : Int) (depth : Nat) : Tests ((depth : Int) ≤ limit) (checkDepth limit depth) := by
  unfold checkDepth
  split
  · exact ⟨⟨_, _, _, rfl, .inr rfl⟩, by omega⟩
  · exact testsOk (by omega) ()

theorem testsScalar (p : Primitive) (payload : Datum) : Tests (p.Holds payload) (encodeScalar p payload) := by
  cases p with
  | unit => exact testsOk trivial _
  | bool =>
    simp only [encodeScalar]
    split
    · exact testsOk ⟨_, rfl⟩ _
    · rename_i other
      refine ⟨⟨_, _, _, rfl, .inl rfl⟩, ?_⟩
      rintro ⟨b, rfl⟩
      exact other b rfl
  | b256 =>
    simp only [encodeScalar]
    split
    · split
      · rename_i length
        exact testsOk ⟨_, rfl, length⟩ _
      · rename_i length
        refine ⟨⟨_, _, _, rfl, .inl rfl⟩, ?_⟩
        rintro ⟨bytes, same, holds⟩
        cases same
        exact length holds
    · rename_i other
      refine ⟨⟨_, _, _, rfl, .inl rfl⟩, ?_⟩
      rintro ⟨bytes, rfl, _⟩
      exact other bytes rfl
  | _ =>
    simp only [encodeScalar, Primitive.capacityBits]
    split
    · split
      · rename_i range
        exact testsOk ⟨_, rfl, range.1, range.2⟩ _
      · rename_i range
        refine ⟨⟨_, _, _, rfl, .inl rfl⟩, ?_⟩
        rintro ⟨n, same, low, high⟩
        cases same
        exact range ⟨low, high⟩
    · rename_i other
      refine ⟨⟨_, _, _, rfl, .inl rfl⟩, ?_⟩
      rintro ⟨n, rfl, _⟩
      exact other n rfl

theorem testsText (text : String) (expected : Int) :
    Tests ((∀ c ∈ text.toList, c.toNat < 0x80) ∧ (text.length : Int) = expected) (checkedText text expected) := by
  cases outcome : checkedText text expected with
  | ok checked =>
    obtain ⟨ascii, length, _⟩ := checkedTextOk.mp outcome
    exact testsOk ⟨ascii, length⟩ _
  | error fault =>
    refine ⟨?_, ?_⟩
    · unfold checkedText at outcome
      split at outcome
      · split at outcome <;> cases outcome
        exact ⟨_, _, _, rfl, .inl rfl⟩
      · cases outcome
        exact ⟨_, _, _, rfl, .inl rfl⟩
    · rintro ⟨ascii, length⟩
      cases outcome.symm.trans (checkedTextOk.mpr ⟨ascii, length, rfl⟩)

theorem testsVariant (variants : EnumVariants) (discriminant : Int) :
    Tests (∃ type, variants.type? discriminant = some type) (variants.typeOf discriminant) := by
  unfold EnumVariants.typeOf
  split
  · rename_i type found
    exact testsOk ⟨type, found⟩ _
  · rename_i none
    exact ⟨⟨_, _, _, rfl, .inl rfl⟩, by simp [none]⟩

theorem typeOfOk {variants : EnumVariants} {discriminant : Int} {type : ParamType} :
    variants.typeOf discriminant = .ok type ↔ variants.type? discriminant = some type := by
  unfold EnumVariants.typeOf
  split <;> simp_all

theorem testsEnum {discriminant : Int} {variants : EnumVariants} {type : ParamType} {inner : List Chunk}
    (closed : ParamType.allClosed variants.types = true) (counted : variants.types.length ≤ Word.max + 1)
    (found : variants.type? discriminant = some type) :
    Tests ((headSizes inner : Int) = type.staticSize) (enumChunks discriminant variants type inner) := by
  have typeClosed := ParamType.closedOfMem closed (memOfVariant found)
  by_cases wide : (headSizes inner : Int) = type.staticSize
  · have word : 0 ≤ discriminant ∧ discriminant ≤ Word.max := by
      unfold EnumVariants.type? at found
      split at found
      · cases found
      · obtain ⟨below, _⟩ := List.getElem?_eq_some_iff.mp found
        omega
    have laid := enumChunksOk.mpr ⟨ParamType.hasSizeOfIsClosed type typeClosed, wide,
      ParamType.allHaveSizeOfAllClosed variants.types closed, word, rfl⟩
    rw [laid]
    exact testsOk wide _
  · have sized := ParamType.sizeOfHasSize (ParamType.hasSizeOfIsClosed type typeClosed)
    have named := ParamType.hasNameOfIsClosed type typeClosed
    refine endsAfter sized ?_
    rw [if_pos wide]
    refine ⟨⟨.invalidData, _, _, if_pos ?_, .inl rfl⟩, wide⟩
    simp [DataFault.types, named]

mutual

theorem testsEncodeAt : (token : Token) → (∀ level node, Nested level node token → node.IsShaped) →
    ∀ depth, Tests (Fits limit depth token) (encodeAt limit depth token)
  | .scalar p payload, _, depth => by
    have tests := testsBind (testsDepth limit depth) fun _ _ => testsScalar p payload
    exact testsIff fitsScalar.symm tests
  | .string text expected, _, depth => by
    have checks := testsBind (testsText text expected) fun checked _ =>
      testsOk trivial [Chunk.inline (Word.pad (Bytes.ofAscii checked))]
    refine testsIff ?_ (testsBind (testsDepth limit depth) fun _ _ => checks)
    rw [fitsString, and_true]
  | .sequence kind items, shaped, depth => by
    obtain ⟨_, deeper⟩ := nestedSequence.mp shaped
    have each := testsEncodeAllAt items deeper (depth + 1)
    cases kind with
    | vector =>
      have laid := testsBind each fun elements _ => testsOk trivial (vectorChunks elements items.length)
      rw [and_true] at laid
      exact testsIff fitsSequence.symm (testsBind (testsDepth limit depth) fun _ _ => laid)
    | _ => exact testsIff fitsSequence.symm (testsBind (testsDepth limit depth) fun _ _ => each)
  | .enum discriminant payload variants, shaped, depth => by
    obtain ⟨⟨closed, counted⟩, deeper⟩ := nestedEnum.mp shaped
    have laid : ∀ type, variants.typeOf discriminant = .ok type →
        Tests (∃ type, variants.type? discriminant = some type ∧ payload.headWidth = type.staticSize ∧
            Fits limit (depth + 1) payload)
          (encodeAt limit (depth + 1) payload >>= enumChunks discriminant variants type) := by
      intro type typed
      have found := typeOfOk.mp typed
      have wide : ∀ inner, encodeAt limit (depth + 1) payload = .ok inner →
          Tests (payload.headWidth = type.staticSize) (enumChunks discriminant variants type inner) := by
        intro inner encoded
        rw [← headWidthOfEncodeAt payload encoded]
        exact testsEnum closed counted found
      refine testsIff ?_ (testsBind (testsEncodeAt payload deeper (depth + 1)) wide)
      simp [found, and_comm]
    have chosen := testsBind (testsVariant variants discriminant) laid
    refine testsIff ?_ (testsBind (testsDepth limit depth) fun _ _ => chosen)
    rw [fitsEnum]
    constructor
    · rintro ⟨here, _, type, found, wide, fits⟩
      exact ⟨⟨here, type, found, wide⟩, fits⟩
    · rintro ⟨⟨here, type, found, wide⟩, fits⟩
      exact ⟨here, ⟨type, found⟩, type, found, wide, fits⟩
  | .misfit _ _, shaped, _ => (shaped 0 _ (.same _)).elim
  | .foreign _, shaped, _ => (shaped 0 _ (.same _)).elim

theorem testsEncodeAllAt : (tokens : List Token) →
    (∀ token ∈ tokens, ∀ level node, Nested level node token → node.IsShaped) →
    ∀ depth, Tests (∀ token ∈ tokens, Fits limit depth token) (encodeAllAt limit depth tokens)
  | [], _, _ => testsOk (by simp) _
  | token :: tokens, shaped, depth => by
    obtain ⟨here, later⟩ := List.forall_mem_cons.mp shaped
    have rest := fun first => testsBind (testsEncodeAllAt tokens later depth) fun chunks _ =>
      testsOk trivial (first ++ chunks)
    refine testsIff ?_ (testsBind (testsEncodeAt token here depth) fun first _ => rest first)
    rw [and_true, List.forall_mem_cons]

end

end

end Token

open Token Chunk Outcome

/-- Tokens of the right shape are encoded exactly when no node of theirs lies below the limit and each node is sound;
otherwise the outcome is a fault of the data or of the nesting. The width that an enum asks of its payload is that of
the payload's encoding. -/
theorem encodeAccepts (limit : Int) {tokens : List Token}
    (shaped : ∀ token ∈ tokens, ∀ level node, Nested level node token → node.IsShaped) :
    ((∃ chunks, encode limit tokens = .ok chunks) ↔
      ∀ token ∈ tokens, ∀ level node, Nested level node token → (level : Int) ≤ limit ∧ node.IsSound) ∧
    ((∃ fault, encode limit tokens = .error fault ∧ fault.IsRefusal) ↔
      ¬ ∀ token ∈ tokens, ∀ level node, Nested level node token → (level : Int) ≤ limit ∧ node.IsSound) ∧
    ∀ depth token chunks, encodeAt limit depth token = .ok chunks → (headSizes chunks : Int) = token.headWidth := by
  have tests : Tests (∀ token ∈ tokens, Fits limit 0 token) (encode limit tokens) := testsEncodeAllAt tokens shaped 0
  simp only [Fits, Int.natCast_zero, Int.zero_add] at tests
  exact ⟨succeedsIff tests, refusesIff tests, fun _ token _ encoded => headWidthOfEncodeAt token encoded⟩

theorem encodeAcceptsNested :
    let variants : EnumVariants := ⟨[.string 2, .tuple [.primitive .u8, .primitive .unit]], []⟩
    let choice (n : Int) : Token := .enum 1 (.sequence .tuple [.number .u8 n, .unit]) variants
    let tokens (n : Int) : List Token := [.bool true, .sequence .vector [choice n]]
    let met (limit n : Int) : Prop := ∀ token ∈ tokens n, ∀ level node, Nested level node token →
      (level : Int) ≤ limit ∧ node.IsSound
    (∀ n, ∀ token ∈ tokens n, ∀ level node, Nested level node token → node.IsShaped) ∧
      ((∃ chunks, encode 3 (tokens 255) = .ok chunks) ↔ met 3 255) ∧ met 3 255 ∧
      ((∃ fault, encode 3 (tokens 256) = .error fault ∧ fault.IsRefusal) ↔ ¬ met 3 256) ∧ ¬ met 3 256 ∧
      ((∃ fault, encode 2 (tokens 255) = .error fault ∧ fault.IsRefusal) ↔ ¬ met 2 255) ∧ ¬ met 2 255 := by
  intro variants choice tokens met
  have shaped : ∀ n, ∀ token ∈ tokens n, ∀ level node, Nested level node token → node.IsShaped := by
    intro n
    have parts : ∀ part ∈ [Token.number .u8 n, .unit], ∀ level node, Nested level node part → node.IsShaped :=
      List.forall_mem_cons.mpr ⟨nestedScalar.mpr trivial, List.forall_mem_singleton.mpr (nestedScalar.mpr trivial)⟩
    have chosen : ∀ level node, Nested level node (choice n) → node.IsShaped :=
      nestedEnum.mpr ⟨⟨rfl, by decide⟩, nestedSequence.mpr ⟨trivial, parts⟩⟩
    have vector : ∀ level node, Nested level node (.sequence .vector [choice n]) → node.IsShaped :=
      nestedSequence.mpr ⟨trivial, List.forall_mem_singleton.mpr chosen⟩
    exact List.forall_mem_cons.mpr ⟨nestedScalar.mpr trivial, List.forall_mem_singleton.mpr vector⟩
  have sound : ∃ chunks, encode 3 (tokens 255) = .ok chunks := ⟨_, rfl⟩
  have range : ∃ fault, encode 3 (tokens 256) = .error fault ∧ fault.IsRefusal :=
    ⟨_, rfl, _, _, _, rfl, .inl rfl⟩
  have deep : ∃ fault, encode 2 (tokens 255) = .error fault ∧ fault.IsRefusal :=
    ⟨_, rfl, _, _, _, rfl, .inr rfl⟩
  have first := (encodeAccepts 3 (shaped 255)).1
  have second := (encodeAccepts 3 (shaped 256)).2.1
  have third := (encodeAccepts 2 (shaped 255)).2.1
  exact ⟨shaped, first, first.mp sound, second, second.mp range, third, third.mp deep⟩

end WordAbi
