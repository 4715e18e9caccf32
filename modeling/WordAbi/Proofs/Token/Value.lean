import WordAbi.Proofs.Chunk.Layout
import WordAbi.Token.Encoding
/-! Which tokens are values of a type, and how they are encoded. A value nested within the limit is
encoded, and its head is as wide as the static size of its type. -/
namespace WordAbi

namespace ParamType

theorem leWidest {size : Int} {sizes : List Int} (member : size ∈ sizes) : size ≤ widest sizes := by
  cases most : sizes.max? with
  | none => simp [List.max?_eq_none_iff.mp most] at member
  | some most' => simpa [widest, most] using (List.max?_eq_some_iff.mp most).2 size member

theorem memStaticSizes {type : ParamType} {types : List ParamType} (member : type ∈ types) :
    type.staticSize ∈ staticSizes types := by
  rw [staticSizesEqMap]
  exact List.mem_map.mpr ⟨type, member, rfl⟩

end ParamType

namespace Token
open Outcome Chunk

def IsScalarValue (p : Primitive) (token : Token) : Prop :=
  match p with
  | .unit => token = .unit
  | .bool => ∃ b, token = .bool b
  | .b256 => ∃ bs, token = .b256 bs ∧ bs.length = 32
  | p => ∃ n : Int, token = .number p n ∧ 0 ≤ n ∧ n < Bytes.capacity (p.width?.getD 8)

theorem scalarOfValue {p : Primitive} {token : Token} (value : IsScalarValue p token) :
    ∃ payload, token = .scalar p payload := by
  cases p with
  | unit => exact ⟨_, value⟩
  | bool => obtain ⟨b, rfl⟩ := value; exact ⟨_, rfl⟩
  | b256 => obtain ⟨bs, rfl, _⟩ := value; exact ⟨_, rfl⟩
  | _ => obtain ⟨n, rfl, _⟩ := value; exact ⟨_, rfl⟩

mutual

/-- The token has the kind, arity and variants of the type, everything in it is in range, and its
parts are values of the parts of the type. The type of what a sequence repeats, or of what an enum
chooses from, has a size; a discriminant fits into a word. -/
def IsValue : ParamType → Token → Prop
  | .primitive p, token => IsScalarValue p token
  | .string length, token =>
    ∃ text, token = .string text length ∧ (∀ c ∈ text.toList, c.toNat < 0x80) ∧
      (text.length : Int) = length
  | .array element length, token =>
    ∃ items, token = .sequence .array items ∧ (items.length : Int) = length ∧
      element.hasSize = true ∧ ∀ item ∈ items, IsValue element item
  | .vector element, token =>
    ∃ items, token = .sequence .vector items ∧ element.hasSize = true ∧
      ∀ item ∈ items, IsValue element item
  | .tuple elements, token => ∃ items, token = .sequence .tuple items ∧ AreValues elements items
  | .struct fields _ _ _, token => ∃ items, token = .sequence .struct items ∧ AreValues fields items
  | .enum variants _ _ names, token =>
    ∃ (index : Nat) (payload : Token), token = .enum index payload ⟨variants, names⟩ ∧
      index ≤ Word.max ∧ ParamType.allHaveSize variants = true ∧ IsVariantValue variants index payload
  | .unspecified, _ => False

def AreValues : List ParamType → List Token → Prop
  | [], tokens => tokens = []
  | type :: types, tokens => ∃ first rest, tokens = first :: rest ∧ IsValue type first ∧ AreValues types rest

def IsVariantValue : List ParamType → Nat → Token → Prop
  | [], _, _ => False
  | type :: _, 0, token => IsValue type token
  | _ :: types, index + 1, token => IsVariantValue types index token

end

def filler (count : Nat) : List Chunk := if count = 0 then [] else [.inline (Bytes.zeros count)]

theorem headSizesFiller (count : Nat) : headSizes (filler count) = count := by
  unfold filler
  split
  · simp_all
  · simp [headSize]

theorem blockSizesFiller (count : Nat) : blockSizes (filler count) = 0 := by
  unfold filler
  split <;> rfl

mutual

def depth : Token → Nat
  | sequence _ items => depths items
  | enum _ payload _ => depth payload + 1
  | _ => 0

def depths : List Token → Nat
  | [] => 0
  | token :: tokens => max (depth token + 1) (depths tokens)

end

theorem depthsLe {tokens : List Token} {n : Nat} :
    depths tokens ≤ n ↔ ∀ token ∈ tokens, token.depth + 1 ≤ n := by
  induction tokens with
  | nil => simp [depths]
  | cons token tokens ih => simp only [depths, Nat.max_le, ih, List.forall_mem_cons]

def Within (limit : Int) (depth : Nat) (tokens : List Token) : Prop :=
  ∀ token ∈ tokens, (depth + token.depth : Int) ≤ limit

theorem withinItems {limit : Int} {depth : Nat} {kind : SequenceKind} {items : List Token}
    (within : (depth + (sequence kind items).depth : Int) ≤ limit) : Within limit (depth + 1) items := by
  intro item member
  have below := depthsLe.mp (Nat.le_refl (depths items)) item member
  rw [Token.depth] at within
  omega

theorem sequenceWithin {limit : Int} {depth : Nat} {kind : SequenceKind} {items : List Token}
    (here : (depth : Int) ≤ limit) (deeper : Within limit (depth + 1) items) :
    (depth + (sequence kind items).depth : Int) ≤ limit := by
  have most : depths items ≤ (limit - depth).toNat := by
    rw [depthsLe]
    intro item member
    have := deeper item member
    omega
  rw [Token.depth]
  omega

theorem checkDepthOk {limit : Int} {depth : Nat} {u : Unit} :
    checkDepth limit depth = .ok u ↔ (depth : Int) ≤ limit := by
  unfold checkDepth
  split
  · simp only [reduceCtorEq, false_iff]
    omega
  · simp only [true_iff]
    omega

theorem checkedTextOk {text checked : String} {expected : Int} :
    checkedText text expected = .ok checked ↔
      (∀ c ∈ text.toList, c.toNat < 0x80) ∧ (text.length : Int) = expected ∧ checked = text := by
  unfold checkedText
  split
  · rename_i ascii
    have all : ∀ c ∈ text.toList, c.toNat < 0x80 := by simpa using ascii
    split
    · rename_i length
      simp only [Except.ok.injEq]
      exact ⟨fun same => ⟨all, length, same.symm⟩, fun h => h.2.2.symm⟩
    · rename_i length
      simp only [reduceCtorEq, false_iff]
      exact fun h => length h.2.1
  · rename_i ascii
    simp only [reduceCtorEq, false_iff]
    exact fun h => ascii (by simpa using h.1)

def EncodesIn (limit : Int) (depth : Nat) (width : Int) (token : Token) : Prop :=
  ∃ chunks, encodeAt limit depth token = .ok chunks ∧ (headSizes chunks : Int) = width

def AllEncodeIn (limit : Int) (depth : Nat) (width : Int) (tokens : List Token) : Prop :=
  ∃ chunks, encodeAllAt limit depth tokens = .ok chunks ∧ (headSizes chunks : Int) = width

section

variable {limit : Int} {depth : Nat}

theorem encodeAllAtConsOk {token : Token} {tokens : List Token} {chunks : List Chunk} :
    encodeAllAt limit depth (token :: tokens) = .ok chunks ↔
      ∃ first rest, encodeAt limit depth token = .ok first ∧
        encodeAllAt limit depth tokens = .ok rest ∧ chunks = first ++ rest := by
  simp only [encodeAllAt, bindOk, Except.ok.injEq]
  constructor
  · rintro ⟨first, head, rest, tail, rfl⟩
    exact ⟨first, rest, head, tail, rfl⟩
  · rintro ⟨first, rest, head, tail, rfl⟩
    exact ⟨first, head, rest, tail, rfl⟩

theorem encodeSequenceOk {kind : SequenceKind} {items : List Token} {chunks : List Chunk}
    (inline : kind ≠ .vector) :
    encodeAt limit depth (sequence kind items) = .ok chunks ↔
      (depth : Int) ≤ limit ∧ encodeAllAt limit (depth + 1) items = .ok chunks := by
  cases kind with
  | vector => contradiction
  | _ => simp [encodeAt, bindOk, checkDepthOk]

theorem encodeVectorOk {items : List Token} {chunks : List Chunk} :
    encodeAt limit depth (sequence .vector items) = .ok chunks ↔
      (depth : Int) ≤ limit ∧ ∃ elements, encodeAllAt limit (depth + 1) items = .ok elements ∧
        vectorChunks elements items.length = chunks := by
  simp [encodeAt, bindOk, checkDepthOk]

theorem encodeStringOk {text : String} {expected : Int} {chunks : List Chunk} :
    encodeAt limit depth (string text expected) = .ok chunks ↔
      (depth : Int) ≤ limit ∧ (∀ c ∈ text.toList, c.toNat < 0x80) ∧ (text.length : Int) = expected ∧
        [.inline (Word.pad (Bytes.ofAscii text))] = chunks := by
  simp only [encodeAt, bindOk, checkDepthOk, checkedTextOk, exists_const, Except.ok.injEq]
  constructor
  · rintro ⟨within, _, ⟨ascii, length, rfl⟩, same⟩
    exact ⟨within, ascii, length, same⟩
  · rintro ⟨within, ascii, length, same⟩
    exact ⟨within, text, ⟨ascii, length, rfl⟩, same⟩

theorem encodeEnumOk {discriminant : Int} {payload : Token} {variants : EnumVariants}
    {chunks : List Chunk} :
    encodeAt limit depth (enum discriminant payload variants) = .ok chunks ↔
      (depth : Int) ≤ limit ∧ ∃ type, variants.type? discriminant = some type ∧
        ∃ inner, encodeAt limit (depth + 1) payload = .ok inner ∧
          enumChunks discriminant variants type inner = .ok chunks := by
  simp only [encodeAt, bindOk, checkDepthOk, EnumVariants.typeOf, exists_const]
  cases found : variants.type? discriminant with
  | none => simp
  | some type => simp

theorem encodesInSequence {kind : SequenceKind} {items : List Token} {width : Int}
    (inline : kind ≠ .vector) (within : (depth : Int) ≤ limit)
    (encodes : AllEncodeIn limit (depth + 1) width items) :
    EncodesIn limit depth width (sequence kind items) := by
  obtain ⟨chunks, encoded, wide⟩ := encodes
  exact ⟨chunks, (encodeSequenceOk inline).mpr ⟨within, encoded⟩, wide⟩

theorem encodesInVector {items : List Token} {width : Int} (within : (depth : Int) ≤ limit)
    (encodes : AllEncodeIn limit (depth + 1) width items) :
    EncodesIn limit depth ParamType.vectorHead (sequence .vector items) := by
  obtain ⟨elements, encoded, _⟩ := encodes
  refine ⟨_, encodeVectorOk.mpr ⟨within, elements, encoded, rfl⟩, ?_⟩
  simp [vectorChunks, headSize, ParamType.vectorHead]

theorem enumChunksOk {discriminant : Int} {variants : EnumVariants} {type : ParamType}
    {payload chunks : List Chunk} :
    enumChunks discriminant variants type payload = .ok chunks ↔
      type.hasSize = true ∧ (headSizes payload : Int) = type.staticSize ∧
        ParamType.allHaveSize variants.types = true ∧ (0 ≤ discriminant ∧ discriminant ≤ Word.max) ∧
        .inline (Word.bytes discriminant.toNat) :: payload
          ++ filler (variants.payloadWidth - headSizes payload).toNat = chunks := by
  simp only [enumChunks, ParamType.size, EnumVariants.payloadSize, filler]
  by_cases sized : type.hasSize = true
  · by_cases wide : (headSizes payload : Int) = type.staticSize
    · by_cases all : ParamType.allHaveSize variants.types = true
      · simp [sized, wide, all, bindOk, Word.checkedOkIff, and_assoc]
      · simp [sized, wide, all, bindOk]
    · simp [sized, wide, bindOk]
  · simp [sized, bindOk]

theorem encodesInEnum {index : Nat} {payload : Token} (variants : EnumVariants) {type : ParamType}
    (within : (depth : Int) ≤ limit) (found : variants.types[index]? = some type)
    (sized : ParamType.allHaveSize variants.types = true) (fits : index ≤ Word.max)
    (encodes : EncodesIn limit (depth + 1) type.staticSize payload) :
    EncodesIn limit depth variants.width (enum index payload variants) := by
  obtain ⟨inner, encoded, wide⟩ := encodes
  have member := List.mem_of_getElem? found
  have typeSized : type.hasSize = true := by
    rw [ParamType.allHaveSizeEqAll, List.all_eq_true] at sized
    exact sized type member
  have narrow : (headSizes inner : Int) ≤ variants.payloadWidth := by
    rw [wide]
    exact ParamType.leWidest (ParamType.memStaticSizes member)
  refine ⟨_, encodeEnumOk.mpr ⟨within, type, ?_, inner, encoded,
    enumChunksOk.mpr ⟨typeSized, wide, sized, ⟨by omega, by omega⟩, rfl⟩⟩, ?_⟩
  · rw [EnumVariants.typeOfNat, found]
  · simp only [List.cons_append, headSizesCons, headSize, Word.lengthBytes, headSizesAppend,
      headSizesFiller, EnumVariants.width]
    omega

theorem allEncodeOfEach {width : Int} {tokens : List Token}
    (each : ∀ token ∈ tokens, EncodesIn limit depth width token) :
    AllEncodeIn limit depth (tokens.length * width) tokens := by
  induction tokens with
  | nil => exact ⟨[], rfl, by simp⟩
  | cons token tokens ih =>
    obtain ⟨first, head, wide⟩ := each token (by simp)
    obtain ⟨rest, tail, wides⟩ := ih fun t member => each t (by simp [member])
    refine ⟨first ++ rest, encodeAllAtConsOk.mpr ⟨first, rest, head, tail, rfl⟩, ?_⟩
    simp only [headSizesAppend, List.length_cons, Int.natCast_add, wide, wides]
    rw [Int.natCast_one, Int.add_mul]
    omega

theorem encodeScalarOk {p : Primitive} {payload : Datum} {chunks : List Chunk} :
    encodeAt limit depth (scalar p payload) = .ok chunks ↔
      (depth : Int) ≤ limit ∧ encodeScalar p payload = .ok chunks := by
  simp [encodeAt, bindOk, checkDepthOk]

def scalarBytes : Token → Bytes
  | scalar _ (.bool b) => Word.bytes (if b then 1 else 0)
  | scalar _ (.int n) => Word.bytes n.toNat
  | scalar _ (.bytes bs) => bs
  | _ => Word.bytes 0

theorem encodeScalarValue {p : Primitive} {token : Token} (value : IsScalarValue p token)
    (within : (depth : Int) ≤ limit) :
    encodeAt limit depth token = .ok [.inline (scalarBytes token)] := by
  cases p with
  | unit =>
    subst value
    exact encodeScalarOk.mpr ⟨within, rfl⟩
  | bool =>
    obtain ⟨b, rfl⟩ := value
    exact encodeScalarOk.mpr ⟨within, rfl⟩
  | b256 =>
    obtain ⟨bs, rfl, length⟩ := value
    exact encodeScalarOk.mpr ⟨within, if_pos length⟩
  | _ =>
    obtain ⟨n, rfl, low, high⟩ := value
    exact encodeScalarOk.mpr ⟨within, if_pos ⟨low, high⟩⟩

theorem lengthScalarBytes {p : Primitive} {token : Token} (value : IsScalarValue p token) :
    ((scalarBytes token).length : Int) = p.size := by
  cases p with
  | unit => subst value; simp [scalarBytes, unit, Primitive.size]
  | bool => obtain ⟨b, rfl⟩ := value; simp [scalarBytes, bool, Primitive.size]
  | b256 => obtain ⟨bs, rfl, length⟩ := value; simp [scalarBytes, b256, Primitive.size, length]
  | _ => obtain ⟨n, rfl, _, _⟩ := value; simp [scalarBytes, number, Primitive.size]

theorem lengthOfAscii (text : String) : (Bytes.ofAscii text).length = text.length := by
  rw [Bytes.ofAscii, List.length_map, String.length_toList]

mutual

theorem encodesOfIsValue : (type : ParamType) → ∀ {depth : Nat} {token : Token},
    IsValue type token → (depth + token.depth : Int) ≤ limit →
    EncodesIn limit depth type.staticSize token
  | .primitive p, depth, token, value, within => by
    refine ⟨_, encodeScalarValue value (by omega), ?_⟩
    simp [headSize, lengthScalarBytes value, ParamType.staticSize]
  | .string length, depth, token, value, within => by
    obtain ⟨text, rfl, ascii, length⟩ := value
    refine ⟨_, encodeStringOk.mpr ⟨by omega, ascii, length, rfl⟩, ?_⟩
    simp [headSize, Word.lengthPad, lengthOfAscii, length, ParamType.staticSize]
  | .array element length, depth, token, value, within => by
    obtain ⟨items, rfl, length, _, values⟩ := value
    have deeper := withinItems within
    have all := allEncodeOfEach fun item member =>
      encodesOfIsValue element (values item member) (deeper item member)
    rw [length] at all
    exact encodesInSequence (by decide) (by omega) all
  | .vector element, depth, token, value, within => by
    obtain ⟨items, rfl, _, values⟩ := value
    have deeper := withinItems within
    have all := allEncodeOfEach fun item member =>
      encodesOfIsValue element (values item member) (deeper item member)
    exact encodesInVector (by omega) all
  | .tuple elements, depth, token, value, within => by
    obtain ⟨items, rfl, values⟩ := value
    exact encodesInSequence (by decide) (by omega)
      (allEncodeOfAreValues elements values (withinItems within))
  | .struct fields _ _ _, depth, token, value, within => by
    obtain ⟨items, rfl, values⟩ := value
    exact encodesInSequence (by decide) (by omega)
      (allEncodeOfAreValues fields values (withinItems within))
  | .enum variants _ _ names, depth, token, value, within => by
    obtain ⟨index, payload, rfl, fits, sized, value⟩ := value
    rw [Token.depth] at within
    have below : ((depth + 1 : Nat) + payload.depth : Int) ≤ limit := by omega
    obtain ⟨type, found, encodes⟩ := variantEncodes variants value below
    exact encodesInEnum ⟨variants, names⟩ (by omega) found sized fits encodes
  | .unspecified, _, _, value, _ => value.elim

theorem allEncodeOfAreValues : (types : List ParamType) → ∀ {depth : Nat} {tokens : List Token},
    AreValues types tokens → Within limit depth tokens →
    AllEncodeIn limit depth (ParamType.total (ParamType.staticSizes types)) tokens
  | [], depth, tokens, values, within => by
    obtain rfl := values
    exact ⟨[], rfl, rfl⟩
  | type :: types, depth, tokens, values, within => by
    obtain ⟨token, tokens, rfl, value, values⟩ := values
    obtain ⟨here, later⟩ := List.forall_mem_cons.mp within
    obtain ⟨first, head, wide⟩ := encodesOfIsValue type value here
    obtain ⟨rest, tail, wides⟩ := allEncodeOfAreValues types values later
    refine ⟨first ++ rest, encodeAllAtConsOk.mpr ⟨first, rest, head, tail, rfl⟩, ?_⟩
    simp [ParamType.staticSizes, ParamType.total, wide, wides]

theorem variantEncodes : (types : List ParamType) → ∀ {depth index : Nat} {token : Token},
    IsVariantValue types index token → (depth + token.depth : Int) ≤ limit →
    ∃ type, types[index]? = some type ∧ EncodesIn limit depth type.staticSize token
  | [], _, _, _, value, _ => value.elim
  | type :: _, _, 0, _, value, within => ⟨type, rfl, encodesOfIsValue type value within⟩
  | _ :: types, _, _ + 1, _, value, within => variantEncodes types value within

end

end

end Token

end WordAbi
