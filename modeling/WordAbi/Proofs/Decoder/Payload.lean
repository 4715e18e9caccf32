import WordAbi.Proofs.Decoder.Soundness
import WordAbi.Proofs.Token.Written
/-! The payload of an enum. An encoder asks no more of it than to be as wide as the variant that is selected; a
decoder gives it back when it is a value of the variant, and by types without negative lengths only then. -/
namespace WordAbi

namespace Token

theorem isVariantValueIff {types : List ParamType} {index : Nat} {token : Token} :
    IsVariantValue types index token ↔ ∃ type, types[index]? = some type ∧ IsValue type token := by
  induction types generalizing index with
  | nil => simp [IsVariantValue]
  | cons type types ih =>
    cases index with
    | zero => simp [IsVariantValue]
    | succ index => simpa [IsVariantValue] using ih

theorem sparseVariantIff {limit : Nat} {types : List ParamType} {index : Nat} {type : ParamType} {token : Token}
    (found : types[index]? = some type) : SparseVariant limit types index token ↔ Sparse limit type token := by
  induction types generalizing index with
  | nil => simp at found
  | cons first types ih =>
    cases index with
    | zero =>
      cases found
      rfl
    | succ index => exact ih (by simpa using found)

end Token

open Outcome Token Chunk

theorem decodeSingleOk {settings : Settings} {type : ParamType} {data : Bytes} {base : Int} {token : Token} :
    decodeSingle settings type data base = .ok token ↔
      data.length ≤ settings.maxPayload ∧ ∃ next,
        Decoder.readAt ⟨data.toArray, base, settings.maxDepth, settings.strictBool, settings.maxPayload⟩ 0 0 type =
          .ok (token, next) := by
  simp only [decodeSingle, bindOk, Decoder.makeOk, Prod.exists, Except.ok.injEq]
  constructor
  · intro decoded
    obtain ⟨_, made, _, next, read, rfl⟩ := decoded
    obtain ⟨short, rfl⟩ := made
    exact ⟨short, next, read⟩
  · intro decoded
    obtain ⟨short, next, read⟩ := decoded
    exact ⟨_, ⟨short, rfl⟩, token, next, read, rfl⟩

section

variable {settings : Settings} {limit base : Int} {chunks : List Chunk} {data : Bytes}

theorem decodeSingleOfValue (fits : settings.maxPayload ≤ Word.max) {type : ParamType} {token : Token}
    (value : IsValue type token) (sparse : Sparse settings.maxPayload type token)
    (nested : (token.depth : Int) ≤ settings.maxDepth) (encoded : encodeAt limit 0 token = .ok chunks)
    (resolved : resolve chunks base = .ok data) (short : data.length ≤ settings.maxPayload) :
    decodeSingle settings type data base = .ok token := by
  let d : Decoder := ⟨data.toArray, base, settings.maxDepth, settings.strictBool, settings.maxPayload⟩
  have measured : d.Measured := ⟨Nat.le_trans (by simpa [d] using short) fits, fits⟩
  have within : ((0 : Nat) + token.depth : Int) ≤ d.maxDepth := by
    dsimp only [d]
    omega
  obtain ⟨base, rfl⟩ := Int.eq_ofNat_of_zero_le (resolveOk.mp resolved).1
  have stands : d.Stands chunks 0 (headSizes chunks) := Decoder.standsResolved rfl (by simp [d]) resolved
  have again : encodeAt d.maxDepth 0 token = .ok chunks := encodeAtUnder token encoded within
  have read := Decoder.readsOfIsValue measured type value sparse within chunks 0 _ again stands
  exact decodeSingleOk.mpr ⟨short, _, read⟩

structure Settings.Reads (settings : Settings) (variant : ParamType) (payload : Token) : Prop where
  value : IsValue variant payload
  sparse : Sparse settings.maxPayload variant payload
  within : (payload.depth + 1 : Int) ≤ settings.maxDepth

variable {index : Int} {payload : Token} {variants : EnumVariants} {variant : ParamType} {generics : List ParamType}
  {name : String}

theorem decodedOfPayload (fits : settings.maxPayload ≤ Word.max)
    (encoded : encodeAt limit 0 (.enum index payload variants) = .ok chunks)
    (selected : variants.type? index = some variant) (reads : settings.Reads variant payload)
    (resolved : resolve chunks base = .ok data) (short : data.length ≤ settings.maxPayload) :
    decodeSingle settings (.enum variants.types generics name variants.names) data base =
      .ok (.enum index payload variants) := by
  obtain ⟨_, _, _, _, _, laid⟩ := encodeEnumOk.mp encoded
  obtain ⟨_, _, sized, range, _⟩ := enumChunksOk.mp laid
  obtain ⟨place, rfl⟩ := Int.eq_ofNat_of_zero_le range.1
  rw [EnumVariants.typeOfNat] at selected
  have whole : IsValue (.enum variants.types generics name variants.names) (.enum place payload variants) :=
    ⟨place, payload, rfl, by omega, sized, isVariantValueIff.mpr ⟨variant, selected, reads.value⟩⟩
  have few : Sparse settings.maxPayload (.enum variants.types generics name variants.names)
      (.enum place payload variants) := by
    rw [Sparse, Int.toNat_natCast]
    exact (sparseVariantIff selected).mpr reads.sparse
  have nested : ((Token.enum place payload variants).depth : Int) ≤ settings.maxDepth := by
    have := reads.within
    rw [Token.depth]
    omega
  exact decodeSingleOfValue fits whole few nested encoded resolved short

theorem payloadOfDecoded (selected : variants.type? index = some variant) (counted : variant.isCounted = true)
    (decoded : decodeSingle settings (.enum variants.types generics name variants.names) data base =
      .ok (.enum index payload variants)) : settings.Reads variant payload := by
  obtain ⟨_, _, read⟩ := decodeSingleOk.mp decoded
  obtain ⟨place, inner, _, same, _, found⟩ := Decoder.enumRead read
  cases same
  have chosen := found.payload
  rw [EnumVariants.typeOfNat] at selected
  rw [Decoder.readVariantAtEq selected] at chosen
  obtain ⟨_, read, last⟩ := mapOk.mp chosen
  cases last
  obtain ⟨value, sparse, within⟩ := Decoder.decodedOfReadAt variant counted read
  exact ⟨value, sparse, by simpa [Int.add_comm] using within⟩

end

/-- An enum token that is encoded selects a variant by its discriminant, and its payload is as wide as that. Wherever
the encoding resolves to a buffer within the payload limit, it is decoded as the same token when the payload is a
value of the variant that the decoder reads, and when the variant has no negative lengths only then. -/
theorem decodeSingleOfEncode (environment : Environment) {limit index : Int} {payload : Token}
    {variants : EnumVariants} {chunks : List Chunk}
    (encoded : encode limit [.enum index payload variants] = .ok chunks) :
    ∃ variant, variants.type? index = some variant ∧ EncodesIn limit 1 variant.staticSize payload ∧
      ∀ (generics : List ParamType) (name : String) (base : Int) (data : Bytes), resolve chunks base = .ok data →
        data.length ≤ (Settings.ofEnvironment environment).maxPayload →
        ((Settings.ofEnvironment environment).Reads variant payload →
          decodeSingle (Settings.ofEnvironment environment)
              (.enum variants.types generics name variants.names) data base =
            .ok (.enum index payload variants)) ∧
        (variant.isCounted = true →
          decodeSingle (Settings.ofEnvironment environment)
              (.enum variants.types generics name variants.names) data base =
            .ok (.enum index payload variants) →
          (Settings.ofEnvironment environment).Reads variant payload) := by
  obtain ⟨own, _, alone, last, rfl⟩ := encodeAllAtConsOk.mp encoded
  cases last
  rw [List.append_nil]
  obtain ⟨_, variant, selected, inner, within, laid⟩ := encodeEnumOk.mp alone
  obtain ⟨_, wide, _⟩ := enumChunksOk.mp laid
  refine ⟨variant, selected, ⟨inner, within, wide⟩, fun generics name base data resolved short => ⟨?_, ?_⟩⟩
  · intro reads
    exact decodedOfPayload (Settings.maxPayloadFits environment) alone selected reads resolved short
  · intro counted decoded
    exact payloadOfDecoded selected counted decoded

theorem decodeSingleOfEncodeVector :
    let settings := Settings.ofEnvironment fun _ => none
    let variant : ParamType := .vector (.string 3)
    let variants : EnumVariants := ⟨[.primitive .bool, variant], ["flag", "words"]⟩
    let payload : Token := .sequence .vector [.string "abc" 3, .string "def" 3]
    ∃ chunks data, encode 3 [.enum 1 payload variants] = .ok chunks ∧ variants.type? 1 = some variant ∧
      EncodesIn 3 1 variant.staticSize payload ∧ resolve chunks 1000 = .ok data ∧
      data.length ≤ settings.maxPayload ∧ settings.Reads variant payload ∧
      decodeSingle settings (.enum variants.types [] "Choice" variants.names) data 1000 =
        .ok (.enum 1 payload variants) := by
  intro settings variant variants payload
  have encoded : ∃ chunks, encode 3 [.enum 1 payload variants] = .ok chunks := ⟨_, rfl⟩
  obtain ⟨chunks, encoded⟩ := encoded
  obtain ⟨_, selected, wide, decodes⟩ := decodeSingleOfEncode (fun _ => none) encoded
  cases selected
  have resolved : ∃ data, resolve chunks 1000 = .ok data ∧ data.length ≤ settings.maxPayload := by
    cases encoded
    exact ⟨_, rfl, by decide⟩
  obtain ⟨data, resolved, short⟩ := resolved
  have reads : settings.Reads variant payload := by
    refine ⟨⟨_, rfl, rfl, ?_⟩, ⟨fun _ => by decide, ?_⟩, by decide⟩
    · intro item member
      rcases List.mem_pair.mp member with rfl | rfl <;> exact ⟨_, rfl, by simp, rfl⟩
    · intro item member
      rcases List.mem_pair.mp member with rfl | rfl <;> trivial
  exact ⟨chunks, data, encoded, rfl, wide, resolved, short, reads,
    (decodes [] "Choice" 1000 data resolved short).1 reads⟩

theorem payloadCutOff :
    let settings := Settings.ofEnvironment fun _ => none
    let variants : EnumVariants := ⟨[.primitive .u8], []⟩
    let token : Token := .enum 0 (.number .u64 300) variants
    let other : Token := .enum 0 (.number .u8 44) variants
    ∃ chunks data, encode settings.maxDepth [token] = .ok chunks ∧ resolve chunks 0 = .ok data ∧
      data.length ≤ settings.maxPayload ∧
      decodeSingle settings (.enum variants.types [] "" variants.names) data 0 = .ok other ∧ other ≠ token ∧
      ¬ IsValue (.primitive .u8) (.number .u64 300) := by
  intro settings variants token other
  have different : other ≠ token := by
    intro same
    simp [other, token, number] at same
  have unlike : ¬ IsValue (.primitive .u8) (.number .u64 300) := by
    intro value
    obtain ⟨_, same, _⟩ := value
    cases same
  exact ⟨_, _, rfl, rfl, by decide, rfl, different, unlike⟩

end WordAbi
