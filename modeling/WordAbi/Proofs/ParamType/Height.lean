import WordAbi.Proofs.Decoder.RoundTrip
/-! How deeply a type nests. The encoder and the decoder do not refuse a type for its depth when it
nests within their limit. -/
namespace WordAbi

namespace ParamType

mutual

def height : ParamType → Nat
  | array element _ => height element + 1
  | vector element => height element + 1
  | tuple elements => heights elements
  | struct fields _ _ _ => heights fields
  | enum variants _ _ _ => heights variants
  | _ => 0

def heights : List ParamType → Nat
  | [] => 0
  | type :: types => max (height type + 1) (heights types)

end

mutual

theorem heightShape : (type : ParamType) → (shape type).height = type.height
  | primitive _ => rfl
  | string _ => rfl
  | array element _ => by simp only [shape, height, heightShape element]
  | vector element => by simp only [shape, height, heightShape element]
  | tuple elements => by simp only [shape, height, heightsShapes elements]
  | struct fields _ _ _ => by simp only [shape, height, heightsShapes fields]
  | enum variants _ _ _ => by simp only [shape, height, heightsShapes variants]
  | unspecified => rfl

theorem heightsShapes : (types : List ParamType) → heights (shapes types) = heights types
  | [] => rfl
  | type :: types => by simp only [shapes, heights, heightShape type, heightsShapes types]

end

theorem heightOfSame {type other : ParamType} (same : type.same other = true) :
    type.height = other.height := by
  rw [← heightShape type, ← heightShape other, (sameIff type other).mp same]

theorem mapHeightOfSame {types others : List ParamType} (same : sameList types others = true) :
    types.map height = others.map height := by
  induction types generalizing others with
  | nil =>
    cases others with
    | nil => rfl
    | cons _ _ => contradiction
  | cons type types ih =>
    cases others with
    | nil => contradiction
    | cons other others =>
      simp only [sameList, Bool.and_eq_true] at same
      rw [List.map_cons, List.map_cons, heightOfSame same.1, ih same.2]

end ParamType

namespace Token

mutual

theorem depthOfIsValue : (type : ParamType) → ∀ {token : Token}, IsValue type token →
    token.depth ≤ type.height
  | .primitive p, token, value => by
    obtain ⟨payload, rfl⟩ := scalarOfValue value
    exact Nat.zero_le _
  | .string _, token, value => by
    obtain ⟨text, rfl, _⟩ := value
    exact Nat.zero_le _
  | .array element _, token, value => by
    obtain ⟨items, rfl, _, _, values⟩ := value
    refine depthsLe.mpr fun item member => ?_
    exact Nat.succ_le_succ (depthOfIsValue element (values item member))
  | .vector element, token, value => by
    obtain ⟨items, rfl, _, values⟩ := value
    refine depthsLe.mpr fun item member => ?_
    exact Nat.succ_le_succ (depthOfIsValue element (values item member))
  | .tuple elements, token, value => by
    obtain ⟨items, rfl, values⟩ := value
    exact depthsOfAreValues elements values
  | .struct fields _ _ _, token, value => by
    obtain ⟨items, rfl, values⟩ := value
    exact depthsOfAreValues fields values
  | .enum variants _ _ _, token, value => by
    obtain ⟨index, payload, rfl, _, _, value⟩ := value
    exact depthOfVariant variants value
  | .unspecified, _, value => value.elim

theorem depthsOfAreValues : (types : List ParamType) → ∀ {tokens : List Token},
    AreValues types tokens → depths tokens ≤ ParamType.heights types
  | [], tokens, values => by
    obtain rfl := values
    exact Nat.le_refl 0
  | type :: types, tokens, values => by
    obtain ⟨token, tokens, rfl, value, values⟩ := values
    have first := depthOfIsValue type value
    have rest := depthsOfAreValues types values
    rw [depths, ParamType.heights]
    omega

theorem depthOfVariant : (types : List ParamType) → ∀ {index : Nat} {token : Token},
    IsVariantValue types index token → token.depth + 1 ≤ ParamType.heights types
  | [], _, _, value => value.elim
  | type :: types, 0, token, value => by
    have first := depthOfIsValue type value
    rw [ParamType.heights]
    omega
  | type :: types, index + 1, token, value => by
    have rest := @depthOfVariant types index token value
    rw [ParamType.heights]
    omega

end

end Token

def Admits {α : Type} (outcome : Except Fault α) : Prop := ∀ cause, outcome ≠ .error (.unsupported cause)

theorem admitsOk {α : Type} (a : α) : Admits (.ok a) := by
  intro cause absurd
  cases absurd

theorem admitsBind {α β : Type} {outcome : Except Fault α} {next : α → Except Fault β}
    (first : Admits outcome) (rest : ∀ a, Admits (next a)) : Admits (outcome >>= next) := by
  cases outcome with
  | ok a => exact rest a
  | error fault =>
    intro cause same
    exact first cause (congrArg _ (Except.error.inj same))

theorem admitsMap {α β : Type} {outcome : Except Fault α} (f : α → β) (first : Admits outcome) :
    Admits (outcome.map f) := by
  cases outcome with
  | ok a => exact admitsOk (f a)
  | error fault =>
    intro cause same
    exact first cause (congrArg _ (Except.error.inj same))

namespace Decoder

variable {d : Decoder}

theorem admitsTake {type : ParamType} {offset count : Int} : Admits (d.take type offset count) := by
  unfold take
  split
  · exact fun _ absurd => by cases absurd
  · exact admitsOk _

theorem admitsSize {type : ParamType} : Admits type.size := by
  unfold ParamType.size
  split
  · exact admitsOk _
  · exact fun _ absurd => by cases absurd

theorem admitsCheckCount {type element : ParamType} {offset count : Int} :
    Admits (d.checkCount type element offset count) := by
  refine admitsBind admitsSize fun size => ?_
  split
  · exact fun _ absurd => by cases absurd
  · exact admitsOk _

theorem admitsCheckDepth {type : ParamType} {depth : Nat} (within : (depth : Int) ≤ d.maxDepth) :
    Admits (d.checkDepth depth type) := by
  rw [checkDepthOk.mpr within]
  exact admitsOk ()

theorem admitsPrimitive {p : Primitive} {offset : Int} : Admits (d.readPrimitive p offset) := by
  unfold readPrimitive
  cases p with
  | bool =>
    refine admitsBind admitsTake fun word => admitsBind ?_ fun token => admitsOk _
    unfold boolOf
    dsimp only
    split
    · exact fun _ absurd => by cases absurd
    · exact admitsOk _
  | _ => exact admitsBind admitsTake fun _ => admitsOk _

theorem admitsString {length offset : Int} : Admits (d.readString length offset) := by
  refine admitsBind admitsTake fun padded => ?_
  dsimp only
  split
  · exact admitsOk _
  · exact fun _ absurd => by cases absurd

theorem admitsVectorHead {element : ParamType} {offset : Int} :
    Admits (d.readVectorHead element offset) := by
  refine admitsBind admitsTake fun head => admitsBind admitsCheckCount fun _ => ?_
  refine admitsBind admitsSize fun size => ?_
  split
  · exact fun _ absurd => by cases absurd
  · exact admitsOk _

theorem admitsRepeat {read : Int → Except Fault (Token × Int)} (each : ∀ offset, Admits (read offset))
    (count : Nat) (before : List Token) (offset : Int) : Admits (repeatFrom read count before offset) := by
  induction count generalizing before offset with
  | zero => exact admitsOk _
  | succ count ih =>
    have here := each offset
    unfold repeatFrom
    split
    · rename_i fault failed
      rw [failed] at here
      exact fun cause same => here cause (by cases same; rfl)
    · exact ih _ _

mutual

theorem admitsReadAt : (type : ParamType) → ∀ {depth : Nat} {offset : Int},
    (depth + type.height : Int) ≤ d.maxDepth → Admits (d.readAt depth offset type)
  | .primitive p, depth, offset, within => by
    refine admitsBind (admitsCheckDepth (by omega)) fun _ => ?_
    exact admitsPrimitive
  | .string length, depth, offset, within => by
    refine admitsBind (admitsCheckDepth (by omega)) fun _ => ?_
    exact admitsString
  | .array element length, depth, offset, within => by
    rw [ParamType.height] at within
    rw [readAt]
    have below : ((depth + 1 : Nat) + element.height : Int) ≤ d.maxDepth := by omega
    refine admitsBind (admitsCheckDepth (by omega)) fun _ => admitsBind admitsSize fun size => ?_
    refine admitsBind admitsTake fun _ => admitsBind admitsCheckCount fun _ => ?_
    exact admitsBind (admitsRepeat (fun start => admitsReadAt element below) _ _ _) fun _ => admitsOk _
  | .vector element, depth, offset, within => by
    rw [ParamType.height] at within
    rw [readAt]
    have below : ((depth + 1 : Nat) + element.height : Int) ≤ d.maxDepth := by omega
    refine admitsBind (admitsCheckDepth (by omega)) fun _ => admitsBind admitsVectorHead fun head => ?_
    exact admitsBind (admitsRepeat (fun start => admitsReadAt element below) _ _ _) fun _ => admitsOk _
  | .tuple elements, depth, offset, within => by
    rw [ParamType.height] at within
    rw [readAt]
    refine admitsBind (admitsCheckDepth (by omega)) fun _ => ?_
    exact admitsBind (admitsReadAllAt elements within) fun _ => admitsOk _
  | .struct fields _ _ _, depth, offset, within => by
    rw [ParamType.height] at within
    rw [readAt]
    refine admitsBind (admitsCheckDepth (by omega)) fun _ => ?_
    exact admitsBind (admitsReadAllAt fields within) fun _ => admitsOk _
  | .enum variants _ _ _, depth, offset, within => by
    rw [ParamType.height] at within
    rw [readAt]
    refine admitsBind (admitsCheckDepth (by omega)) fun _ => admitsBind admitsSize fun size => ?_
    refine admitsBind admitsTake fun _ => admitsBind (admitsReadVariantAt variants within) fun payload => ?_
    split
    · exact admitsOk _
    · exact fun _ absurd => by cases absurd
  | .unspecified, depth, offset, within => by
    refine admitsBind (admitsCheckDepth (by omega)) fun _ => ?_
    exact fun _ absurd => by cases absurd

theorem admitsReadAllAt : (types : List ParamType) → ∀ {depth : Nat} {offset : Int},
    (depth + ParamType.heights types : Int) ≤ d.maxDepth → Admits (d.readAllAt (depth + 1) offset types)
  | [], _, _, _ => admitsOk _
  | type :: types, depth, offset, within => by
    rw [ParamType.heights] at within
    have first : ((depth + 1 : Nat) + type.height : Int) ≤ d.maxDepth := by omega
    have rest : (depth + ParamType.heights types : Int) ≤ d.maxDepth := by omega
    rw [readAllAt]
    refine admitsBind (admitsReadAt type first) fun _ => ?_
    exact admitsBind (admitsReadAllAt types rest) fun _ => admitsOk _

theorem admitsReadVariantAt : (types : List ParamType) → ∀ {depth index : Nat} {offset : Int},
    (depth + ParamType.heights types : Int) ≤ d.maxDepth →
    Admits (d.readVariantAt (depth + 1) offset index types)
  | [], _, index, _, _ => by cases index <;> exact admitsOk _
  | type :: types, depth, 0, offset, within => by
    rw [ParamType.heights] at within
    have first : ((depth + 1 : Nat) + type.height : Int) ≤ d.maxDepth := by omega
    exact admitsMap some (admitsReadAt type first)
  | type :: types, depth, index + 1, offset, within => by
    rw [ParamType.heights] at within
    have rest : (depth + ParamType.heights types : Int) ≤ d.maxDepth := by omega
    exact admitsReadVariantAt types rest

end

theorem admitsDecodeWithin {settings : Settings} {limit : Int} {strict : Bool} {type : ParamType}
    {data : Bytes} {base : Int} (within : (type.height : Int) ≤ limit) :
    Admits (decodeWithin settings limit strict [type] data base) := by
  unfold decodeWithin make
  dsimp only
  split
  · exact fun _ absurd => by cases absurd
  · refine admitsMap _ (admitsBind (admitsReadAt type ?_) fun _ => admitsOk _)
    simpa [limited] using within

end Decoder

/-- The codec with the limit never refuses the type for its depth: all its values are encoded, and no
bytes are refused as unsupported when they are decoded. -/
structure ParamType.Fits (limit : Int) (type : ParamType) : Prop where
  encodes : ∀ token, Token.IsValue type token → ∃ chunks, Token.encode limit [token] = .ok chunks
  decodes : ∀ settings strict data base, Admits (decodeWithin settings limit strict [type] data base)

theorem ParamType.fitsOfHeight {limit : Int} {type : ParamType} (within : (type.height : Int) ≤ limit) :
    type.Fits limit := by
  refine ⟨fun token value => ?_, fun _ _ _ _ => Decoder.admitsDecodeWithin within⟩
  have below := Token.depthOfIsValue type value
  have values : Token.AreValues [type] [token] := ⟨token, [], rfl, value, rfl⟩
  have nested : Token.Within limit 0 [token] := List.forall_mem_singleton.mpr (by omega)
  obtain ⟨chunks, encoded, _⟩ := Token.allEncodeOfAreValues [type] values nested
  exact ⟨chunks, encoded⟩

end WordAbi
