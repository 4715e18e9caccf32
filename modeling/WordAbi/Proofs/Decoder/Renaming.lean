import WordAbi.Proofs.Decoder.Payload
/-! Names do not take part in reading. By two types that are equal, which is without their names, a decoder reads the
same bytes: tokens that are equal, which is without the names of their variants, or nothing by both. -/
namespace WordAbi

namespace ParamType

mutual

theorem staticSizeShape : (type : ParamType) → (shape type).staticSize = type.staticSize
  | primitive _ => rfl
  | string _ => rfl
  | array element _ => by simp only [shape, staticSize, staticSizeShape element]
  | vector _ => rfl
  | tuple elements => by simp only [shape, staticSize, staticSizesShapes elements]
  | struct fields _ _ _ => by simp only [shape, staticSize, staticSizesShapes fields]
  | enum variants _ _ _ => by simp only [shape, staticSize, staticSizesShapes variants]
  | unspecified => rfl

theorem staticSizesShapes : (types : List ParamType) → staticSizes (shapes types) = staticSizes types
  | [] => rfl
  | type :: types => by simp only [shapes, staticSizes, staticSizeShape type, staticSizesShapes types]

end

mutual

theorem hasSizeShape : (type : ParamType) → (shape type).hasSize = type.hasSize
  | primitive _ => rfl
  | string _ => rfl
  | array element _ => by simp only [shape, hasSize, hasSizeShape element]
  | vector _ => rfl
  | tuple elements => by simp only [shape, hasSize, allHaveSizeShapes elements]
  | struct fields _ _ _ => by simp only [shape, hasSize, allHaveSizeShapes fields]
  | enum variants _ _ _ => by simp only [shape, hasSize, allHaveSizeShapes variants]
  | unspecified => rfl

theorem allHaveSizeShapes : (types : List ParamType) → allHaveSize (shapes types) = allHaveSize types
  | [] => rfl
  | type :: types => by simp only [shapes, allHaveSize, hasSizeShape type, allHaveSizeShapes types]

end

theorem sizeOfSame {type other : ParamType} (same : type.same other = true) : type.size = other.size := by
  have alike := (sameIff type other).mp same
  rw [size, size, ← hasSizeShape type, ← staticSizeShape type, alike, hasSizeShape, staticSizeShape]

end ParamType

namespace Token

def SameTokens (tokens others : List Token) : Prop :=
  List.Forall₂ (fun token other => token.same other = true) tokens others

theorem sameItemsIff {tokens others : List Token} : sameItems tokens others = true ↔ SameTokens tokens others := by
  induction tokens generalizing others with
  | nil => cases others <;> simp [sameItems, SameTokens]
  | cons token tokens ih =>
    cases others with
    | nil => simp [sameItems, SameTokens]
    | cons other others => simp [sameItems, SameTokens, ih]

theorem sameScalar {p : Primitive} {token : Token} (value : IsScalarValue p token) : token.same token = true := by
  cases p with
  | unit =>
    subst value
    rfl
  | bool =>
    obtain ⟨b, rfl⟩ := value
    cases b <;> rfl
  | b256 =>
    obtain ⟨bs, rfl, _⟩ := value
    simp [same, b256, Datum.same, Native.same]
  | _ =>
    obtain ⟨n, rfl, _⟩ := value
    simp [same, number, Datum.same, Native.same, Native.sameNumber, Native.wholeNumber?]

end Token

namespace Decoder
open Outcome Token

def SameRead (found other : Token × Int) : Prop := found.1.same other.1 = true ∧ found.2 = other.2

def SameReads (found other : List Token × Int) : Prop := SameTokens found.1 other.1 ∧ found.2 = other.2

variable {d : Decoder}

theorem checkDepthAlike (depth : Nat) (type other : ParamType) :
    Alike (fun _ _ => True) (d.checkDepth depth type) (d.checkDepth depth other) := by
  unfold checkDepth
  split
  · exact .faults _ _
  · exact .results trivial

theorem takeAlike (type other : ParamType) (start count : Int) :
    Alike Eq (d.take type start count) (d.take other start count) := by
  unfold take
  split
  · exact .faults _ _
  · exact .results rfl

theorem sizeAlike {type other : ParamType} (same : type.same other = true) : Alike Eq type.size other.size := by
  rw [ParamType.sizeOfSame same]
  exact alikeItself fun _ _ => rfl

theorem checkCountAlike {element other : ParamType} (same : element.same other = true) (type renamed : ParamType)
    (start count : Int) :
    Alike (fun _ _ => True) (d.checkCount type element start count) (d.checkCount renamed other start count) := by
  refine alikeBind (sizeAlike same) fun size _ equal => ?_
  subst equal
  split
  · exact .faults _ _
  · exact .results trivial

theorem repeatAlike {read other : Int → Except Fault (Token × Int)}
    (each : ∀ start, Alike SameRead (read start) (other start)) (count : Nat) :
    ∀ {before others : List Token} (start : Int), SameTokens before others →
      Alike SameReads (repeatFrom read count before start) (repeatFrom other count others start) := by
  induction count with
  | zero => exact fun start same => .results ⟨List.rel_reverse same, rfl⟩
  | succ count ih =>
    intro before others start same
    rw [repeatFrom, repeatFrom]
    generalize read start = x, other start = y, each start = alike
    cases alike with
    | faults fault refusal => exact .faults fault refusal
    | @results found again holds =>
      obtain ⟨token, next⟩ := found
      obtain ⟨again, reached⟩ := again
      obtain ⟨equal, rfl⟩ := holds
      exact ih next (.cons equal same)

theorem vectorHeadAlike {element other : ParamType} (same : element.same other = true) (start : Int) :
    Alike Eq (d.readVectorHead element start) (d.readVectorHead other start) := by
  refine alikeBind (takeAlike _ _ start 24) fun head _ equal => ?_
  subst equal
  refine alikeBind (checkCountAlike same _ _ start _) fun _ _ _ => ?_
  refine alikeBind (sizeAlike same) fun size _ equal => ?_
  subst equal
  split
  · exact .faults _ _
  · exact .results rfl

mutual

theorem readAtAlike : (type : ParamType) → ∀ {other : ParamType}, type.same other = true →
    ∀ (depth : Nat) (start : Int),
    Alike SameRead (d.readAt depth start type) (d.readAt depth start other)
  | .primitive p, other, same, depth, start => by
    cases other with
    | primitive q =>
      obtain rfl := beq_iff_eq.mp same
      refine alikeItself fun found read => ?_
      obtain ⟨token, next⟩ := found
      exact ⟨sameScalar (decodedPrimitive read).value, rfl⟩
    | _ => contradiction
  | .string length, other, same, depth, start => by
    cases other with
    | string length' =>
      obtain rfl := beq_iff_eq.mp same
      refine alikeItself fun found read => ?_
      obtain ⟨token, next⟩ := found
      obtain ⟨_, _, rfl, _⟩ := stringRead read
      exact ⟨by simp [Token.same], rfl⟩
    | _ => contradiction
  | .array element length, other, same, depth, start => by
    cases other with
    | array other length' =>
      have whole := sizeAlike same
      simp only [ParamType.same, Bool.and_eq_true, beq_iff_eq] at same
      obtain ⟨rfl, same⟩ := same
      rw [readAt, readAt]
      refine alikeBind (checkDepthAlike _ _ _) fun _ _ _ => ?_
      refine alikeBind whole fun size _ equal => ?_
      subst equal
      refine alikeBind (takeAlike _ _ _ _) fun _ _ _ => ?_
      refine alikeBind (checkCountAlike same _ _ _ _) fun _ _ _ => ?_
      refine alikeBind (repeatAlike (fun start => readAtAlike element same (depth + 1) start) _ _ .nil)
        fun items others alike => ?_
      exact .results ⟨by simpa [Token.same] using sameItemsIff.mpr alike.1, alike.2⟩
    | _ => contradiction
  | .vector element, other, same, depth, start => by
    cases other with
    | vector other =>
      have same : element.same other = true := same
      rw [readAt, readAt]
      refine alikeBind (checkDepthAlike _ _ _) fun _ _ _ => ?_
      refine alikeBind (vectorHeadAlike same start) fun head _ equal => ?_
      subst equal
      refine alikeBind (repeatAlike (fun start => readAtAlike element same (depth + 1) start) _ _ .nil)
        fun items others alike => ?_
      exact .results ⟨by simpa [Token.same] using sameItemsIff.mpr alike.1, rfl⟩
    | _ => contradiction
  | .tuple elements, other, same, depth, start => by
    cases other with
    | tuple others =>
      rw [readAt, readAt]
      refine alikeBind (checkDepthAlike _ _ _) fun _ _ _ => ?_
      refine alikeBind (readAllAtAlike elements same (depth + 1) start) fun items others alike => ?_
      exact .results ⟨by simpa [Token.same] using sameItemsIff.mpr alike.1, alike.2⟩
    | _ => contradiction
  | .struct fields _ _ _, other, same, depth, start => by
    cases other with
    | struct others _ _ _ =>
      simp only [ParamType.same, Bool.and_eq_true] at same
      rw [readAt, readAt]
      refine alikeBind (checkDepthAlike _ _ _) fun _ _ _ => ?_
      refine alikeBind (readAllAtAlike fields same.1 (depth + 1) start) fun items others alike => ?_
      exact .results ⟨by simpa [Token.same] using sameItemsIff.mpr alike.1, alike.2⟩
    | _ => contradiction
  | .enum variants _ _ _, other, same, depth, start => by
    cases other with
    | enum others _ _ _ =>
      have whole := sizeAlike same
      simp only [ParamType.same, Bool.and_eq_true] at same
      rw [readAt, readAt]
      refine alikeBind (checkDepthAlike _ _ _) fun _ _ _ => ?_
      refine alikeBind whole fun width _ equal => ?_
      subst equal
      refine alikeBind (takeAlike _ _ _ _) fun _ _ _ => ?_
      refine alikeBind (readVariantAtAlike variants same.1 (depth + 1) _ _) fun payload other alike => ?_
      cases alike with
      | none => exact .faults _ _
      | some alike =>
        refine .results ⟨?_, rfl⟩
        simp [Token.same, EnumVariants.same, alike.1, same.1]
    | _ => contradiction
  | .unspecified, other, same, depth, start => by
    cases other with
    | unspecified =>
      refine alikeItself fun found read => ?_
      obtain ⟨token, next⟩ := found
      exact (unspecifiedUnread read).elim
    | _ => contradiction

theorem readAllAtAlike : (types : List ParamType) → ∀ {others : List ParamType},
    ParamType.sameList types others = true → ∀ (depth : Nat) (start : Int),
    Alike SameReads (d.readAllAt depth start types) (d.readAllAt depth start others)
  | [], others, same, depth, start => by
    cases others with
    | nil =>
      rw [readAllAt]
      exact .results ⟨.nil, rfl⟩
    | cons _ _ => contradiction
  | type :: types, others, same, depth, start => by
    cases others with
    | nil => contradiction
    | cons other others =>
      simp only [ParamType.sameList, Bool.and_eq_true] at same
      rw [readAllAt, readAllAt]
      refine alikeBind (readAtAlike type same.1 depth start) fun found again alike => ?_
      dsimp only
      rw [← alike.2]
      refine alikeBind (readAllAtAlike types same.2 depth found.2) fun rest others later => ?_
      exact .results ⟨.cons alike.1 later.1, later.2⟩

theorem readVariantAtAlike : (types : List ParamType) → ∀ {others : List ParamType},
    ParamType.sameList types others = true → ∀ (depth : Nat) (start : Int) (index : Nat),
    Alike (Option.Rel SameRead) (d.readVariantAt depth start index types) (d.readVariantAt depth start index others)
  | [], others, same, depth, start, index => by
    cases others with
    | nil =>
      rw [readVariantAt]
      exact .results .none
    | cons _ _ => contradiction
  | type :: types, others, same, depth, start, index => by
    cases others with
    | nil => contradiction
    | cons other others =>
      simp only [ParamType.sameList, Bool.and_eq_true] at same
      cases index with
      | zero =>
        rw [readVariantAt, readVariantAt]
        exact alikeMap (readAtAlike type same.1 depth start) fun _ _ alike => .some alike
      | succ index =>
        rw [readVariantAt, readVariantAt]
        exact readVariantAtAlike types same.2 depth start index

end

end Decoder

open Outcome

theorem decodeSingleAlike (settings : Settings) {type other : ParamType} (same : type.same other = true) (data : Bytes)
    (base : Int) : Alike (fun token renamed : Token => token.same renamed = true)
      (decodeSingle settings type data base) (decodeSingle settings other data base) := by
  refine alikeBind (alikeItself fun _ _ => rfl) fun decoder _ equal => ?_
  subst equal
  refine alikeBind (Decoder.readAtAlike type same 0 0) fun _ _ alike => .results alike.1

end WordAbi
