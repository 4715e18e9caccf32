import Mathlib.Algebra.BigOperators.Ring.Finset
import Mathlib.Algebra.Order.BigOperators.Group.List
import Mathlib.Algebra.Order.Group.Nat
import WordAbi.Proofs.Decoder.Payload
/-! Elements without bytes, which a buffer does not bound. Each array and vector of them is held to the limit on its
own, so that together they may be as many times the limit as there are such arrays and vectors in the result: within
one another these multiply. -/
namespace WordAbi

namespace Token

def weightlessCount (element : ParamType) (items : List Token) : List Nat :=
  if element.staticSize = 0 then [items.length] else []

mutual

/-- How many elements each array and vector of elements without bytes has, wherever it stands in the value. -/
def weightlessCounts : ParamType → Token → List Nat
  | .array element _, .sequence _ items =>
    weightlessCount element items ++ items.flatMap fun item => weightlessCounts element item
  | .vector element, .sequence _ items =>
    weightlessCount element items ++ items.flatMap fun item => weightlessCounts element item
  | .tuple elements, .sequence _ items => allWeightlessCounts elements items
  | .struct fields _ _ _, .sequence _ items => allWeightlessCounts fields items
  | .enum variants _ _ _, .enum index payload _ => variantWeightlessCounts variants index.toNat payload
  | _, _ => []

def allWeightlessCounts : List ParamType → List Token → List Nat
  | type :: types, token :: tokens => weightlessCounts type token ++ allWeightlessCounts types tokens
  | _, _ => []

def variantWeightlessCounts : List ParamType → Nat → Token → List Nat
  | [], _, _ => []
  | type :: _, 0, token => weightlessCounts type token
  | _ :: types, index + 1, token => variantWeightlessCounts types index token

end

end Token

namespace Decoder
open Outcome Token

variable {d : Decoder}

def Capped (d : Decoder) (counts : List Nat) : Prop := ∀ count ∈ counts, count ≤ d.maxElements

theorem cappedAppend {counts others : List Nat} (first : d.Capped counts) (rest : d.Capped others) :
    d.Capped (counts ++ others) := by
  intro count member
  rcases List.mem_append.mp member with here | there
  · exact first count here
  · exact rest count there

theorem cappedRepeat {element : ParamType} {items : List Token}
    (few : element.staticSize = 0 → items.length ≤ d.maxElements)
    (each : ∀ item ∈ items, d.Capped (weightlessCounts element item)) :
    d.Capped (weightlessCount element items ++ items.flatMap fun item => weightlessCounts element item) := by
  refine cappedAppend ?_ fun count member => ?_
  · unfold weightlessCount
    split
    · rename_i empty
      simpa [Capped] using few empty
    · simp [Capped]
  · obtain ⟨item, inside, counted⟩ := List.mem_flatMap.mp member
    exact each item inside count counted

mutual

theorem cappedOfReadAt : (type : ParamType) → ∀ {depth : Nat} {start next : Int} {token : Token},
    d.readAt depth start type = .ok (token, next) → d.Capped (weightlessCounts type token)
  | .primitive _, _, _, _, _, _ => by simp [weightlessCounts, Capped]
  | .string _, _, _, _, _, _ => by simp [weightlessCounts, Capped]
  | .array element length, _, _, _, _, read => by
    obtain ⟨items, rfl, found⟩ := arrayRead read
    refine cappedRepeat (fun empty => ?_) fun item member => ?_
    · have := found.few empty
      rw [found.count]
      omega
    · obtain ⟨_, _, read⟩ := readOfChain found.chain item member
      exact cappedOfReadAt element read
  | .vector element, _, _, _, _, read => by
    obtain ⟨items, _, _, rfl, _, found⟩ := vectorRead read
    refine cappedRepeat found.head.few fun item member => ?_
    obtain ⟨_, _, read⟩ := readOfChain found.chain item member
    exact cappedOfReadAt element read
  | .tuple elements, _, _, _, _, read => by
    obtain ⟨_, items, rfl, all⟩ := tupleRead read
    exact cappedOfReadAllAt elements all
  | .struct fields _ _ _, _, _, _, _, read => by
    obtain ⟨_, items, rfl, all⟩ := structRead read
    exact cappedOfReadAllAt fields all
  | .enum variants _ _ _, _, _, _, _, read => by
    obtain ⟨_, _, _, rfl, _, found⟩ := enumRead read
    exact cappedOfReadVariantAt variants found.payload
  | .unspecified, _, _, _, _, read => (unspecifiedUnread read).elim

theorem cappedOfReadAllAt : (types : List ParamType) → ∀ {depth : Nat} {start next : Int} {tokens : List Token},
    d.readAllAt depth start types = .ok (tokens, next) → d.Capped (allWeightlessCounts types tokens)
  | [], _, _, _, _, _ => by simp [allWeightlessCounts, Capped]
  | type :: types, _, _, _, _, read => by
    obtain ⟨token, tokens, _, rfl, first, rest⟩ := consRead read
    exact cappedAppend (cappedOfReadAt type first) (cappedOfReadAllAt types rest)

theorem cappedOfReadVariantAt : (types : List ParamType) →
    ∀ {depth index : Nat} {start next : Int} {token : Token},
    d.readVariantAt depth start index types = .ok (some (token, next)) →
    d.Capped (variantWeightlessCounts types index token)
  | [], _, _, _, _, _, _ => by simp [variantWeightlessCounts, Capped]
  | type :: _, _, 0, _, _, _, read => by
    obtain ⟨_, read, same⟩ := mapOk.mp read
    obtain rfl := Option.some.inj same
    exact cappedOfReadAt type read
  | _ :: types, _, index + 1, _, _, _, read => cappedOfReadVariantAt types read

end

end Decoder

def ParamType.tower (width : Nat) : (levels : Nat) → ParamType
  | 0 => .string 0
  | levels + 1 => .array (tower width levels) width

def Token.tower (width : Nat) : (levels : Nat) → Token
  | 0 => .string "" 0
  | levels + 1 => .sequence .array (List.replicate width (tower width levels))

section

variable {width : Nat}

theorem ParamType.towerSized (levels : Nat) : (tower width levels).hasSize = true := by
  induction levels with
  | zero => rfl
  | succ levels ih => exact ih

theorem ParamType.towerEmpty (levels : Nat) : (tower width levels).staticSize = 0 := by
  induction levels with
  | zero => rfl
  | succ levels ih => rw [tower, staticSize, ih, Int.mul_zero]

theorem Token.towerCounts (levels : Nat) :
    (weightlessCounts (ParamType.tower width levels) (tower width levels)).sum =
      ∑ level ∈ Finset.range levels, width ^ (level + 1) := by
  induction levels with
  | zero => rfl
  | succ levels ih =>
    have shorter : ∑ level ∈ Finset.range levels, width ^ (level + 1 + 1) =
        width * ∑ level ∈ Finset.range levels, width ^ (level + 1) := by
      rw [Finset.mul_sum]
      exact Finset.sum_congr rfl fun level _ => pow_succ' width (level + 1)
    rw [Finset.sum_range_succ', shorter, ← ih]
    rw [tower, ParamType.tower, weightlessCounts, weightlessCount, if_pos (ParamType.towerEmpty levels),
      List.sum_append, List.flatMap_replicate, List.sum_flatten]
    simp [Nat.add_comm]

namespace Decoder
open Outcome

variable {d : Decoder}

theorem readTower (few : width ≤ d.maxElements) (levels : Nat) : ∀ {depth : Nat},
    (depth + levels : Int) ≤ d.maxDepth →
    d.readAt depth 0 (ParamType.tower width levels) = .ok (Token.tower width levels, 0) := by
  induction levels with
  | zero =>
    intro depth within
    have nothing : d.take (.string 0) ((0 : Nat) : Int) 0 = .ok [] :=
      takeOfHolds ⟨[], d.buffer.toList, by simp, rfl⟩ rfl
    exact bindOk.mpr ⟨(), checkDepthOk.mpr (by omega), bindOk.mpr ⟨[], nothing, rfl⟩⟩
  | succ levels ih =>
    intro depth within
    have size : (ParamType.tower width (levels + 1)).size = .ok 0 :=
      ParamType.sizeOk.mpr ⟨ParamType.towerSized (levels + 1), (ParamType.towerEmpty (levels + 1)).symm⟩
    have inner : d.readAt (depth + 1) 0 (ParamType.tower width levels) = .ok (Token.tower width levels, 0) :=
      ih (by omega)
    have each : repeatFrom (fun start => d.readAt (depth + 1) start (ParamType.tower width levels)) width [] 0 =
        .ok (List.replicate width (Token.tower width levels), 0) := by
      simpa using repeatAlong 0 width [] 0 fun place _ => by simpa using inner
    have counted : d.checkCount (ParamType.tower width (levels + 1)) (ParamType.tower width levels) 0 width = .ok () :=
      checkCountOk.mpr ⟨ParamType.towerSized levels, fun _ => by omega⟩
    have taken : d.take (ParamType.tower width (levels + 1)) 0 0 = .ok (d.between 0 (0 + 0)) :=
      takeOk.mpr ⟨Int.le_refl 0, by omega, rfl⟩
    exact bindOk.mpr ⟨(), checkDepthOk.mpr (by omega), bindOk.mpr ⟨0, size, bindOk.mpr ⟨_, taken,
      bindOk.mpr ⟨(), counted, bindOk.mpr ⟨_, each, rfl⟩⟩⟩⟩⟩

end Decoder

end

open Token

/-- Of whatever type, the value that is decoded has in each array and vector of elements without bytes no more of
them than the payload limit is. So all of them together are within the limit when there is one such array or vector,
and else within as many times the limit as there are. -/
theorem decodeSingleCapped {settings : Settings} {type : ParamType} {data : Bytes} {base : Int} {token : Token}
    (decoded : decodeSingle settings type data base = .ok token) :
    (∀ count ∈ weightlessCounts type token, count ≤ settings.maxPayload) ∧
      (weightlessCounts type token).sum ≤ (weightlessCounts type token).length * settings.maxPayload ∧
      ((weightlessCounts type token).length ≤ 1 → (weightlessCounts type token).sum ≤ settings.maxPayload) := by
  obtain ⟨_, _, read⟩ := decodeSingleOk.mp decoded
  have capped : ∀ count ∈ weightlessCounts type token, count ≤ settings.maxPayload :=
    Decoder.cappedOfReadAt type read
  have total := List.sum_le_card_nsmul _ _ capped
  rw [nsmul_eq_mul, Nat.cast_id] at total
  refine ⟨capped, total, fun single => Nat.le_trans total ?_⟩
  exact Nat.le_trans (Nat.mul_le_mul_right _ single) (Nat.le_of_eq (Nat.one_mul _))

theorem decodeSingleCappedVectors :
    let settings : Settings := ⟨4, 1024, true⟩
    let type : ParamType := .enum [.primitive .u8, .array (.vector (.string 0)) 2] [] "Labels" []
    let data := [1, 0, 0, 3, 0, 0, 4].flatMap Word.bytes
    ∃ token, decodeSingle settings type data 0 = .ok token ∧ weightlessCounts type token = [3, 4] ∧
      (∀ count ∈ weightlessCounts type token, count ≤ 1024) ∧
      (weightlessCounts type token).sum ≤ (weightlessCounts type token).length * 1024 ∧
      ((weightlessCounts type token).length ≤ 1 → (weightlessCounts type token).sum ≤ 1024) := by
  intro settings type data
  let vector (count : Nat) : Token := .sequence .vector (List.replicate count (.string "" 0))
  have decoded : decodeSingle settings type data 0 = .ok (.enum 1 (.sequence .array [vector 3, vector 4])
      ⟨[.primitive .u8, .array (.vector (.string 0)) 2], []⟩) := by
    dsimp only [settings, type, data, vector]
    rfl
  exact ⟨_, decoded, rfl, decodeSingleCapped decoded⟩

theorem decodeSingleTower {settings : Settings} {width levels : Nat} (few : width ≤ settings.maxPayload)
    (nested : levels ≤ settings.maxDepth) (base : Int) :
    decodeSingle settings (.tower width levels) [] base = .ok (.tower width levels) ∧
      (weightlessCounts (.tower width levels) (.tower width levels)).sum =
        ∑ level ∈ Finset.range levels, width ^ (level + 1) := by
  refine ⟨decodeSingleOk.mpr ⟨by simp, 0, Decoder.readTower few levels ?_⟩, towerCounts levels⟩
  simpa using nested

example : 1024 < ∑ level ∈ Finset.range 2, 40 ^ (level + 1) := by decide

end WordAbi
