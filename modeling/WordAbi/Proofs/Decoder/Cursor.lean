import WordAbi.Proofs.Decoder.Places
/-! Where the cursor of a decoder stands. Types one after another are read as their first part, and the rest from where
the cursor is then: after the static sizes of the first part, whatever the buffer holds. An array of negative length,
which has a negative static size, does not move the cursor back. -/
namespace WordAbi

namespace ParamType

mutual

/-- No array in line takes a negative number of bytes. The heads of vectors and enums are as wide as they are, whatever
types are in them. -/
def isOnward : ParamType → Bool
  | array element length => (0 ≤ length || element.staticSize = 0) && isOnward element
  | tuple elements => allOnward elements
  | struct fields _ _ _ => allOnward fields
  | primitive _ => true
  | string _ => true
  | vector _ => true
  | enum _ _ _ _ => true
  | unspecified => true

def allOnward : List ParamType → Bool
  | [] => true
  | type :: types => isOnward type && allOnward types

end

mutual

theorem advanceOnward : (type : ParamType) → type.isOnward = true → type.advance = type.staticSize
  | array element length, onward => by
    simp only [isOnward, Bool.and_eq_true, Bool.or_eq_true, decide_eq_true_eq] at onward
    rw [advance, staticSize, advanceOnward element onward.2]
    rcases onward.1 with counted | weightless
    · rw [Int.toNat_of_nonneg counted]
    · rw [weightless, Int.mul_zero, Int.mul_zero]
  | tuple elements, onward => advancesOnward elements onward
  | struct fields _ _ _, onward => advancesOnward fields onward
  | primitive _, _ => rfl
  | string _, _ => rfl
  | vector _, _ => rfl
  | enum _ _ _ _, _ => rfl
  | unspecified, _ => rfl

theorem advancesOnward : (types : List ParamType) → allOnward types = true →
    advances types = total (staticSizes types)
  | [], _ => rfl
  | type :: types, onward => by
    simp only [allOnward, Bool.and_eq_true] at onward
    rw [advances, staticSizes, total, advanceOnward type onward.1, advancesOnward types onward.2]

end

end ParamType

namespace Decoder
open Outcome ParamType

variable {d : Decoder} {depth : Nat} {start next : Int} {tokens : List Token}

theorem readAllNext {types : List ParamType} (read : d.readAllAt depth start types = .ok (tokens, next)) :
    next = start + advances types :=
  (@allLocates d .unit types _ _ _ _ read).next

theorem readAllCons {type : ParamType} {types : List ParamType} :
    d.readAllAt depth start (type :: types) = .ok (tokens, next) ↔
      ∃ token rest middle, tokens = token :: rest ∧ d.readAt depth start type = .ok (token, middle) ∧
        d.readAllAt depth middle types = .ok (rest, next) := by
  refine ⟨consRead, ?_⟩
  rintro ⟨token, rest, middle, rfl, first, later⟩
  rw [readAllAt]
  exact bindOk.mpr ⟨_, first, bindOk.mpr ⟨_, later, rfl⟩⟩

theorem readAllAppend {first last : List ParamType} :
    d.readAllAt depth start (first ++ last) = .ok (tokens, next) ↔
      ∃ here there middle, tokens = here ++ there ∧ d.readAllAt depth start first = .ok (here, middle) ∧
        d.readAllAt depth middle last = .ok (there, next) := by
  induction first generalizing start tokens with
  | nil =>
    simp only [List.nil_append, readAllAt, Except.ok.injEq, Prod.mk.injEq]
    constructor
    · intro read
      exact ⟨[], tokens, start, rfl, ⟨rfl, rfl⟩, read⟩
    · rintro ⟨_, _, _, rfl, ⟨rfl, rfl⟩, read⟩
      exact read
  | cons type first ih =>
    simp only [List.cons_append, readAllCons, ih]
    constructor
    · rintro ⟨token, _, middle, rfl, read, here, there, stop, rfl, others, rest⟩
      exact ⟨token :: here, there, stop, rfl, ⟨token, here, middle, rfl, read, others⟩, rest⟩
    · rintro ⟨_, there, stop, rfl, ⟨token, here, middle, rfl, read, others⟩, rest⟩
      exact ⟨token, here ++ there, middle, rfl, read, here, there, stop, rfl, others, rest⟩

end Decoder

open Decoder ParamType

/-- Two lists of types, one after the other, are decoded as each of them is: the first from the offset, the second from
where the first leads the cursor. Nothing in the buffer moves it, neither what vectors lead to nor what enums leave
unused. It moves by the static sizes, but for arrays in line that take a negative number of bytes: over these it does
not move. -/
theorem decodeAppend (settings : Settings) (limit : Int) (strict : Bool) (first last : List ParamType) (data : Bytes)
    (base offset : Int) :
    (∀ tokens, decodeFrom settings limit strict (first ++ last) data base offset = .ok tokens ↔
        ∃ here there, tokens = here ++ there ∧
          decodeFrom settings limit strict first data base offset = .ok here ∧
          decodeFrom settings limit strict last data base (offset + advances first) = .ok there) ∧
      (∀ (d : Decoder) depth tokens next, d.readAllAt depth offset first = .ok (tokens, next) →
        next = offset + advances first) ∧
      (allOnward first = true → advances first = total (staticSizes first)) := by
  refine ⟨fun tokens => ?_, fun d depth tokens next read => readAllNext read, advancesOnward first⟩
  simp only [decodeFromOk, readAllAppend]
  constructor
  · rintro ⟨short, stop, here, there, middle, rfl, read, rest⟩
    obtain rfl := readAllNext read
    exact ⟨here, there, rfl, ⟨short, _, read⟩, short, stop, rest⟩
  · rintro ⟨here, there, rfl, ⟨short, middle, read⟩, _, stop, rest⟩
    obtain rfl := readAllNext read
    exact ⟨short, stop, here, there, _, rfl, read, rest⟩

theorem decodeAppendNested :
    let variants : List ParamType := [.primitive .u8, .array (.primitive .u64) 2]
    let first : List ParamType := [.vector (.primitive .u16), .enum variants [] "Choice" [], .array (.string 0) (-3)]
    let last : List ParamType := [.primitive .bool]
    let data := [9, 164, 9, 2, 0, 7, 77, 1, 5, 6].flatMap Word.bytes
    let tokens : List Token := [.sequence .vector [.number .u16 5, .number .u16 6],
      .enum 0 (.number .u8 7) ⟨variants, []⟩, .sequence .array []]
    allOnward first = true ∧ total (staticSizes first) = 48 ∧
      decodeFrom .default 3 true first data 100 8 = .ok tokens ∧
      decodeFrom .default 3 true last data 100 (8 + total (staticSizes first)) = .ok [.bool true] ∧
      decodeFrom .default 3 true (first ++ last) data 100 8 = .ok (tokens ++ [.bool true]) := by
  intro variants first last data tokens
  have onward : allOnward first = true := by decide
  have before : decodeFrom .default 3 true first data 100 8 = .ok tokens := by
    dsimp only [first, data, tokens, variants]
    rfl
  have behind : decodeFrom .default 3 true last data 100 (8 + total (staticSizes first)) = .ok [.bool true] := by
    dsimp only [last, data, first, variants]
    rfl
  obtain ⟨parts, _, follows⟩ := decodeAppend .default 3 true first last data 100 8
  refine ⟨onward, by decide, before, behind, (parts _).mpr ⟨tokens, [.bool true], rfl, before, ?_⟩⟩
  rw [follows onward]
  exact behind

theorem negativeLengthStandsStill :
    let first : List ParamType := [.array (.primitive .u64) (-1)]
    let last : List ParamType := [.primitive .u64]
    let data := [1, 2].flatMap Word.bytes
    let tokens : List Token := [.sequence .array [], .number .u64 2]
    decodeFrom .default 64 true (first ++ last) data 0 8 = .ok tokens ∧
      ¬ ∃ here there, tokens = here ++ there ∧ decodeFrom .default 64 true first data 0 8 = .ok here ∧
        decodeFrom .default 64 true last data 0 (8 + total (staticSizes first)) = .ok there := by
  intro first last data tokens
  have empty : decodeFrom .default 64 true first data 0 8 = .ok [.sequence .array []] := by
    dsimp only [first, data]
    rfl
  have back : decodeFrom .default 64 true last data 0 (8 + total (staticSizes first)) = .ok [.number .u64 1] := by
    dsimp only [last, data, first]
    rfl
  refine ⟨by dsimp only [first, last, data, tokens]; rfl, ?_⟩
  rintro ⟨here, there, same, before, behind⟩
  obtain rfl := Except.ok.inj (empty.symm.trans before)
  obtain rfl := Except.ok.inj (back.symm.trans behind)
  simp [tokens, Token.number] at same

end WordAbi
