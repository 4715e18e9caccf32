import WordAbi.Proofs.Decoder.Soundness
import WordAbi.Proofs.Token.Datum
/-! What is decoded stands for a native value, unless a string in it has a negative length to keep to: such a string is
read as an empty text, which is refused only where the text is asked for. -/
namespace WordAbi

namespace ParamType

mutual

def isLegible : ParamType → Bool
  | string length => 0 ≤ length
  | array element _ => isLegible element
  | vector element => isLegible element
  | tuple elements => allLegible elements
  | struct fields _ _ _ => allLegible fields
  | enum variants _ _ _ => allLegible variants
  | primitive _ => true
  | unspecified => true

def allLegible : List ParamType → Bool
  | [] => true
  | type :: types => isLegible type && allLegible types

end

end ParamType

namespace Token
open Outcome

mutual

def isLegible : Token → Bool
  | string _ expected => 0 ≤ expected
  | sequence _ items => allLegible items
  | enum _ payload _ => isLegible payload
  | scalar _ _ => true
  | misfit _ _ => true
  | foreign _ => true

def allLegible : List Token → Bool
  | [] => true
  | token :: tokens => isLegible token && allLegible tokens

end

theorem allLegibleEqAll (tokens : List Token) : allLegible tokens = tokens.all isLegible := by
  induction tokens with
  | nil => rfl
  | cons token tokens ih => rw [allLegible, ih, List.all_cons]

mutual

theorem legibleOfSame : (token : Token) → ∀ {other : Token}, token.same other = true →
    token.isLegible = other.isLegible
  | .scalar _ _, other, same => by cases other <;> first | rfl | contradiction
  | .string _ _, other, same => by
    cases other with
    | string _ _ =>
      simp only [Token.same, Bool.and_eq_true, beq_iff_eq] at same
      rw [isLegible, isLegible, same.2]
    | _ => contradiction
  | .sequence _ items, other, same => by
    cases other with
    | sequence _ others =>
      simp only [Token.same, Bool.and_eq_true] at same
      exact allLegibleOfSame items same.2
    | _ => contradiction
  | .enum _ payload _, other, same => by
    cases other with
    | enum _ other _ =>
      simp only [Token.same, Bool.and_eq_true] at same
      rw [isLegible, isLegible, legibleOfSame payload same.1.2]
    | _ => contradiction
  | .misfit _ _, other, same => by cases other <;> first | rfl | contradiction
  | .foreign _, other, same => by cases other <;> first | rfl | contradiction

theorem allLegibleOfSame : (tokens : List Token) → ∀ {others : List Token}, sameItems tokens others = true →
    allLegible tokens = allLegible others
  | [], others, same => by
    cases others with
    | nil => rfl
    | cons _ _ => contradiction
  | token :: tokens, others, same => by
    cases others with
    | nil => contradiction
    | cons _ _ =>
      simp only [sameItems, Bool.and_eq_true] at same
      rw [allLegible, allLegible, legibleOfSame token same.1, allLegibleOfSame tokens same.2]

end

structure Shows (type : ParamType) (token : Token) : Prop where
  value : Succeeds (toDatum (some type) token) ↔ token.isLegible = true
  legible : type.isLegible = true → token.isLegible = true

structure ShowsAll (types : List ParamType) (tokens : List Token) : Prop where
  values : Succeeds (toDataZip (types.map some) tokens) ↔ allLegible tokens = true
  legible : ParamType.allLegible types = true → allLegible tokens = true

theorem succeedsEachIff {element : ParamType} {tokens : List Token}
    (shows : ∀ token ∈ tokens, Shows element token) :
    Succeeds (toDataEach (some element) tokens) ↔ allLegible tokens = true := by
  induction tokens with
  | nil => exact ⟨fun _ => rfl, fun _ => ⟨[], rfl⟩⟩
  | cons token tokens ih =>
    obtain ⟨first, rest⟩ := List.forall_mem_cons.mp shows
    rw [toDataEach, succeedsConsIff, first.value, ih rest, allLegible, Bool.and_eq_true]

theorem legibleEach {element : ParamType} {tokens : List Token} (shows : ∀ token ∈ tokens, Shows element token)
    (legible : element.isLegible = true) : allLegible tokens = true := by
  rw [allLegibleEqAll, List.all_eq_true]
  exact fun token member => (shows token member).legible legible

theorem showsScalar (p : Primitive) (payload : Datum) : Shows (.primitive p) (.scalar p payload) := by
  refine ⟨⟨fun _ => rfl, fun _ => ?_⟩, fun _ => rfl⟩
  cases p <;> exact ⟨_, rfl⟩

end Token

namespace Decoder
open Outcome Token

variable {d : Decoder} {depth : Nat} {start next : Int}

theorem showsString {length : Int} {token : Token} (read : d.readAt depth start (.string length) = .ok (token, next)) :
    Shows (.string length) token := by
  obtain ⟨padded, _, rfl, _⟩ := stringRead read
  refine ⟨?_, id⟩
  rw [toDatum, succeedsMapIff, isLegible, decide_eq_true_eq]
  constructor
  · intro shown
    obtain ⟨_, shown⟩ := shown
    obtain ⟨_, whole, _⟩ := checkedTextOk.mp shown
    omega
  · intro counted
    obtain ⟨text, same, ascii, whole⟩ := (decodedString counted read).value
    obtain ⟨rfl, _⟩ := Token.string.inj same
    exact ⟨_, checkedTextOk.mpr ⟨ascii, whole, rfl⟩⟩

theorem showsChain {element : ParamType} {items : List Token}
    (shows : ∀ {first last : Int} {item : Token}, d.readAt depth first element = .ok (item, last) →
      Shows element item)
    (chain : Chain (fun start => d.readAt depth start element) start items next) :
    ∀ item ∈ items, Shows element item := by
  intro item member
  obtain ⟨_, _, found⟩ := readOfChain chain item member
  exact shows found

mutual

theorem showsOfReadAt : (type : ParamType) → ∀ {depth : Nat} {start next : Int} {token : Token},
    d.readAt depth start type = .ok (token, next) → Shows type token
  | .primitive p, _, _, _, _, read => by
    obtain ⟨⟨payload, rfl⟩, _⟩ := takesPrimitive (primitiveRead read).2
    exact showsScalar p payload
  | .string _, _, _, _, _, read => showsString read
  | .array element _, _, _, _, _, read => by
    obtain ⟨items, rfl, found⟩ := arrayRead read
    have each := showsChain (fun read => showsOfReadAt element read) found.chain
    refine ⟨?_, fun legible => legibleEach each legible⟩
    change Succeeds ((toDataEach (some element) items).map Native.list) ↔ allLegible items = true
    rw [succeedsMapIff, succeedsEachIff each]
  | .vector element, _, _, _, _, read => by
    obtain ⟨items, _, _, rfl, _, found⟩ := vectorRead read
    have each := showsChain (fun read => showsOfReadAt element read) found.chain
    refine ⟨?_, fun legible => legibleEach each legible⟩
    change Succeeds ((toDataEach (some element) items).map Native.list) ↔ allLegible items = true
    rw [succeedsMapIff, succeedsEachIff each]
  | .tuple elements, _, _, _, _, read => by
    obtain ⟨_, items, rfl, found⟩ := tupleRead read
    have all := showAllOfReadAllAt elements found
    refine ⟨?_, all.legible⟩
    rw [toDatum, succeedsMapIff, all.values, isLegible]
  | .struct fields _ _ _, _, _, _, _, read => by
    obtain ⟨_, items, rfl, found⟩ := structRead read
    have all := showAllOfReadAllAt fields found
    refine ⟨?_, all.legible⟩
    rw [toDatum, succeedsMapIff, all.values, isLegible]
  | .enum variants _ _ names, _, _, _, _, read => by
    obtain ⟨index, payload, _, rfl, _, found⟩ := enumRead read
    obtain ⟨inner, there, shows, legible⟩ := showsOfReadVariantAt variants found.payload
    refine ⟨?_, legible⟩
    rw [toDatumEnum names payload there, succeedsMapIff, shows, isLegible]
  | .unspecified, _, _, _, _, read => (unspecifiedUnread read).elim

theorem showAllOfReadAllAt : (types : List ParamType) → ∀ {depth : Nat} {start next : Int} {tokens : List Token},
    d.readAllAt depth start types = .ok (tokens, next) → ShowsAll types tokens
  | [], _, _, _, _, read => by
    cases read
    exact ⟨⟨fun _ => rfl, fun _ => ⟨[], rfl⟩⟩, fun _ => rfl⟩
  | type :: types, _, _, _, _, read => by
    obtain ⟨token, rest, _, rfl, first, others⟩ := consRead read
    have here := showsOfReadAt type first
    have later := showAllOfReadAllAt types others
    constructor
    · rw [List.map_cons, toDataZip, succeedsConsIff, here.value, later.values, allLegible, Bool.and_eq_true]
    · intro legible
      simp only [ParamType.allLegible, Bool.and_eq_true] at legible
      rw [allLegible, here.legible legible.1, later.legible legible.2]
      rfl

theorem showsOfReadVariantAt : (types : List ParamType) → ∀ {depth : Nat} {start next : Int} {index : Nat}
    {payload : Token}, d.readVariantAt depth start index types = .ok (some (payload, next)) →
    ∃ inner, types[index]? = some inner ∧ (Succeeds (toDatum (some inner) payload) ↔ payload.isLegible = true) ∧
      (ParamType.allLegible types = true → payload.isLegible = true)
  | [], _, _, _, index, _, read => by cases index <;> cases read
  | type :: types, _, _, _, 0, _, read => by
    obtain ⟨_, read, last⟩ := mapOk.mp read
    cases last
    have shows := showsOfReadAt type read
    refine ⟨type, rfl, shows.value, fun legible => shows.legible ?_⟩
    simp only [ParamType.allLegible, Bool.and_eq_true] at legible
    exact legible.1
  | _ :: types, _, _, _, index + 1, _, read => by
    obtain ⟨inner, there, shows, legible⟩ := showsOfReadVariantAt types read
    refine ⟨inner, there, shows, fun both => legible ?_⟩
    simp only [ParamType.allLegible, Bool.and_eq_true] at both
    exact both.2

end

end Decoder

end WordAbi
