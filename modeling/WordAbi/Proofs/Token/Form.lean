import WordAbi.Proofs.Token.Parts
import WordAbi.Proofs.Token.Value
/-! The form of a token: the kinds, arities and variants that a type asks for, whether or not what the scalars and
strings hold is in range. -/
namespace WordAbi

namespace ParamType

mutual

def isCovered : ParamType → Bool
  | array element _ => isCovered element
  | vector element => isCovered element
  | tuple elements => allCovered elements
  | struct fields _ _ names => (names.isEmpty || fields.length ≤ names.length) && allCovered fields
  | enum variants _ _ _ => allCovered variants
  | primitive _ => true
  | string _ => true
  | unspecified => true

def allCovered : List ParamType → Bool
  | [] => true
  | type :: types => isCovered type && allCovered types

end

end ParamType

namespace Token
open Outcome

def IsScalarForm (p : Primitive) (token : Token) : Prop :=
  match p with
  | .unit => token = .unit
  | .bool => ∃ b, token = .bool b
  | .b256 => ∃ bs, token = .b256 bs ∧ bs.length = 32
  | p => ∃ n : Int, token = .number p n

mutual

/-- The token has the kind of the type, and as many parts, of the forms of the type's parts; an enum has the
variants of the type and the index of one of them. -/
def HasForm : ParamType → Token → Prop
  | .primitive p, token => IsScalarForm p token
  | .string length, token => ∃ text, token = .string text length
  | .array element length, token => ∃ items, token = .sequence .array items ∧ (items.length : Int) = length ∧
      ∀ item ∈ items, HasForm element item
  | .vector element, token => ∃ items, token = .sequence .vector items ∧ ∀ item ∈ items, HasForm element item
  | .tuple elements, token => ∃ items, token = .sequence .tuple items ∧ HaveForms elements items
  | .struct fields _ _ _, token => ∃ items, token = .sequence .struct items ∧ HaveForms fields items
  | .enum variants _ _ names, token => ∃ (index : Nat) (payload : Token),
      token = .enum index payload ⟨variants, names⟩ ∧ HasVariantForm variants index payload
  | .unspecified, _ => False

def HaveForms : List ParamType → List Token → Prop
  | [], tokens => tokens = []
  | type :: types, tokens => ∃ first rest, tokens = first :: rest ∧ HasForm type first ∧ HaveForms types rest

def HasVariantForm : List ParamType → Nat → Token → Prop
  | [], _, _ => False
  | type :: _, 0, token => HasForm type token
  | _ :: types, index + 1, token => HasVariantForm types index token

end

theorem scalarFormOfValue {p : Primitive} {token : Token} (value : IsScalarValue p token) : IsScalarForm p token := by
  cases p with
  | unit => exact value
  | bool => exact value
  | b256 => exact value
  | _ =>
    obtain ⟨n, rfl, _⟩ := value
    exact ⟨n, rfl⟩

mutual

theorem formOfValue : (type : ParamType) → ∀ {token : Token}, IsValue type token → HasForm type token
  | .primitive _, _, value => scalarFormOfValue value
  | .string _, _, value => by
    obtain ⟨text, rfl, _⟩ := value
    exact ⟨text, rfl⟩
  | .array element _, _, value => by
    obtain ⟨items, rfl, count, _, values⟩ := value
    exact ⟨items, rfl, count, fun item member => formOfValue element (values item member)⟩
  | .vector element, _, value => by
    obtain ⟨items, rfl, _, values⟩ := value
    exact ⟨items, rfl, fun item member => formOfValue element (values item member)⟩
  | .tuple elements, _, value => by
    obtain ⟨items, rfl, values⟩ := value
    exact ⟨items, rfl, formsOfValues elements values⟩
  | .struct fields _ _ _, _, value => by
    obtain ⟨items, rfl, values⟩ := value
    exact ⟨items, rfl, formsOfValues fields values⟩
  | .enum variants _ _ _, _, value => by
    obtain ⟨index, payload, rfl, _, _, value⟩ := value
    exact ⟨index, payload, rfl, variantFormOfValue variants value⟩
  | .unspecified, _, value => value.elim

theorem formsOfValues : (types : List ParamType) → ∀ {tokens : List Token}, AreValues types tokens →
    HaveForms types tokens
  | [], _, values => values
  | type :: types, _, values => by
    obtain ⟨token, tokens, rfl, value, values⟩ := values
    exact ⟨token, tokens, rfl, formOfValue type value, formsOfValues types values⟩

theorem variantFormOfValue : (types : List ParamType) → ∀ {index : Nat} {token : Token},
    IsVariantValue types index token → HasVariantForm types index token
  | [], _, _, value => value.elim
  | type :: _, 0, _, value => formOfValue type value
  | _ :: types, _ + 1, _, value => variantFormOfValue types value

end

theorem scalarFormOfWritten {p : Primitive} {value : Written} {token : Token}
    (written : ofPrimitive p value = .ok token) : IsScalarForm p token := by
  unfold ofPrimitive at written
  cases p with
  | unit =>
    dsimp only at written
    split at written <;> cases written <;> rfl
  | bool =>
    dsimp only at written
    split at written <;> cases written
    exact ⟨_, rfl⟩
  | b256 =>
    obtain ⟨bytes, read, rfl⟩ := mapOk.mp written
    have checked {found : Bytes} (read : bytesOf.check found = .ok bytes) : bytes.length = 32 := by
      obtain ⟨length, rfl⟩ := bytesCheckOk.mp read
      exact length
    refine ⟨bytes, rfl, ?_⟩
    unfold bytesOf at read
    split at read
    · split at read
      · exact checked read
      · cases read
    · exact checked read
    · cases read
  | _ =>
    dsimp only at written
    split at written <;> cases written
    exact ⟨_, rfl⟩

theorem fieldsCovered {type : ParamType} {count : Nat} {names : List String} {value : Written} {items : List Written}
    (covered : names.isEmpty = true ∨ count ≤ names.length) (found : fieldValues type count names value = .ok items) :
    count ≤ items.length := by
  rcases fieldValuesOk found with ⟨_, length⟩ | ⟨entries, _, named⟩
  · omega
  · have length : names.length = items.length := by simpa using congrArg List.length named.found
    rw [← length]
    exact covered.resolve_left (by simpa using named.given)

end Token

end WordAbi
