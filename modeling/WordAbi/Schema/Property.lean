import WordAbi.Json.Basic
import WordAbi.Token.Native
/-! Schemas in two forms: nodes that hold their parts, a type expression with components and arguments nested in
it, and tables of types that are declared once by id and applied by reference, with arguments. -/
namespace WordAbi

inductive Property where
  | mk (name : String) (typeField : Datum) (components : Option (List Property))
    (typeArguments : Option (List Property)) (typeParameters : Option (List String))
  deriving Inhabited

namespace Property

def name : Property → String
  | mk name _ _ _ _ => name

def typeField : Property → Datum
  | mk _ typeField _ _ _ => typeField

def components : Property → Option (List Property)
  | mk _ _ components _ _ => components

def isStruct (p : Property) : Bool :=
  match p.typeField with
  | .str text => "struct ".toList.isPrefixOf text.toList
  | _ => false

def isEnum (p : Property) : Bool :=
  match p.typeField with
  | .str text => "enum ".toList.isPrefixOf text.toList
  | _ => false

mutual

def same : Property → Property → Bool
  | mk n t cs as ps, mk m u ds bs qs =>
    n == m && t.same u && sameOption cs ds && sameOption as bs && ps == qs

def sameOption : Option (List Property) → Option (List Property) → Bool
  | none, none => true
  | some ps, some qs => sameList ps qs
  | _, _ => false

def sameList : List Property → List Property → Bool
  | [], [] => true
  | p :: ps, q :: qs => same p q && sameList ps qs
  | _, _ => false

end

def isKey : Datum → Bool
  | .list _ => false
  | .dict _ => false
  | _ => true

mutual

def hasKey : Property → Bool
  | mk _ t cs as _ => isKey t && optionHasKey cs && optionHasKey as

def optionHasKey : Option (List Property) → Bool
  | none => true
  | some ps => allHaveKeys ps

def allHaveKeys : List Property → Bool
  | [] => true
  | p :: ps => hasKey p && allHaveKeys ps

end

end Property

inductive TypeApplication where
  | mk (name : String) (typeId : Int) (arguments : List TypeApplication)
  deriving Inhabited

def TypeApplication.name : TypeApplication → String
  | mk name _ _ => name

def TypeApplication.typeId : TypeApplication → Int
  | mk _ typeId _ => typeId

def TypeApplication.arguments : TypeApplication → List TypeApplication
  | mk _ _ arguments => arguments

/-- A declared type. Its parameters are ids of declarations `generic NAME`. What stands as its type
is a text in every declaration that has a type. -/
structure TypeDeclaration where
  typeId : Int
  typeField : Datum
  components : Option (List TypeApplication)
  typeParameters : List Int

end WordAbi
