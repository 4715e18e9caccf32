import WordAbi.Schema.Memory
import WordAbi.Schema.Property
import WordAbi.Schema.Site
/-! The types of inline schema nodes. Generic parameters are known by name; a type is remembered for
a node's own parts and the types that its generic parameters stand for. -/
namespace WordAbi

namespace Property

structure Key where
  source : String
  components : Option (List Property)
  typeParameters : Option (List String)
  arguments : List ParamType
  bindings : Bindings String

def Key.same (k l : Key) : Bool :=
  k.source == l.source && sameOption k.components l.components
    && k.typeParameters == l.typeParameters && ParamType.sameList k.arguments l.arguments
    && Bindings.same k.bindings l.bindings

def lookup (source : String) (bindings : Bindings String) (name : String) :
    Resolving Key ParamType :=
  match bindings.get? name with
  | some type => pure type
  | none => throw (Fault.invalidType (.unboundName source name))

def checkKey (components : Option (List Property)) : Resolving Key Unit :=
  if optionHasKey components then pure () else throw (Fault.misuse .wrongKind)

variable [Host]

mutual

def resolveIn (limit : Int) (room : Nat) : Property → Bindings String → Resolving Key ParamType
  | mk _ typeField components typeArguments typeParameters, bindings => do
    let expr ← Site.lift (TypeExpr.ofDatum typeField)
    let source := typeField.display
    match expr with
    | .generic name => lookup source bindings name
    | expr => do
      let arguments ← resolveOption limit room typeArguments bindings
      let parameters := typeParameters.getD []
      if parameters ≠ [] ∧ parameters.length ≠ arguments.length then
        throw (Fault.invalidType (.argumentCount source parameters.length arguments.length none))
      else do
        let inner := Bindings.extend bindings parameters arguments
        checkKey components
        let work := match room with
          | 0 => none
          | room + 1 => some (Site.build
              ⟨source, suspendOption limit room components inner, arguments, lookup source inner⟩ expr)
        Resolving.guarded Key.same limit source
          ⟨source, components, typeParameters, arguments, inner⟩ work

def resolveOption (limit : Int) (room : Nat) :
    Option (List Property) → Bindings String → Resolving Key (List ParamType)
  | none, _ => pure []
  | some ps, bindings => resolveList limit room ps bindings

def resolveList (limit : Int) (room : Nat) :
    List Property → Bindings String → Resolving Key (List ParamType)
  | [], _ => pure []
  | p :: ps, bindings => do
    let type ← resolveIn limit room p bindings
    let types ← resolveList limit room ps bindings
    pure (type :: types)

def suspendOption (limit : Int) (room : Nat) :
    Option (List Property) → Bindings String → Option (List (String × Resolving Key ParamType))
  | none, _ => none
  | some ps, bindings => some (suspendList limit room ps bindings)

def suspendList (limit : Int) (room : Nat) :
    List Property → Bindings String → List (String × Resolving Key ParamType)
  | [], _ => []
  | p :: ps, bindings => (p.name, resolveIn limit room p bindings) :: suspendList limit room ps bindings

end

def resolve (limit : Int) (p : Property) (bindings : Bindings String) : Resolving Key ParamType :=
  resolveIn limit limit.toNat p bindings

def resolveAll (limit : Int) (ps : List Property) : Resolving Key (List ParamType) :=
  resolveList limit limit.toNat ps []

def fresh {α : Type} (work : Resolving Key α) : Except Fault α := (work Memory.empty).1

inductive Form where
  | string
  | array
  | custom

def Form.text : Form → String
  | string => "str[n]"
  | array => "[T; n]"
  | custom => "struct T` or `enum T"

def Form.accepts : Form → TypeExpr → Bool
  | string, .str _ => true
  | array, .array _ _ => true
  | custom, .custom _ _ => true
  | _, _ => false

def resolveForm (limit : Int) (form : Form) (p : Property) : Except Fault ParamType :=
  let refused : Except Fault ParamType := .error (.invalidType (.otherForm form.text p.typeField))
  match TypeExpr.ofDatum p.typeField with
  | .ok expr => if form.accepts expr then fresh (resolve limit p []) else refused
  | .error (.invalidType _) => refused
  | .error fault => .error fault

end Property

end WordAbi
