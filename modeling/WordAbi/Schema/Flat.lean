import WordAbi.Schema.Memory
import WordAbi.Schema.Property
import WordAbi.Schema.Site
/-! The types of applications of declared types. Generic parameters are known by id; a type is
remembered for a declaration, its arguments and the types that generic parameters stand for. -/
namespace WordAbi

abbrev Declarations := Table Int TypeDeclaration

namespace Declarations

def ofList (declarations : List TypeDeclaration) : Declarations :=
  Table.ofList (declarations.map fun d => (d.typeId, d))

def find (table : Declarations) (id : Int) : Except Fault TypeDeclaration :=
  match Table.get? table id with
  | some declaration => .ok declaration
  | none => .error (.invalidType (.unknownId id))

structure Key where
  typeId : Int
  arguments : List ParamType
  bindings : Bindings Int

def Key.same (k l : Key) : Bool :=
  k.typeId == l.typeId && ParamType.sameList k.arguments l.arguments
    && Bindings.same k.bindings l.bindings

def declares (d : TypeDeclaration) (name : String) : Bool :=
  match d.typeField with
  | .str text => text == "generic " ++ name
  | _ => false

def substitute (table : Declarations) (source name : String) :
    Bindings Int → Except Fault ParamType
  | [] => .error (.invalidType (.unboundName source name))
  | (id, type) :: rest => do
    let d ← find table id
    if declares d name then .ok type else substitute table source name rest

abbrev Resolver := TypeApplication → Bindings Int → Resolving Key ParamType

abbrev Guard := (source : String) → Key → Option (Resolving Key ParamType) → Resolving Key ParamType

def suspend (deeper : Resolver) (components : Option (List TypeApplication)) (inner : Bindings Int) :
    Option (List (String × Resolving Key ParamType)) :=
  components.map (·.map fun c => (c.name, deeper c inner))

variable [Host]

mutual

/-- The type of an application, whose components are left to a resolver with less room, if there is
room for them. -/
def resolveWith (table : Declarations) (guard : Guard) (deeper : Option Resolver) : Resolver
  | .mk _ typeId applied, bindings => do
    let d ← Site.lift (find table typeId)
    let expr ← Site.lift (TypeExpr.ofDatum d.typeField)
    let source := d.typeField.display
    match expr with
    | .generic _ =>
      match Table.get? bindings d.typeId with
      | some type => pure type
      | none => throw (Fault.invalidType (.unboundId source d.typeId))
    | expr => do
      let arguments ← resolveArguments table guard deeper applied bindings
      if d.typeParameters.length ≠ arguments.length then
        throw (Fault.invalidType
          (.argumentCount source d.typeParameters.length arguments.length (some d.typeId)))
      else
        let inner := Bindings.extend bindings d.typeParameters arguments
        let work := deeper.map fun deeper => Site.build
          ⟨source, suspend deeper d.components inner, arguments,
            fun name => Site.lift (substitute table source name inner)⟩ expr
        guard source ⟨d.typeId, arguments, inner⟩ work

def resolveArguments (table : Declarations) (guard : Guard) (deeper : Option Resolver) :
    List TypeApplication → Bindings Int → Resolving Key (List ParamType)
  | [], _ => pure []
  | a :: as, bindings => do
    let type ← resolveWith table guard deeper a bindings
    let types ← resolveArguments table guard deeper as bindings
    pure (type :: types)

end

def resolverIn (table : Declarations) (guard : Guard) : (room : Nat) → Resolver
  | 0 => resolveWith table guard none
  | room + 1 => resolveWith table guard (some (resolverIn table guard room))

def resolve (table : Declarations) (limit : Int) (a : TypeApplication) : Resolving Key ParamType :=
  resolverIn table (Resolving.guarded Key.same limit) limit.toNat a []

def resolveAnew (table : Declarations) (limit : Int) (a : TypeApplication) : Except Fault ParamType :=
  (resolverIn table (Resolving.worked Key.same limit) limit.toNat a [] Memory.empty).1

def resolveAll (table : Declarations) (limit : Int) :
    List TypeApplication → Resolving Key (List ParamType)
  | [] => pure []
  | a :: as => do
    let type ← resolve table limit a
    let types ← resolveAll table limit as
    pure (type :: types)

end Declarations

end WordAbi
