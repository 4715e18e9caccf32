import WordAbi.TypeExpr.Basic
/-! From a type expression to the type, at one node of a schema. What the node offers (components,
arguments of generics, a meaning for generic parameters) is the same for every form of schema. -/
namespace WordAbi

namespace ParamType

def unsupportedKeywords : List String :=
  ["u128", "u256", "str", "raw untyped ptr", "raw_ptr", "raw_slice"]

def ofKeyword (source word : String) : Except Fault ParamType :=
  match Primitive.ofKeyword? word with
  | some p => .ok (.primitive p)
  | none =>
    if unsupportedKeywords.contains word then .error (.unsupported (.keyword source))
    else .error (.invalidType (.unknownKeyword source word))

end ParamType

/-- A node of a schema. The types of its components are worked out where they are needed, each with
the name of the member that it is the type of. -/
structure Site (m : Type → Type) where
  source : String
  components : Option (List (String × m ParamType))
  arguments : List ParamType
  substitute : String → m ParamType

namespace Site

variable {m : Type → Type} [Monad m] [MonadExceptOf Fault m]

def lift {α : Type} (result : Except Fault α) : m α :=
  match result with
  | .ok a => pure a
  | .error fault => throw fault

def standalone (site : Site m) : TypeExpr → m ParamType
  | .keyword word => lift (ParamType.ofKeyword site.source word)
  | .str length => pure (.string length)
  | .array element length => do
    let type ← standalone site element
    pure (.array type length)
  | .generic name => site.substitute name
  | .tuple _ => throw (Fault.invariant (.arrayElement site.source))
  | .custom _ _ => throw (Fault.invariant (.arrayElement site.source))

def resolveAll : List (String × m ParamType) → m (List ParamType)
  | [] => pure []
  | (_, resolve) :: rest => do
    let type ← resolve
    let types ← resolveAll rest
    pure (type :: types)

def lastSegment (name : String) : String :=
  String.ofList (go [] name.toList)
where
  go (segment : List Char) : List Char → List Char
    | ':' :: ':' :: rest => go [] rest
    | c :: rest => go (c :: segment) rest
    | [] => segment.reverse

def vectorElement? (site : Site m) (kind : CustomKind) (name : String) : Option ParamType :=
  match kind, site.arguments with
  | .struct, [element] => if lastSegment name = "Vec" then some element else none
  | _, _ => none

def custom (site : Site m) (kind : CustomKind) (name : String) : m ParamType :=
  match site.vectorElement? kind name with
  | some element => pure (.vector element)
  | none =>
    match site.components with
    | none => throw (Fault.invalidType (.noComponents site.source))
    | some [] => throw (Fault.invalidType (.noComponents site.source))
    | some components => do
      let types ← resolveAll components
      let names := components.map (·.1)
      match kind with
      | .struct => pure (.struct types site.arguments name names)
      | .enum => pure (.enum types site.arguments name names)

def build (site : Site m) : TypeExpr → m ParamType
  | .keyword word => lift (ParamType.ofKeyword site.source word)
  | .str length => pure (.string length)
  | .array element length =>
    match site.components with
    | none => do
      let type ← site.standalone element
      pure (.array type length)
    | some [] => do
      let type ← site.standalone element
      pure (.array type length)
    | some [(_, resolve)] => do
      let type ← resolve
      pure (.array type length)
    | some components =>
      throw (Fault.invalidType (.arrayComponents site.source components.length))
  | .tuple elements =>
    match site.components with
    | none => throw (Fault.invariant (.tupleComponents site.source))
    | some components =>
      if components.length = elements.length then do
        let types ← resolveAll components
        pure (.tuple types)
      else
        throw (Fault.invalidType (.tupleComponents site.source elements.length components.length))
  | .custom kind name => site.custom kind name
  | .generic name => site.substitute name

end Site

end WordAbi
