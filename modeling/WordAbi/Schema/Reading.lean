import WordAbi.Schema.Property
/-! Reading schema nodes from JSON. A value of the wrong kind is a misuse, since documents are
checked before they are read. -/
namespace WordAbi

namespace Json

/-- The items of a value that can be gone through: of an array its items, of a text its characters,
of an object its names. -/
def items : Json → Except Fault (List Json)
  | arr vs => .ok vs
  | str text => .ok (text.toList.map fun c => str (String.singleton c))
  | obj members => .ok (members.map fun m => str m.1)
  | _ => .error (.misuse .wrongKind)

def nameText : Json → String
  | str text => text
  | v => Datum.display v.toNative

def nodeName (members : Table String Json) : String :=
  match Table.get? members "name" with
  | some v => v.nameText
  | none => ""

def required (members : Table String Json) (name : String) : Except Fault Json :=
  match Table.get? members name with
  | some v => .ok v
  | none => .error (.misuse .missingKey)

def whole (v : Json) : Except Fault Int :=
  match Native.toWhole (v.toNative : Datum) with
  | .ok n => .ok n
  | .error cause => .error (.misuse cause)

def requiredWhole (members : Table String Json) (name : String) : Except Fault Int := do
  let v ← required members name
  v.whole

def optionalItems (members : Table String Json) (name : String) : Except Fault (Option (List Json)) :=
  match Table.get? members name with
  | none => .ok none
  | some null => .ok none
  | some v => v.items.map some

end Json

def optionalNodes {α : Type} (nodes : Table String (Json × Except Fault (List α))) (name : String) :
    Except Fault (Option (List α)) :=
  match Table.get? nodes name with
  | none => .ok none
  | some (.null, _) => .ok none
  | some (_, result) => result.map some

namespace Property

def assemble (members : Table String Json)
    (nodes : Table String (Json × Except Fault (List Property))) : Except Fault Property := do
  let typeField ← Json.required members "type"
  let components ← optionalNodes nodes "components"
  let typeArguments ← optionalNodes nodes "typeArguments"
  let typeParameters ← Json.optionalItems members "typeParameters"
  .ok (.mk (Json.nodeName members) typeField.toNative components typeArguments
    (typeParameters.map (·.map Json.nameText)))

mutual

def ofJson : Json → Except Fault Property
  | .obj members => assemble members (memberNodes members)
  | _ => .error (.misuse .missingMember)

def memberNodes : List (String × Json) → List (String × Json × Except Fault (List Property))
  | [] => []
  | (name, v) :: rest => (name, v, nodesOf v) :: memberNodes rest

def nodesOf : Json → Except Fault (List Property)
  | .arr vs => ofJsonList vs
  | .str text => if text.isEmpty then .ok [] else .error (.misuse .missingMember)
  | .obj members => if members.isEmpty then .ok [] else .error (.misuse .missingMember)
  | _ => .error (.misuse .wrongKind)

def ofJsonList : List Json → Except Fault (List Property)
  | [] => .ok []
  | v :: vs => do
    let p ← ofJson v
    let ps ← ofJsonList vs
    .ok (p :: ps)

end

end Property

namespace TypeApplication

def assemble (members : Table String Json)
    (nodes : Table String (Json × Except Fault (List TypeApplication))) :
    Except Fault TypeApplication := do
  let typeId ← Json.requiredWhole members "type"
  let arguments ← optionalNodes nodes "typeArguments"
  .ok (.mk (Json.nodeName members) typeId (arguments.getD []))

mutual

def ofJson : Json → Except Fault TypeApplication
  | .obj members => assemble members (memberNodes members)
  | _ => .error (.misuse .missingMember)

def memberNodes : List (String × Json) → List (String × Json × Except Fault (List TypeApplication))
  | [] => []
  | (name, v) :: rest => (name, v, nodesOf v) :: memberNodes rest

def nodesOf : Json → Except Fault (List TypeApplication)
  | .arr vs => ofJsonList vs
  | .str text => if text.isEmpty then .ok [] else .error (.misuse .missingMember)
  | .obj members => if members.isEmpty then .ok [] else .error (.misuse .missingMember)
  | _ => .error (.misuse .wrongKind)

def ofJsonList : List Json → Except Fault (List TypeApplication)
  | [] => .ok []
  | v :: vs => do
    let a ← ofJson v
    let as ← ofJsonList vs
    .ok (a :: as)

end

def ofMember (members : Table String Json) (name : String) : Except Fault TypeApplication := do
  let v ← Json.required members name
  ofJson v

end TypeApplication

namespace TypeDeclaration

def ofJson : Json → Except Fault TypeDeclaration
  | .obj members => do
    let typeId ← Json.requiredWhole members "typeId"
    let typeField ← Json.required members "type"
    let components ← optionalNodes (TypeApplication.memberNodes members) "components"
    let parameters ← Json.optionalItems members "typeParameters"
    let parameters ← (parameters.getD []).mapM Json.whole
    .ok ⟨typeId, typeField.toNative, components, parameters⟩
  | _ => .error (.misuse .missingMember)

end TypeDeclaration

end WordAbi
