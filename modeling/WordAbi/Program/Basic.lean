import WordAbi.Call
import WordAbi.Configurable
import WordAbi.Json.Reader
import WordAbi.Log
import WordAbi.Program.Violation
import WordAbi.Schema.Flat
import WordAbi.Schema.Reading
/-! Program ABI documents: the types, functions, logs and configurable constants of a binary, and
what they answer about calls. A document is checked before it is read. -/
namespace WordAbi

structure AbiFunction where
  name : String
  inputs : List TypeApplication
  output : TypeApplication

structure LoggedType where
  logId : Int
  application : TypeApplication

structure ConfigurableDeclaration where
  name : String
  application : TypeApplication
  offset : Int

structure Program where
  declarations : Declarations
  functions : Table String AbiFunction
  loggedTypes : List LoggedType
  configurables : List ConfigurableDeclaration
  limit : Int

namespace Program

def check (document : Json) : Except Fault Unit :=
  match (Violation.ofDocument document).map Violation.describe with
  | [] => .ok ()
  | first :: rest => .error (.invalidType (.schemaMismatch first rest))

def members : Json → Except Fault (Table String Json)
  | .obj members => .ok members
  | _ => .error (.misuse .wrongKind)

def readList {α : Type} (members : Table String Json) (name : String)
    (read : Json → Except Fault α) : Except Fault (List α) := do
  let v ← Json.required members name
  let items ← v.items
  items.mapM read

def readOptionalList {α : Type} (members : Table String Json) (name : String)
    (read : Json → Except Fault α) : Except Fault (List α) := do
  let items ← Json.optionalItems members name
  (items.getD []).mapM read

def readFunction (v : Json) : Except Fault AbiFunction := do
  let ms ← members v
  let name ← Json.required ms "name"
  let inputs ← readList ms "inputs" TypeApplication.ofJson
  let output ← TypeApplication.ofMember ms "output"
  .ok ⟨name.nameText, inputs, output⟩

def readLoggedType (v : Json) : Except Fault LoggedType := do
  let ms ← members v
  let logId ← Json.requiredWhole ms "logId"
  let application ← TypeApplication.ofMember ms "loggedType"
  .ok ⟨logId, application⟩

def readConfigurable (v : Json) : Except Fault ConfigurableDeclaration := do
  let ms ← members v
  let name ← Json.required ms "name"
  let application ← TypeApplication.ofMember ms "configurableType"
  let offset ← Json.requiredWhole ms "offset"
  .ok ⟨name.nameText, application, offset⟩

def ofJson (limit : Int) (document : Json) : Except Fault Program := do
  check document
  let ms ← members document
  let declarations ← readList ms "types" TypeDeclaration.ofJson
  let functions ← readList ms "functions" readFunction
  let loggedTypes ← readOptionalList ms "loggedTypes" readLoggedType
  let configurables ← readOptionalList ms "configurables" readConfigurable
  .ok ⟨Declarations.ofList declarations, Table.ofList (functions.map fun f => (f.name, f)),
    loggedTypes, configurables, limit⟩

def ofText (limit : Int) (text : String) : Except Fault Program :=
  match Json.read text with
  | .ok document => ofJson limit document
  | .error reason => .error (.invalidType (.notJson reason))

abbrev Answering := Resolving Declarations.Key

def function (p : Program) (name : String) : Except Fault AbiFunction :=
  match p.functions.get? name with
  | some f => .ok f
  | none => .error (.invalidType (.unknownFunction name (Text.sorted p.functions.keys)))

def parameterTypes (p : Program) (name : String) : Answering (List ParamType) := do
  let f ← Site.lift (p.function name)
  p.declarations.resolveAll p.limit f.inputs

def outputType (p : Program) (name : String) : Answering ParamType := do
  let f ← Site.lift (p.function name)
  p.declarations.resolve p.limit f.output

def selector (p : Program) (name : String) : Answering Bytes := do
  let types ← p.parameterTypes name
  Site.lift (Signature.selector name types)

def encodeCall (p : Program) (settings : Settings) (name : String) (arguments : List Written) :
    Answering Call := do
  let types ← p.parameterTypes name
  let selector ← Site.lift (Signature.selector name types)
  let tokens ← Site.lift (Token.ofArguments types arguments)
  Site.lift (Call.ofTokens settings.maxDepth selector tokens)

def decodeOutput (p : Program) (settings : Settings) (name : String) (data : Bytes) (base : Int) :
    Answering Token := do
  let type ← p.outputType name
  Site.lift (decodeSingle settings type data base)

def logTypes (p : Program) : Answering LogTypes :=
  go [] p.loggedTypes
where
  go (types : LogTypes) : List LoggedType → Answering LogTypes
    | [] => pure types
    | logged :: rest => do
      let type ← p.declarations.resolve p.limit logged.application
      go (Table.insert types logged.logId type) rest

def configurableSlots (p : Program) : Answering Configurables :=
  go [] p.configurables
where
  go (slots : List Slot) : List ConfigurableDeclaration → Answering Configurables
    | [] => pure (.ofSlots slots.reverse)
    | declared :: rest => do
      let type ← p.declarations.resolve p.limit declared.application
      go (⟨declared.name, type, declared.offset⟩ :: slots) rest

end Program

end WordAbi
