import WordAbi.Fault
import WordAbi.Json.Basic
import WordAbi.TypeExpr.Lexeme
/-! What a program ABI document must look like, part by part, and where a document differs. Main
statement: a part has no violation of its kind exactly when its value is of one of its kinds. -/
namespace WordAbi

inductive JsonKind where
  | object
  | array
  | null
  | string
  | integer
  deriving DecidableEq

def JsonKind.text : JsonKind → String
  | object => "object"
  | array => "array"
  | null => "null"
  | string => "string"
  | integer => "integer"

def JsonKind.has : JsonKind → Json → Bool
  | object, .obj _ => true
  | array, .arr _ => true
  | null, .null => true
  | string, .str _ => true
  | integer, .int _ => true
  | integer, .float x => x.isIntegral
  | _, _ => false

inductive DocumentPart where
  | document
  | declarations
  | declaration
  | typeText
  | functions
  | function
  | functionName
  | inputs
  | loggedTypes
  | loggedType
  | configurables
  | configurable
  | applications
  | application
  | typeIds
  | natural
  | text
  | anyList

structure PartRules where
  kinds : List JsonKind
  required : List String := []
  members : List (String × DocumentPart) := []
  items : Option DocumentPart := none
  atLeastZero : Bool := false
  nonEmpty : Bool := false
  identifier : Bool := false

namespace DocumentPart

def rules : DocumentPart → PartRules
  | document =>
    { kinds := [.object], required := ["types", "functions"],
      members := [("types", declarations), ("functions", functions), ("loggedTypes", loggedTypes),
        ("configurables", configurables), ("messagesTypes", anyList)] }
  | declarations => { kinds := [.array], items := some declaration }
  | declaration =>
    { kinds := [.object], required := ["typeId", "type"],
      members := [("typeId", natural), ("type", typeText), ("components", applications),
        ("typeParameters", typeIds)] }
  | typeText => { kinds := [.string], nonEmpty := true }
  | functions => { kinds := [.array], items := some function }
  | function =>
    { kinds := [.object], required := ["name", "inputs", "output"],
      members := [("name", functionName), ("inputs", inputs), ("output", application),
        ("attributes", anyList)] }
  | functionName => { kinds := [.string], identifier := true }
  | inputs => { kinds := [.array], items := some application }
  | loggedTypes => { kinds := [.array, .null], items := some loggedType }
  | loggedType =>
    { kinds := [.object], required := ["logId", "loggedType"],
      members := [("logId", natural), ("loggedType", application)] }
  | configurables => { kinds := [.array, .null], items := some configurable }
  | configurable =>
    { kinds := [.object], required := ["name", "configurableType", "offset"],
      members := [("name", text), ("configurableType", application), ("offset", natural)] }
  | applications => { kinds := [.array, .null], items := some application }
  | application =>
    { kinds := [.object], required := ["name", "type"],
      members := [("name", text), ("type", natural), ("typeArguments", applications)] }
  | typeIds => { kinds := [.array, .null], items := some natural }
  | natural => { kinds := [.integer], atLeastZero := true }
  | text => { kinds := [.string] }
  | anyList => { kinds := [.array, .null] }

end DocumentPart

inductive Violation where
  | kind (value : Json) (kinds : List JsonKind)
  | missing (name : String)
  | negative (value : Json)
  | empty
  | noIdentifier (text : String)

namespace Violation

def shown (value : Json) : String := Datum.repr value.toNative

def identifierPattern : String := "^[A-Za-z_][A-Za-z0-9_]*$"

def message : Violation → String
  | kind value kinds =>
    shown value ++ " is not of type " ++ ", ".intercalate (kinds.map fun k => Text.quoted k.text)
  | missing name => Text.quoted name ++ " is a required property"
  | negative value => shown value ++ " is less than the minimum of 0"
  | empty => "'' should be non-empty"
  | noIdentifier text => Text.quoted text ++ " does not match " ++ Text.quoted identifierPattern

def isIdentifier : List Char → Bool
  | [] => false
  | c :: rest =>
    TypeExpr.isIdentStart c &&
      match rest.dropWhile TypeExpr.isIdentRest with
      | [] => true
      | ['\n'] => true
      | _ => false

def isNegative : Json → Bool
  | .int n => n < 0
  | .float x => x.belowRatio 0 1
  | _ => false

abbrev Placed := List String × Violation

def ownFirst (rules : PartRules) (value : Json) : List Violation :=
  (if rules.kinds.any (·.has value) then [] else [.kind value rules.kinds])
    ++ match value with
      | .obj members =>
        (rules.required.filter fun name => (Table.get? members name).isNone).map .missing
      | _ => []

def ownLast (rules : PartRules) (value : Json) : List Violation :=
  (if rules.atLeastZero && isNegative value then [.negative value] else [])
    ++ match value with
      | .str text =>
        (if rules.nonEmpty && text.isEmpty then [.empty] else [])
          ++ (if rules.identifier && !isIdentifier text.toList then [.noIdentifier text] else [])
      | _ => []

def placedAt (path : List String) (violations : List Violation) : List Placed :=
  violations.map fun v => (path, v)

def around (path : List String) (part : DocumentPart) (value : Json) (parts : List Placed) :
    List Placed :=
  placedAt path (ownFirst part.rules value) ++ parts ++ placedAt path (ownLast part.rules value)

def ofMembers (rules : PartRules) (checks : Table String (DocumentPart → List Placed)) :
    List Placed :=
  rules.members.flatMap fun (name, part) =>
    match Table.get? checks name with
    | some check => check part
    | none => []

mutual

def within (path : List String) (part : DocumentPart) : Json → List Placed
  | .obj members =>
    around path part (.obj members) (ofMembers part.rules (memberChecks path members))
  | .arr items =>
    around path part (.arr items) (match part.rules.items with
      | some item => withinItems path item 0 items
      | none => [])
  | value => around path part value []

def memberChecks (path : List String) :
    List (String × Json) → List (String × (DocumentPart → List Placed))
  | [] => []
  | (name, value) :: rest =>
    (name, fun part => within (path ++ [name]) part value) :: memberChecks path rest

def withinItems (path : List String) (part : DocumentPart) (index : Nat) : List Json → List Placed
  | [] => []
  | value :: rest =>
    within (path ++ [toString index]) part value ++ withinItems path part (index + 1) rest

end

/-- Whether one path stands before another or is the same: by the first step that differs, a path
before those that go on from it. -/
def pathBefore : List String → List String → Bool
  | [], _ => true
  | _ :: _, [] => false
  | s :: ss, t :: ts => s < t || (s == t && pathBefore ss ts)

def ofDocument (document : Json) : List Placed :=
  (within [] .document document).mergeSort fun a b => pathBefore a.1 b.1

def describe (v : Placed) : String :=
  (if v.1.isEmpty then "(root)" else "/".intercalate v.1) ++ ": " ++ v.2.message

theorem kindMemOwnFirstIff {rules : PartRules} {value : Json} :
    .kind value rules.kinds ∈ ownFirst rules value ↔ ∀ k ∈ rules.kinds, k.has value = false := by
  unfold ownFirst
  rw [List.mem_append]
  constructor
  · rintro (h | h)
    · split at h
      · simp at h
      · rename_i hk
        simpa using hk
    · split at h <;> simp at h
  · intro h
    left
    rw [if_neg (by simpa using h)]
    simp

end Violation

end WordAbi
