import WordAbi.Console.Level
import WordAbi.Console.Moment
import WordAbi.Json.Writer
import WordAbi.Table
import WordAbi.Token.Native
/-! Records of console logs and the two ways to write them. Values of the codec are made readable on
the way: bytes in hexadecimal, types and tokens by their texts, faults by code and message. -/
namespace WordAbi.Console

structure Told where
  code : Option Fault.Code
  message : String
  context : Context

def Told.name (told : Told) : String :=
  match told.code with
  | some code => code.name
  | none => "InvariantViolation"

inductive Part where
  | token (token : Token)
  | type (type : ParamType)
  | fault (told : Told)

abbrev FieldValue := Native Part

def Part.same : Part → Part → Bool
  | token t, token u => t.same u
  | type t, type u => t.same u
  | _, _ => false

def Part.fullText : Part → String
  | token t => t.fullText
  | type t => t.fullText
  | fault told => told.name ++ "(" ++ Text.quoted told.message ++ ")"

def Part.display : Part → Except Fault String
  | token t => t.display
  | type t => if t.hasName then .ok t.typeName else .error (.misuse .notDefined)
  | fault told => .ok told.message

def Told.fields (told : Told) (code : Fault.Code) : Datum :=
  .dict [(.str "code", .str code.text), (.str "message", .str told.message),
    (.str "context", .dict (told.context.map fun (name, value) => (.str name, value)))]

mutual

def readable : FieldValue → Except Fault Datum
  | .null => .ok .null
  | .bool b => .ok (.bool b)
  | .int n => .ok (.int n)
  | .float x => .ok (.float x)
  | .str text => .ok (.str text)
  | .bytes bs => .ok (.str ("0x" ++ Hex.encode bs))
  | .list items => (readableItems items).map .list
  | .tuple items => (readableItems items).map .list
  | .dict entries => .ok (.str (Native.repr Part.fullText (.dict entries)))
  | .embedded (.fault ⟨some code, message, context⟩) => .ok (Told.fields ⟨some code, message, context⟩ code)
  | .embedded part => part.display.map .str

def readableItems : List FieldValue → Except Fault (List Datum)
  | [] => .ok []
  | v :: vs => do
    let value ← readable v
    let values ← readableItems vs
    .ok (value :: values)

end

def memberName : Datum → Except Fault String
  | .str text => .ok text
  | .int n => .ok (Decimal.text n)
  | .float x => .ok (Json.numberStyle.write x)
  | .bool b => .ok (if b then "true" else "false")
  | .null => .ok "null"
  | _ => .error (.misuse .wrongKind)

mutual

def toJson : Datum → Except Fault Json
  | .null => .ok .null
  | .bool b => .ok (.bool b)
  | .int n => .ok (.int n)
  | .float x => .ok (.float x)
  | .str text => .ok (.str text)
  | .bytes bs => .ok (.str (Text.quotedBytes bs))
  | .list items => (toJsonItems items).map .arr
  | .tuple items => (toJsonItems items).map .arr
  | .dict entries => (toJsonMembers entries).map .obj
  | .embedded e => e.elim

def toJsonItems : List Datum → Except Fault (List Json)
  | [] => .ok []
  | v :: vs => do
    let value ← toJson v
    let values ← toJsonItems vs
    .ok (value :: values)

def toJsonMembers : List (Datum × Datum) → Except Fault (List (String × Json))
  | [] => .ok []
  | (k, v) :: rest => do
    let name ← memberName k
    let value ← toJson v
    let members ← toJsonMembers rest
    .ok ((name, value) :: members)

end

structure Record where
  logger : String
  levelName : String
  message : String
  created : Moment
  fields : Table String FieldValue
  fault : Option Told

namespace Record

def ownNames : List String :=
  ["name", "msg", "args", "levelname", "levelno", "pathname", "filename", "module", "exc_info",
    "exc_text", "stack_info", "lineno", "funcName", "created", "msecs", "relativeCreated", "thread",
    "threadName", "processName", "process", "message", "asctime"]

def asText : FieldValue → Except Fault String
  | .str text => .ok text
  | _ => .error (.misuse .wrongKind)

def checkedMoment (t : Moment) : Except Fault Moment :=
  if -0x8000000000000000 ≤ t.seconds ∧ t.seconds < 0x8000000000000000 then .ok t else .error (.misuse .tooLarge)

def asMoment : FieldValue → Except Fault Moment
  | .int n => checkedMoment (.ofSeconds n)
  | .bool b => .ok (.ofSeconds (if b then 1 else 0))
  | .float x =>
    match Moment.ofBinary64? x, x with
    | some t, _ => checkedMoment t
    | none, .nan => .error (.misuse .badValue)
    | none, _ => .error (.misuse .tooLarge)
  | _ => .error (.misuse .wrongKind)

def shownText : FieldValue → Except Fault String
  | .embedded part => part.display
  | v => .ok (Native.display Part.fullText v)

def set (r : Record) (name : String) (value : FieldValue) : Except Fault Record :=
  if name = "name" then (asText value).map fun text => { r with logger := text }
  else if name = "levelname" then (asText value).map fun text => { r with levelName := text }
  else if name = "msg" then (shownText value).map fun text => { r with message := text }
  else if name = "created" then (asMoment value).map fun t => { r with created := t }
  else .ok { r with fields := r.fields.insert name value }

def setAll (r : Record) (fields : List (String × FieldValue)) : Except Fault Record :=
  fields.foldlM (fun r field => set r field.1 field.2) r

def shownFields (r : Record) : Except Fault (List (String × Datum)) :=
  (r.fields.filter fun field => !ownNames.contains field.1 && !field.1.startsWith "_").mapM
    fun (name, value) => (readable value).map fun v => (name, v)

def timestamp (r : Record) : Except Fault String :=
  match r.created.text? with
  | some text => .ok text
  | none => .error (.misuse .badValue)

def faultText (told : Told) : String :=
  "vm_abi.errors." ++ told.name ++ (if told.message.isEmpty then "" else ": " ++ told.message)

def padRight (width : Nat) (text : String) : String :=
  text ++ String.ofList (List.replicate (width - text.length) ' ')

def toText (r : Record) : Except Fault String := do
  let timestamp ← r.timestamp
  let fields ← r.shownFields
  let shown := " ".intercalate (fields.map fun (name, value) => name ++ "=" ++ value.display)
  let parts := [timestamp, padRight 5 r.levelName, r.logger]
    ++ (if fields.isEmpty then [] else [shown]) ++ [r.message]
  .ok (" | ".intercalate parts ++ match r.fault with
    | some told => "\n" ++ faultText told
    | none => "")

def toJsonText (r : Record) : Except Fault String := do
  let timestamp ← r.timestamp
  let own : Table String Json := [("ts", .str timestamp), ("level", .str r.levelName),
    ("logger", .str r.logger), ("msg", .str r.message)]
  let fields ← r.shownFields
  let further ← (fields.filter fun field => (Table.get? own field.1).isNone).mapM
    fun (name, value) => (toJson value).map fun v => (name, v)
  let members : Table String Json := own ++ further
  .ok (Json.compact (.obj (match r.fault with
    | some told => members.insert "exc" (.str (faultText told))
    | none => members)))

end Record

end WordAbi.Console
