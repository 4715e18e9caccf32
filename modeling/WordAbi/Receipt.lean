import WordAbi.Decoder
import WordAbi.Json.Basic
import WordAbi.Token.Native
import WordAbi.Chunk
/-! Receipts of a call that carry encoded values, and reading them from JSON. -/
namespace WordAbi

inductive Receipt where
  | log (id value : Int)
  | logData (id : Int) (data : Bytes)
  | returned (value : Int)
  | returnedData (data : Bytes)

namespace Receipt

def payload : Receipt → Except Fault Bytes
  | log _ value => Word.checked value
  | logData _ data => .ok data
  | returned value => Word.checked value
  | returnedData data => .ok data

def logId? : Receipt → Option Int
  | log id _ => some id
  | logData id _ => some id
  | _ => none

def isReturn : Receipt → Bool
  | returned _ => true
  | returnedData _ => true
  | _ => false

inductive FieldProblem where
  | told (reason : String)
  | misuse (cause : Misuse)

def field (json : Json) (name : String) : Except FieldProblem Json :=
  match json.member? name with
  | some value => .ok value
  | none => .error (.told (Text.quoted name))

def shown (v : Datum) : String := String.ofList (v.repr.toList.take 200)

def wholeField (json : Json) (name : String) : Except FieldProblem Int := do
  let value ← field json name
  let datum : Datum := value.toNative
  match datum.toWhole with
  | .ok n => .ok n
  | .error .wrongKind =>
    .error (.told (s!"int() argument must be a string, a bytes-like object or a real number, not "
      ++ Text.quoted datum.kindName))
  | .error .badValue =>
    .error (.told (match value with
      | .float _ => "cannot convert float NaN to integer"
      | _ => "invalid literal for int() with base 10: " ++ shown datum))
  | .error cause => .error (.misuse cause)

def bytesField (json : Json) (name : String) : Except FieldProblem Bytes := do
  match ← field json name with
  | .str text =>
    match Hex.decodeChars (Hex.withoutMark text.toList) with
    | .ok bs => .ok bs
    | .error position =>
      .error (.told s!"non-hexadecimal number found in fromhex() arg at position {position}")
  | _ => .error (.misuse .missingMember)

def ofFields (kind : String) (json : Json) : Option (Except FieldProblem Receipt) :=
  match kind with
  | "Log" => some do
    let id ← wholeField json "logId"
    let value ← wholeField json "value"
    .ok (.log id value)
  | "LogData" => some do
    let id ← wholeField json "logId"
    let data ← bytesField json "data"
    .ok (.logData id data)
  | "Return" => some do
    let value ← wholeField json "value"
    .ok (.returned value)
  | "ReturnData" => some do
    let data ← bytesField json "data"
    .ok (.returnedData data)
  | _ => none

def ofJson (json : Json) : Except Fault Receipt :=
  match json with
  | .obj members =>
    let kind := (Table.get? members "type").getD .null
    let known := match kind with
      | .str name => (ofFields name json).map fun fields => (name, fields)
      | _ => none
    match known with
    | some (_, .ok receipt) => .ok receipt
    | some (name, .error (.told reason)) =>
      .error (.invalidData (.malformedReceipt name reason json.toNative))
    | some (_, .error (.misuse cause)) => .error (.misuse cause)
    | none => .error (.invalidData (.unknownReceipt (Datum.repr kind.toNative)))
  | json => .error (.invalidData (.receiptExpected (Datum.kindName json.toNative)))

end Receipt

end WordAbi
