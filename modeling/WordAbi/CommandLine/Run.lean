import WordAbi.CommandLine.Invocation
import WordAbi.Json.Writer
import WordAbi.Program.Basic
/-! What the commands write. A fault of the codec is told on the error output; every other fault ends
the program. -/
namespace WordAbi.CommandLine

structure Sources where
  file : String → Option String
  input : String

structure Outputs where
  status : Nat
  output : String
  errors : String

def unifyLines : List Char → List Char
  | '\r' :: '\n' :: rest => '\n' :: unifyLines rest
  | '\r' :: rest => '\n' :: unifyLines rest
  | c :: rest => c :: unifyLines rest
  | [] => []

def textOf (argument : Option String) (lack : Misuse) : Except Fault String :=
  match argument with
  | some text => .ok text
  | none => .error (.misuse lack)

def Sources.readFile (sources : Sources) (path : Option String) : Except Fault String := do
  let path ← textOf path .wrongKind
  match sources.file path with
  | some text => .ok (String.ofList (unifyLines text.toList))
  | none => .error (.misuse .missingFile)

def readHex (text : String) : Except Fault Bytes :=
  match Hex.decodeChars (Hex.withoutMark text.toList) with
  | .ok bs => .ok bs
  | .error _ => .error (.invalidData (.notHex text))

def readArray (subject text : String) : Except Fault (List Json) :=
  match Json.read text with
  | .ok (.arr items) => .ok items
  | .ok _ => .error (.invalidData (.notArray subject))
  | .error reason => .error (.invalidData (.notJson subject reason))

mutual

def ofDatum : Datum → Json
  | .null => .null
  | .bool b => .bool b
  | .int n => .int n
  | .float x => .float x
  | .str text => .str text
  | .bytes bs => .str ("0x" ++ Hex.encode bs)
  | .list items => .arr (ofData items)
  | .tuple items => .arr (ofData items)
  | .dict entries => .obj (ofEntries entries)
  | .embedded e => e.elim

def ofData : List Datum → List Json
  | [] => []
  | v :: vs => ofDatum v :: ofData vs

def ofEntries : List (Datum × Datum) → List (String × Json)
  | [] => []
  | (k, v) :: rest => (k.display, ofDatum v) :: ofEntries rest

end

structure Answer where
  json : Json
  lines : List String

def Answer.text (answer : Answer) : Console.Format → String
  | .json => answer.json.indented 0 ++ "\n"
  | .text => String.join (answer.lines.map (· ++ "\n"))

def prefixedHex (bs : Bytes) : String := "0x" ++ Hex.encode bs

def selectorRows (p : Program) : List String → Program.Answering (List (String × String × String))
  | [] => pure []
  | name :: names => do
    let types ← p.parameterTypes name
    let signature ← Site.lift (Signature.ofFunction name types)
    let selector ← p.selector name
    let rows ← selectorRows p names
    pure ((name, signature, prefixedHex selector) :: rows)

def fresh {α : Type} (work : Program.Answering α) : Except Fault α := (work Memory.empty).1

def answerSelectors (p : Program) : Except Fault Answer := do
  let rows ← fresh (selectorRows p p.functions.keys)
  .ok {
    json := .obj [("functions", .arr (rows.map fun (name, signature, selector) =>
      .obj [("function", .str name), ("signature", .str signature), ("selector", .str selector)]))]
    lines := rows.map fun (_, signature, selector) => selector ++ "  " ++ signature }

def answerEncode (settings : Settings) (p : Program) (function arguments : Option String)
    (base : Int) (contract : Option String) : Except Fault Answer := do
  let arguments ← textOf arguments .wrongKind
  let items ← readArray "ARGS" arguments
  let function ← textOf function .wrongKind
  let call ← fresh (p.encodeCall settings function (items.map Json.toNative))
  let data ← match contract with
    | none => call.toBytes base
    | some text =>
      if text.isEmpty then call.toBytes base
      else do
        let contract ← readHex text
        call.scriptBytes contract base
  .ok {
    json := .obj [("function", .str function), ("selector", .str (prefixedHex call.selector)),
      ("offset_word", .bool call.byReference), ("data", .str (prefixedHex data))]
    lines := [prefixedHex data] }

def answerDecode (settings : Settings) (p : Program) (function data : Option String) (base : Int) :
    Except Fault Answer := do
  let data ← textOf data .missingMember
  let bytes ← readHex data
  let function ← textOf function .wrongKind
  let value ← fresh do
    let token ← p.decodeOutput settings function bytes base
    let type ← p.outputType function
    Site.lift (token.toDatum (some type))
  .ok { json := .obj [("function", .str function), ("value", ofDatum value)], lines := [value.repr] }

def answerLogs (settings : Settings) (p : Program) (text : String) : Except Fault Answer := do
  let items ← readArray "receipts" text
  let receipts ← items.mapM Receipt.ofJson
  let types ← fresh p.logTypes
  let logs ← types.fetchLogs settings receipts
  .ok { json := .obj [("logs", .arr (logs.map .str))], lines := logs }

def loadProgram (settings : Settings) (sources : Sources) (path : Option String) :
    Except Fault Program := do
  let text ← sources.readFile path
  Program.ofText settings.maxDepth text

def answer (settings : Settings) (sources : Sources) : Command → Except Fault Answer
  | .selectors abi => do
    let p ← loadProgram settings sources abi
    answerSelectors p
  | .encode abi function arguments base contract => do
    let p ← loadProgram settings sources abi
    answerEncode settings p function arguments base contract
  | .decode abi function data base => do
    let p ← loadProgram settings sources abi
    answerDecode settings p function data base
  | .logs abi receipts => do
    let p ← loadProgram settings sources abi
    let text ← if receipts = some "-" then .ok sources.input else sources.readFile receipts
    answerLogs settings p text

def run (settings : Settings) (sources : Sources) (invocation : Invocation) : Except Fault Outputs :=
  match answer settings sources invocation.command with
  | .ok answer => .ok ⟨0, answer.text invocation.format, ""⟩
  | .error fault =>
    match fault.report with
    | .codec code message _ => .ok ⟨2, "", "error: " ++ code.text ++ ": " ++ message ++ "\n"⟩
    | _ => .error fault

end WordAbi.CommandLine
