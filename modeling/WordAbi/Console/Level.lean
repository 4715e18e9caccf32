import WordAbi.Number.Literal
import WordAbi.Version
/-! Levels and formats of console logs. -/
namespace WordAbi.Console

def levels : List (String × Int) :=
  [("CRITICAL", 50), ("ERROR", 40), ("WARNING", 30), ("INFO", 20), ("DEBUG", 10), ("NOTSET", 0),
    ("FATAL", 50), ("WARN", 30)]

def warning : Int := 30

def levelName (level : Int) : String :=
  match levels.find? fun entry => entry.2 == level with
  | some (name, _) => name
  | none => "Level " ++ Decimal.text level

def upper (c : Char) : Char :=
  if c = 'ı' then 'I' else if c = 'ſ' then 'S' else c.toUpper

def levelOfText (text : String) : Int :=
  let name := String.ofList ((Text.trim Text.isBlank text.toList).map upper)
  match levels.find? fun entry => entry.1 == name with
  | some (_, level) => level
  | none => warning

inductive Format where
  | text
  | json
  deriving DecidableEq, Repr

def formatName? (text : String) : Option Format :=
  match String.ofList (Text.lower (Text.trim Text.isBlank text.toList)) with
  | "json" => some .json
  | "text" => some .text
  | _ => none

def chooseFormat (environment : Environment) (asked : String) : Format :=
  match (environment "VM_ABI_LOG_FORMAT").bind formatName? with
  | some format => format
  | none => (formatName? asked).getD .text

def loggerName (name : String) : String := if name.isEmpty then "vm_abi" else name

end WordAbi.Console
