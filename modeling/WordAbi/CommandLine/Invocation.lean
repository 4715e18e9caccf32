import WordAbi.CommandLine.Arguments
import WordAbi.CommandLine.Help
/-! What the program is asked to do, from its arguments. -/
namespace WordAbi.CommandLine

inductive Command where
  | selectors (abi : Option String)
  | encode (abi function arguments : Option String) (base : Int) (contract : Option String)
  | decode (abi function data : Option String) (base : Int)
  | logs (abi receipts : Option String)

structure Invocation where
  format : Console.Format
  logLevel : String
  command : Command

inductive Ending where
  | told (text : String)
  | refused (refusal : Refusal)

def isWhole (text : String) : Bool := (Literal.decimal? text.toList).isSome

def helpRules : List OptionRule := [⟨"-h", .help⟩, ⟨"--help", .help⟩]

def mainRules : List OptionRule :=
  helpRules ++ [⟨"--version", .version⟩, ⟨"--format", .value (["text", "json"].contains ·)⟩,
    ⟨"--log-level", .value fun _ => true⟩]

def baseRule : OptionRule := ⟨"--base-offset", .value isWhole⟩

def contractRule : OptionRule := ⟨"--contract-id", .value fun _ => true⟩

def commandRules (name : String) : Option (List OptionRule × Nat × String) :=
  match name with
  | "selectors" => some (helpRules, 1, selectorsHelp)
  | "encode" => some (helpRules ++ [baseRule, contractRule], 3, encodeHelp)
  | "decode" => some (helpRules ++ [baseRule], 3, decodeHelp)
  | "logs" => some (helpRules, 2, logsHelp)
  | _ => none

def baseOf (found : Found) : Int :=
  ((found.value "--base-offset").bind fun text => Literal.decimal? text.toList).getD 0

def commandOf (name : String) (found : Found) : Option Command :=
  match name, found.arguments with
  | "selectors", [abi] => some (.selectors abi)
  | "encode", [abi, function, arguments] =>
    some (.encode abi function arguments (baseOf found) (found.value "--contract-id"))
  | "decode", [abi, function, data] => some (.decode abi function data (baseOf found))
  | "logs", [abi, receipts] => some (.logs abi receipts)
  | _, _ => none

def readCommand (name : String) (arguments : List String) : Except Ending Command :=
  match commandRules name with
  | none => .error (.refused .usage)
  | some (rules, expected, help) =>
    match parse rules false expected arguments with
    | .error refusal => .error (.refused refusal)
    | .ok .help => .error (.told help)
    | .ok (.found found) =>
      match commandOf name found with
      | some command => if found.leftOver then .error (.refused .usage) else .ok command
      | none => .error (.refused .usage)
    | .ok _ => .error (.refused .usage)

def read (version : String) (arguments : List String) : Except Ending Invocation :=
  match parse mainRules true 0 arguments with
  | .error refusal => .error (.refused refusal)
  | .ok .help => .error (.told mainHelp)
  | .ok .version => .error (.told ("vm-abi " ++ version ++ "\n"))
  | .ok (.found _) => .error (.refused .usage)
  | .ok (.command found name arguments) => do
    let command ← readCommand name arguments
    if found.leftOver then .error (.refused .usage)
    else
      let format := ((found.value "--format").bind Console.formatName?).getD .text
      .ok ⟨format, (found.value "--log-level").getD "WARNING", command⟩

end WordAbi.CommandLine
