import WordAbi.CommandLine.Run
import WordAbi.Version
/-! The program: reads the files that the arguments name and writes the answer. -/
namespace WordAbi.CommandLine

def readPath (path : String) : IO (Option String) := do
  try
    let text ← IO.FS.readFile path
    pure (some text)
  catch _ => pure none

def Command.paths : Command → List String
  | selectors abi => abi.toList
  | encode abi _ _ _ _ => abi.toList
  | decode abi _ _ _ => abi.toList
  | logs abi receipts => abi.toList ++ (receipts.filter (· ≠ "-")).toList

def Command.readsInput : Command → Bool
  | logs _ receipts => receipts = some "-"
  | _ => false

partial def readAll (stream : IO.FS.Stream) (before : String) : IO String := do
  let line ← stream.getLine
  if line.isEmpty then pure before else readAll stream (before ++ line)

def environmentNames : List String :=
  ["VM_ABI_MAX_DEPTH", "VM_ABI_MAX_PAYLOAD_BYTES", "VM_ABI_STRICT_BOOL", "VM_ABI_VERSION"]

def readEnvironment : IO Environment := do
  let values ← environmentNames.mapM fun name => do
    let value ← IO.getEnv name
    pure (name, value)
  pure fun name => (values.find? fun v => v.1 == name).bind (·.2)

def start (arguments : List String) : IO UInt32 := do
  let environment ← readEnvironment
  match read (Version.ofEnvironment environment) arguments with
  | .error (.told text) =>
    (← IO.getStdout).putStr text
    pure 0
  | .error (.refused _) =>
    (← IO.getStderr).putStr "vm-abi: error: the arguments are not understood; see vm-abi --help\n"
    pure 2
  | .ok invocation =>
    let files ← invocation.command.paths.mapM fun path => do
      let text ← readPath path
      pure (path, text)
    let input ← if invocation.command.readsInput then readAll (← IO.getStdin) "" else pure ""
    let sources : Sources :=
      ⟨fun path => (files.find? fun f => f.1 == path).bind (·.2), input⟩
    match run (Settings.ofEnvironment environment) sources invocation with
    | .ok written =>
      (← IO.getStdout).putStr written.output
      (← IO.getStderr).putStr written.errors
      pure written.status.toUInt32
    | .error fault =>
      match fault.report with
      | .invariant message => (← IO.getStderr).putStr (message ++ "\n")
      | _ => (← IO.getStderr).putStr "the input is not of the form that is expected\n"
      pure 1

end WordAbi.CommandLine

def main (arguments : List String) : IO UInt32 := WordAbi.CommandLine.start arguments
