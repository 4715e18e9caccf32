import WordAbi.Console.Level
import WordAbi.Number.Literal
import WordAbi.Text.Character
/-! Command line arguments: options by their names or unambiguous beginnings of them, with values
after `=` or as the next argument, and arguments in order. -/
namespace WordAbi.CommandLine

inductive OptionAction where
  | help
  | version
  | value (accepts : String → Bool)

structure OptionRule where
  name : String
  action : OptionAction

inductive Attached where
  | assigned (value : String)
  | joined (value : String)

def Attached.value : Attached → String
  | assigned value => value
  | joined value => value

inductive Mark where
  | argument
  | separator
  | option (rule : Option OptionRule) (attached : Option Attached)

inductive Refusal where
  | usage
  deriving DecidableEq

def isNegativeNumber (cs : List Char) : Bool :=
  match cs with
  | '-' :: rest =>
    let whole := rest.takeWhile Text.isDecimalDigit
    match rest.dropWhile Text.isDecimalDigit with
    | [] => !whole.isEmpty
    | ['\n'] => !whole.isEmpty
    | '.' :: fraction =>
      let digits := fraction.takeWhile Text.isDecimalDigit
      let after := fraction.dropWhile Text.isDecimalDigit
      !digits.isEmpty && (after = [] || after = ['\n'])
    | _ => false
  | _ => false

def splitEquals (cs : List Char) : Option (List Char × List Char) :=
  if cs.contains '=' then some (cs.takeWhile (· ≠ '='), (cs.dropWhile (· ≠ '=')).drop 1) else none

def abbreviated (rules : List OptionRule) (cs : List Char) : List (OptionRule × Option Attached) :=
  match cs with
  | '-' :: '-' :: _ =>
    let (start, attached) := match splitEquals cs with
      | some (name, value) => (name, some (Attached.assigned (String.ofList value)))
      | none => (cs, none)
    (rules.filter fun r => start.isPrefixOf r.name.toList).map fun r => (r, attached)
  | '-' :: c :: tail =>
    rules.filterMap fun r =>
      if r.name.toList = ['-', c] then some (r, some (.joined (String.ofList tail)))
      else if cs.isPrefixOf r.name.toList then some (r, none)
      else none
  | _ => []

def classify (rules : List OptionRule) (text : String) : Except Refusal Mark :=
  let cs := text.toList
  let named (name : List Char) := rules.find? fun r => r.name.toList = name
  match cs with
  | '-' :: _ :: _ =>
    match named cs with
    | some r => .ok (.option (some r) none)
    | none =>
      match (splitEquals cs).bind fun (name, value) => (named name).map fun r => (r, value) with
      | some (r, value) => .ok (.option (some r) (some (.assigned (String.ofList value))))
      | none =>
        match abbreviated rules cs with
        | [(r, attached)] => .ok (.option (some r) attached)
        | _ :: _ :: _ => .error .usage
        | [] =>
          .ok (if isNegativeNumber cs || cs.contains ' ' then .argument else .option none none)
  | _ => .ok .argument

def classifyAll (rules : List OptionRule) : List String → Except Refusal (List (String × Mark))
  | [] => .ok []
  | text :: rest =>
    if text = "--" then .ok ((text, .separator) :: rest.map fun t => (t, .argument))
    else do
      let mark ← classify rules text
      let marks ← classifyAll rules rest
      .ok ((text, mark) :: marks)

/-- What a parser has found: values of options, arguments in order, and whether something was left
over. An argument that reads as a separator, and is none, has no text. -/
structure Found where
  options : List (String × String) := []
  arguments : List (Option String) := []
  leftOver : Bool := false

inductive Outcome where
  | help
  | version
  | command (found : Found) (name : String) (arguments : List String)
  | found (found : Found)

def Found.value (found : Found) (name : String) : Option String :=
  (found.options.reverse.find? fun o => o.1 == name).map (·.2)

def endWith (ending : Outcome) (name : String) (attached : Option Attached) : Except Refusal Outcome :=
  match attached, name.toList with
  | none, _ => .ok ending
  | some (.joined tail), ['-', c] =>
    match tail.toList.dropWhile (· = c) with
    | '-' :: _ => .error .usage
    | '=' :: _ => .error .usage
    | _ => .ok ending
  | some _, _ => .error .usage

structure Pending where
  name : String
  accepts : String → Bool

inductive Beside where
  | nothing
  | argument
  | separator
  deriving DecidableEq

structure Progress where
  expected : Nat
  found : Found := {}
  pending : Option Pending := none
  beside : Beside := .nothing

namespace Progress

def leave (p : Progress) : Progress :=
  { p with found := { p.found with leftOver := true }, beside := .nothing }

def takeValue (p : Progress) (option : Pending) (value : String) : Except Refusal Progress :=
  if option.accepts value then
    .ok { p with
      found := { p.found with options := p.found.options ++ [(option.name, value)] }
      pending := none
      beside := .nothing }
  else .error .usage

/-- Takes an argument. One that reads as a separator keeps its text right after the separator. -/
def takeArgument (p : Progress) (text : String) : Progress :=
  match p.expected with
  | 0 => p.leave
  | n + 1 =>
    let kept := if text = "--" ∧ p.beside ≠ .separator then none else some text
    { p with
      expected := n
      found := { p.found with arguments := p.found.arguments ++ [kept] }
      beside := .argument }

def takeSeparator (p : Progress) : Progress :=
  match p.beside, p.expected with
  | .argument, _ => { p with beside := .nothing }
  | _, 0 => p.leave
  | _, _ + 1 => { p with beside := .separator }

end Progress

def collect (commands : Bool) : Progress → List (String × Mark) → Except Refusal Outcome
  | p, [] => if p.pending.isSome then .error .usage else .ok (.found p.found)
  | p, (text, mark) :: rest =>
    match p.pending, mark with
    | some option, .argument => do
      let p ← p.takeValue option text
      collect commands p rest
    | some _, _ => .error .usage
    | none, .option none _ => collect commands p.leave rest
    | none, .option (some ⟨name, .help⟩) attached => endWith .help name attached
    | none, .option (some ⟨name, .version⟩) attached => endWith .version name attached
    | none, .option (some ⟨name, .value accepts⟩) (some attached) => do
      let p ← p.takeValue ⟨name, accepts⟩ attached.value
      collect commands p rest
    | none, .option (some ⟨name, .value accepts⟩) none =>
      collect commands { p with pending := some ⟨name, accepts⟩, beside := .nothing } rest
    | none, .separator => if commands then .error .usage else collect commands p.takeSeparator rest
    | none, .argument =>
      if commands then .ok (.command p.found text (rest.map (·.1)))
      else collect commands (p.takeArgument text) rest

def parse (rules : List OptionRule) (commands : Bool) (expected : Nat) (arguments : List String) :
    Except Refusal Outcome := do
  let marks ← classifyAll rules arguments
  collect commands { expected } marks

end WordAbi.CommandLine
