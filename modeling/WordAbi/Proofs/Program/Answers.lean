import WordAbi.Proofs.Program.Validity
import WordAbi.Proofs.Schema.Flat.Recall
import WordAbi.Proofs.Schema.Flat.Termination
import WordAbi.Proofs.TypeExpr.Limit
/-! What can be asked of a program, and how it goes: a document is refused as an invalid type or gives a
program, and that answers whatever it is asked, in any order, with a result or with a fault of its schema, but
where a declared type has a number of more digits than the host reads. -/
namespace WordAbi

open List (Forall₂)
open Outcome (Faults faultsOk faultsError)
open Resolving (Upholds agreePure agreeBind agreeLift agreeLiftBind agreeMono)

namespace Fault

def Report.OfSchema : Report → Prop
  | .codec .invalidType _ _ => True
  | .codec .unsupported _ _ => True
  | .invariant _ => True
  | _ => False

def OfSchema (fault : Fault) : Prop := fault.report.OfSchema

end Fault

namespace Declarations

/-- A fault of the schema, or that a number in it has too many digits. -/
def Blames (table : Declarations) (fault : Fault) : Prop :=
  fault.OfSchema ∨ fault = .misuse .badValue ∧ table.Overlong

theorem blamesOfEnds {table : Declarations} {limit : Int} {fault : Fault} (ends : EndsWith table limit fault) :
    table.Blames fault := by
  refine ends.imp_left fun ended => ?_
  cases ended with
  | invalidType cause => exact trivial
  | keyword source => exact trivial
  | depth source => exact trivial
  | invariant cause => exact trivial

theorem upholdsResolve (table : Declarations) (limit : Int) (a : TypeApplication) :
    Upholds (·.opened = []) table.Blames (resolve table limit a) :=
  agreeMono (upholdsUnder table limit a []) fun _ => blamesOfEnds

theorem upholdsResolveAll (table : Declarations) (limit : Int) (as : List TypeApplication) :
    Upholds (·.opened = []) table.Blames (resolveAll table limit as) := by
  rw [resolveAllEq]
  exact Site.agreeResolveAll as fun a _ => upholdsResolve table limit a

theorem resolveUnread {table : Declarations} {a : TypeApplication} {d : TypeDeclaration} {fault : Fault}
    (found : table.find a.typeId = .ok d) (unread : TypeExpr.ofDatum d.typeField = .error fault) (limit : Int)
    (memory : Memory Key) : table.resolve limit a memory = (.error fault, memory) := by
  obtain ⟨name, id, applied⟩ := a
  have declared : table.find id = .ok d := found
  rw [resolve, resolverInNode, node, declared]
  change ((Site.lift (TypeExpr.ofDatum d.typeField) >>= _ : Resolving Key ParamType) memory) = _
  rw [unread]
  rfl

end Declarations

theorem Signature.faultsSelector (table : Declarations) (name : String) (types : List ParamType) :
    Faults table.Blames (selector name types) := by
  unfold selector ofFunction
  split
  · exact faultsOk _
  · exact faultsError (.inl trivial)

namespace Program

open Declarations (Key upholdsResolve upholdsResolveAll)

inductive Query where
  | parameterTypes (name : String)
  | outputType (name : String)
  | selector (name : String)
  | logTypes
  | configurableSlots
  | encodeCall (settings : Settings) (name : String) (arguments : List Written)
  | decodeOutput (settings : Settings) (name : String) (data : Bytes) (base : Int)

inductive Answer where
  | types (types : List ParamType)
  | type (type : ParamType)
  | selector (selector : Bytes)
  | logTypes (types : LogTypes)
  | slots (slots : Configurables)
  | call (call : Call)
  | token (token : Token)

def ask (p : Program) : Query → Answering Answer
  | .parameterTypes name => p.parameterTypes name >>= fun types => pure (.types types)
  | .outputType name => p.outputType name >>= fun type => pure (.type type)
  | .selector name => p.selector name >>= fun selector => pure (.selector selector)
  | .logTypes => p.logTypes >>= fun types => pure (.logTypes types)
  | .configurableSlots => p.configurableSlots >>= fun slots => pure (.slots slots)
  | .encodeCall settings name arguments =>
    p.encodeCall settings name arguments >>= fun call => pure (.call call)
  | .decodeOutput settings name data base =>
    p.decodeOutput settings name data base >>= fun token => pure (.token token)

def answers (p : Program) : List Query → Memory Key → List (Except Fault Answer)
  | [], _ => []
  | query :: rest, memory => (p.ask query memory).1 :: answers p rest (p.ask query memory).2

/-- The faults that a query may end with: what is asked about values may end with any, what is asked about
types only with those of the declarations. -/
def blame (p : Program) : Query → Fault → Prop
  | .encodeCall _ _ _ => fun _ => True
  | .decodeOutput _ _ _ _ => fun _ => True
  | _ => p.declarations.Blames

theorem faultsFunction (p : Program) (name : String) : Faults p.declarations.Blames (p.function name) := by
  unfold function
  split
  · exact faultsOk _
  · exact faultsError (.inl trivial)

theorem upholdsParameterTypes (p : Program) (name : String) :
    Upholds (·.opened = []) p.declarations.Blames (p.parameterTypes name) :=
  agreeLiftBind (faultsFunction p name) fun f _ => upholdsResolveAll p.declarations p.limit f.inputs

theorem upholdsOutputType (p : Program) (name : String) :
    Upholds (·.opened = []) p.declarations.Blames (p.outputType name) :=
  agreeLiftBind (faultsFunction p name) fun f _ => upholdsResolve p.declarations p.limit f.output

theorem upholdsSelector (p : Program) (name : String) :
    Upholds (·.opened = []) p.declarations.Blames (p.selector name) :=
  agreeBind (upholdsParameterTypes p name) fun types _ => agreeLift (Signature.faultsSelector _ name types)

theorem upholdsLogTypes (p : Program) : Upholds (·.opened = []) p.declarations.Blames p.logTypes := by
  have each (logged : List LoggedType) (types : LogTypes) :
      Upholds (·.opened = []) p.declarations.Blames (logTypes.go p types logged) := by
    induction logged generalizing types with
    | nil => exact agreePure types
    | cons first rest ih => exact agreeBind (upholdsResolve _ _ _) fun type _ => ih _
  exact each p.loggedTypes []

theorem upholdsConfigurableSlots (p : Program) : Upholds (·.opened = []) p.declarations.Blames p.configurableSlots := by
  have each (declared : List ConfigurableDeclaration) (slots : List Slot) :
      Upholds (·.opened = []) p.declarations.Blames (configurableSlots.go p slots declared) := by
    induction declared generalizing slots with
    | nil => exact agreePure _
    | cons first rest ih => exact agreeBind (upholdsResolve _ _ _) fun type _ => ih _
  exact each p.configurables []

theorem upholdsAsk (p : Program) (query : Query) : Upholds (·.opened = []) (p.blame query) (p.ask query) := by
  have any : ∀ fault : Fault, p.declarations.Blames fault → True := fun _ _ => trivial
  cases query with
  | parameterTypes name => exact agreeBind (upholdsParameterTypes p name) fun _ _ => agreePure _
  | outputType name => exact agreeBind (upholdsOutputType p name) fun _ _ => agreePure _
  | selector name => exact agreeBind (upholdsSelector p name) fun _ _ => agreePure _
  | logTypes => exact agreeBind (upholdsLogTypes p) fun _ _ => agreePure _
  | configurableSlots => exact agreeBind (upholdsConfigurableSlots p) fun _ _ => agreePure _
  | encodeCall settings name arguments =>
    refine agreeBind ?_ fun _ _ => agreePure _
    refine agreeBind (agreeMono (upholdsParameterTypes p name) any) fun types _ => ?_
    exact agreeLiftBind (fun _ _ => trivial) fun _ _ => agreeLiftBind (fun _ _ => trivial) fun _ _ =>
      agreeLift fun _ _ => trivial
  | decodeOutput settings name data base =>
    refine agreeBind ?_ fun _ _ => agreePure _
    exact agreeBind (agreeMono (upholdsOutputType p name) any) fun type _ => agreeLift fun _ _ => trivial

theorem faultsAnswers (p : Program) (queries : List Query) {memory : Memory Key} (idle : memory.opened = []) :
    Forall₂ (fun query outcome => Faults (p.blame query) outcome) queries (p.answers queries memory) := by
  induction queries generalizing memory with
  | nil => exact .nil
  | cons query rest ih =>
    have upholds := upholdsAsk p query
    exact .cons (upholds.faults memory idle) (ih (upholds.keeps memory idle))

/-- A document that has a violation is refused as an invalid type, and any other gives a program. Whatever
that is asked, one query after another, each answer about types is a result, or it is told as an invalid type,
as something that is not supported or as a broken promise, or it fails at a number of too many digits, which
the text of a declaration has. -/
theorem ofJsonAnswers (limit : Int) (document : Json) :
    (Violation.ofDocument document ≠ [] ∧ ∃ cause, ofJson limit document = .error (.invalidType cause)) ∨
      (Violation.ofDocument document = [] ∧ ∃ p, ofJson limit document = .ok p ∧ ∀ queries : List Query,
        Forall₂ (fun query outcome => Faults (p.blame query) outcome) queries (p.answers queries Memory.empty)) := by
  rcases ofJsonEnds limit document with refused | ⟨none, p, built⟩
  · exact .inl refused
  · exact .inr ⟨none, p, built, fun queries => faultsAnswers p queries rfl⟩

theorem answersUnread {p : Program} {name : String} {f : AbiFunction} {d : TypeDeclaration} {fault : Fault}
    (called : p.function name = .ok f) (found : p.declarations.find f.output.typeId = .ok d)
    (unread : TypeExpr.ofDatum d.typeField = .error fault) (memory : Memory Key) :
    p.answers [.outputType name] memory = [.error fault] := by
  have failed : p.outputType name memory = (.error fault, memory) := by
    rw [outputType, called]
    exact Declarations.resolveUnread found unread p.limit memory
  rw [answers, answers, ask]
  simp only [bind, ExceptT.bind, ExceptT.mk, StateT.bind]
  rw [failed]
  rfl

def returning (text : String) : Json := .obj [
  ("types", .arr [.obj [("typeId", .int 0), ("type", .str text)]]),
  ("functions", .arr [.obj [("name", .str "f"), ("inputs", .arr []),
    ("output", .obj [("name", .str ""), ("type", .int 0)])]])]

theorem returningMeets {text : String} (filled : text ≠ "") : Violation.ofDocument (returning text) = [] := by
  have identifier : Violation.isIdentifier ['f'] = true := by decide
  have none : Violation.within [] .document (returning text) = [] := by
    simp [returning, Violation.within, Violation.around, Violation.ofMembers, Violation.memberChecks,
      Violation.withinItems, Violation.placedAt, Violation.ownFirst, Violation.ownLast, DocumentPart.rules,
      Table.get?, JsonKind.has, filled, Violation.isNegative, identifier]
  rw [Violation.ofDocument, none, List.mergeSort_nil]

/-- A length of too many digits is no violation in a document, and it is not told as an invalid type. -/
theorem overlongEscapes {digits : List Char} (decimal : ∀ c ∈ digits, Text.isDecimalDigit c = true)
    (long : 4300 < digits.length) {text : String} (written : text.toList = "str".toList ++ '[' :: (digits ++ [']']))
    (limit : Int) :
    Violation.ofDocument (returning text) = [] ∧ ∃ p, ofJson limit (returning text) = .ok p ∧
      p.answers [.outputType "f"] Memory.empty = [.error (.misuse .badValue)] := by
  have filled : text ≠ "" := by
    rintro rfl
    cases written
  have unread : TypeExpr.ofDatum (.str text) = .error (.misuse .badValue) := by
    refine TypeExpr.overlongStr (List.ne_nil_of_length_pos (by omega)) decimal (fun reads => ?_) written
    exact absurd (reads 4300 rfl) (by omega)
  have built : ofJson limit (returning text) =
      .ok ⟨[(0, ⟨0, .str text, none, []⟩)], [("f", ⟨"f", [], .mk "" 0 []⟩)], [], [], limit⟩ := by
    rw [ofJson, checkNone (returningMeets filled)]
    rfl
  exact ⟨returningMeets filled, _, built, answersUnread rfl rfl unread Memory.empty⟩

example :
    let application := fun (id : Int) => Json.obj [("name", .str ""), ("type", .int id)]
    let declaration := fun (id : Int) (text : String) (components : List Json) =>
      Json.obj [("typeId", .int id), ("type", .str text), ("components", .arr components)]
    let function := fun (name : String) (output : Int) => Json.obj [("name", .str name),
      ("inputs", .arr [application 0]), ("output", application output)]
    let document := Json.obj [
      ("types", .arr [declaration 0 "u64" [], declaration 1 "struct Loop" [application 1],
        declaration 2 "u256" [], declaration 3 "[(u64); 2]" []]),
      ("functions", .arr [function "number" 0, function "loop" 1, function "wide" 2, function "broken" 3,
        function "dangling" 4])]
    let told : Except Fault Answer → Option Fault.Code := fun outcome =>
      match outcome.mapError Fault.report with
      | .ok _ => none
      | .error (.codec code _ _) => some code
      | .error _ => some .general
    let queries : List Query := [.outputType "loop", .outputType "wide", .outputType "broken",
      .outputType "dangling", .parameterTypes "absent", .parameterTypes "loop"]
    (ofJson 5 document).toOption.map (fun p => (p.answers queries Memory.empty).map told) =
      some [some .invalidType, some .unsupported, some .general, some .invalidType, some .invalidType, none] := by
  decide +kernel

end Program

end WordAbi
