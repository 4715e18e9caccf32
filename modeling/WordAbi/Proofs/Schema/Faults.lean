import WordAbi.Proofs.Schema.Build
/-! Faults that a node of a schema has by itself, whatever its components are: its type expression can not
be read, or it does not fit what the node offers. -/
namespace WordAbi

def Fault.OfNode : Fault → Prop
  | invalidType (.recursive _) => False
  | invalidType _ => True
  | unsupported (.keyword _) => True
  | invariant _ => True
  | _ => False

def Fault.OfText (overlong : Prop) : Fault → Prop
  | invalidType (.recursive _) => False
  | invalidType _ => True
  | misuse .badValue => overlong
  | _ => False

theorem Fault.ofNodeOfText {overlong : Prop} {fault : Fault} (unread : fault.OfText overlong) :
    fault.OfNode ∨ fault = .misuse .badValue ∧ overlong := by
  cases fault with
  | invalidType cause => cases cause <;> first | exact .inl trivial | cases unread
  | misuse cause => cases cause <;> first | exact .inr ⟨rfl, unread⟩ | cases unread
  | _ => cases unread

def Fault.NotRecursive (fault : Fault) : Prop := ∀ source, fault ≠ .invalidType (.recursive source)

def Fault.OfDepth (limit : Int) (fault : Fault) : Prop :=
  ∃ source, fault = .unsupported (.resolutionDepth limit source)

theorem Fault.notRecursiveOfNode {fault : Fault} (own : fault.OfNode) : fault.NotRecursive := by
  rintro source rfl
  cases own

namespace Outcome

variable {α β : Type} {blame : Fault → Prop}

def Faults (blame : Fault → Prop) (outcome : Except Fault α) : Prop :=
  ∀ fault, outcome = .error fault → blame fault

def Recursive (outcome : Except Fault α) : Prop :=
  ∃ source, outcome = .error (.invalidType (.recursive source))

def TooDeep (limit : Int) (outcome : Except Fault α) : Prop :=
  ∃ source, outcome = .error (.unsupported (.resolutionDepth limit source))

def isRecursive : Except Fault α → Bool
  | .error (.invalidType (.recursive _)) => true
  | _ => false

theorem isRecursiveIff (outcome : Except Fault α) : isRecursive outcome = true ↔ Recursive outcome := by
  constructor
  · unfold isRecursive
    split
    · exact fun _ => ⟨_, rfl⟩
    · exact fun absurd => nomatch absurd
  · rintro ⟨source, rfl⟩
    rfl

instance (outcome : Except Fault α) : Decidable (Recursive outcome) :=
  decidable_of_iff _ (isRecursiveIff outcome)

theorem faultsOk (a : α) : Faults blame (.ok a) := fun _ absurd => nomatch absurd

theorem faultsError {fault : Fault} (holds : blame fault) :
    Faults blame (.error fault : Except Fault α) := by
  intro other same
  cases same
  exact holds

theorem faultsBind {outcome : Except Fault α} {next : α → Except Fault β} (first : Faults blame outcome)
    (rest : ∀ a, Faults blame (next a)) : Faults blame (outcome >>= next) := by
  cases outcome with
  | ok a => exact rest a
  | error fault => exact faultsError (first fault rfl)

theorem notRecursive {outcome : Except Fault α} (faults : Faults Fault.NotRecursive outcome) :
    ¬ Recursive outcome := by
  rintro ⟨source, failed⟩
  exact faults _ failed source rfl

theorem okOrTooDeep {limit : Int} {outcome : Except Fault α} (faults : Faults (Fault.OfDepth limit) outcome) :
    (∃ a, outcome = .ok a) ∨ TooDeep limit outcome := by
  cases outcome with
  | ok a => exact .inl ⟨a, rfl⟩
  | error fault =>
    obtain ⟨source, rfl⟩ := faults fault rfl
    exact .inr ⟨source, rfl⟩

theorem faultsIte {condition : Prop} [Decidable condition] {one other : Except Fault α}
    (first : Faults blame one) (second : Faults blame other) :
    Faults blame (if condition then one else other) := by
  split
  · exact first
  · exact second

end Outcome

open Outcome (Faults faultsOk faultsError faultsBind faultsIte)

namespace TypeExpr

def Lexeme.Overlong [Host] (l : Lexeme) : Prop := l.kind = .number ∧ ¬ Host.Reads l.chars

/-- One of the numbers in the text has more digits than the host reads. -/
def Overlong [Host] (typeField : Datum) : Prop :=
  ∃ source ls, typeField = .str source ∧ lexemes source = .ok ls ∧ ∃ l ∈ ls, l.Overlong

theorem notOverlong (typeField : Datum) : ¬ @Overlong .unlimited typeField :=
  fun ⟨_, _, _, _, l, _, _, unread⟩ => unread (Host.unlimitedReads l.chars)

section

variable {overlong : Prop}

theorem faultsExpectText (source text : String) (l : Lexeme) (next : Reading) :
    Faults (Fault.OfText overlong) (expectText source text l next) :=
  faultsIte (faultsOk next) (faultsError trivial)

theorem faultsExpectKind (source : String) (kind : LexemeKind) (l : Lexeme) (next : List Char → Reading) :
    Faults (Fault.OfText overlong) (expectKind source kind l next) :=
  faultsIte (faultsOk _) (faultsError trivial)

theorem faultsExpectNumber [Host] (source : String) {l : Lexeme} (next : Nat → Reading)
    (long : l.Overlong → overlong) : Faults (Fault.OfText overlong) (expectNumber source l next) := by
  unfold expectNumber
  split
  · exact faultsError trivial
  · rename_i number
    split
    · exact faultsOk _
    · rename_i unread
      exact faultsError (long ⟨not_not.mp number, unread⟩)

theorem faultsTakeType (source : String) (stack : List Frame) (l : Lexeme) :
    Faults (Fault.OfText overlong) (takeType source stack l) := by
  refine faultsIte (faultsOk _) (faultsIte (faultsOk _) (faultsIte (faultsError trivial) ?_))
  refine faultsIte (faultsOk _) (faultsIte (faultsOk _) (faultsIte (faultsOk _) ?_))
  exact faultsIte (faultsOk _) (faultsIte (faultsOk _) (faultsOk _))

theorem faultsTakeAfter (source : String) (stack : List Frame) (expr : TypeExpr) (l : Lexeme) :
    Faults (Fault.OfText overlong) (takeAfter source stack expr l) :=
  match stack with
  | [] => faultsError trivial
  | .tuple _ :: _ => faultsIte (faultsOk _) (faultsExpectText source ")" l _)
  | .array :: _ => faultsExpectText source ";" l _

theorem faultsAdvance [Host] (source : String) (stack : List Frame) (state : State) {l : Lexeme}
    (long : l.Overlong → overlong) : Faults (Fault.OfText overlong) (advance source stack state l) := by
  cases state <;> rw [advance]
  case type => exact faultsTakeType source stack l
  case firstElement => exact faultsIte (faultsOk _) (faultsTakeType source _ l)
  case afterStr => exact faultsIte (faultsOk _) (faultsTakeAfter source stack _ l)
  case complete expr => exact faultsTakeAfter source stack expr l
  case strLength | arrayLength => exact faultsExpectNumber source _ long
  case customName | genericName => exact faultsExpectKind source _ l _
  case strClose | untyped | pointer | arrayClose => exact faultsExpectText source _ l _

theorem faultsFinish (source : String) (reading : Reading) :
    Faults (Fault.OfText overlong) (finish source reading) := by
  unfold finish
  split
  · exact faultsOk _
  · exact faultsOk _
  · exact faultsError trivial

theorem faultsRun [Host] (source : String) (reading : Reading) {ls : List Lexeme}
    (long : ∀ l ∈ ls, l.Overlong → overlong) : Faults (Fault.OfText overlong) (run source reading ls) := by
  induction ls generalizing reading with
  | nil => exact faultsFinish source reading
  | cons l rest ih =>
    obtain ⟨first, later⟩ := List.forall_mem_cons.mp long
    exact faultsBind (faultsAdvance source reading.1 reading.2 first) fun next => ih next later

theorem faultsLexemesFrom (source : String) (skip position : Nat) (cs : List Char) :
    Faults (Fault.OfText overlong) (lexemesFrom source skip position cs) := by
  induction cs generalizing skip position with
  | nil => cases skip <;> exact faultsOk []
  | cons c rest ih =>
    cases skip with
    | succ skip => exact ih skip (position + 1)
    | zero =>
      unfold lexemesFrom
      split
      · exact faultsBind (ih _ _) fun _ => faultsOk _
      · split
        · exact ih 0 (position + 1)
        · exact faultsError trivial

end

theorem faultsOfText [Host] (source : String) : Faults (Fault.OfText (Overlong (.str source))) (ofText source) := by
  unfold ofText
  split
  · exact faultsError trivial
  · cases read : lexemes source with
    | error fault => exact faultsError (faultsLexemesFrom source 0 0 source.toList fault read)
    | ok ls => exact faultsRun source _ fun l member long => ⟨source, ls, rfl, read, l, member, long⟩

theorem unlimitedFaults {source : String} {fault : Fault} (unread : @ofText .unlimited source = .error fault) :
    ∃ cause, fault = .invalidType cause := by
  have faults := @faultsOfText .unlimited source fault unread
  cases fault with
  | invalidType cause => exact ⟨cause, rfl⟩
  | misuse cause => cases cause <;> first | exact absurd faults (notOverlong _) | cases faults
  | _ => cases faults

theorem faultsOfDatum [Host] {typeField : Datum} {blame : Fault → Prop} (own : ∀ fault, fault.OfNode → blame fault)
    (long : Overlong typeField → blame (.misuse .badValue)) : Faults blame (ofDatum typeField) := by
  cases typeField with
  | str source =>
    intro fault unread
    obtain node | ⟨rfl, overlong⟩ := Fault.ofNodeOfText (faultsOfText source fault unread)
    · exact own fault node
    · exact long overlong
  | _ => exact faultsError (own _ trivial)

end TypeExpr

theorem ParamType.faultsOfKeyword (source word : String) : Faults Fault.OfNode (ofKeyword source word) := by
  unfold ofKeyword
  split
  · exact faultsOk _
  · split
    · exact faultsError trivial
    · exact faultsError trivial

namespace Site

theorem faultsStandalone (site : Site (Except Fault))
    (stands : ∀ word, Faults Fault.OfNode (site.substitute word)) :
    (expr : TypeExpr) → Faults Fault.OfNode (site.standalone expr)
  | .keyword word => by
    rw [standalone, liftExcept]
    exact ParamType.faultsOfKeyword site.source word
  | .str _ => faultsOk _
  | .array element _ => faultsBind (faultsStandalone site stands element) fun _ => faultsOk _
  | .generic word => stands word
  | .tuple _ => faultsError trivial
  | .custom _ _ => faultsError trivial

theorem faultsUnasked (site : Site (Except Fault))
    (stands : ∀ word, Faults Fault.OfNode (site.substitute word)) {expr : TypeExpr}
    (unasked : asks site.arguments expr = false) : Faults Fault.OfNode (site.build expr) := by
  cases expr with
  | keyword word =>
    rw [build, liftExcept]
    exact ParamType.faultsOfKeyword site.source word
  | str _ => exact faultsOk _
  | generic word => exact stands word
  | array _ _ => cases unasked
  | tuple _ => cases unasked
  | custom kind word =>
    obtain ⟨element, vector⟩ := vectorSome site unasked
    rw [build, custom, vector]
    exact faultsOk _

end Site

end WordAbi
