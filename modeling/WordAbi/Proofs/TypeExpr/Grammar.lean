import WordAbi.Proofs.Schema.Faults
import WordAbi.Proofs.TypeExpr.Lexing
/-! The grammar of type expressions. Lexemes that derive an expression are read as that expression, and
whatever is read is derived. Main statement: what is read is what the grammar derives, but for keywords and
generic parameters, which are read as paths where the grammar has single identifiers. -/
namespace WordAbi.TypeExpr
open Outcome

attribute [local instance] Host.unlimited

def reservedWords : List String := ["struct", "enum", "generic", "raw"]

mutual

/-- The lexemes derive the expression, where keywords and the names of generic parameters are words of
the sort `name`. -/
inductive Derives (name : List Char → Prop) : List Lexeme → TypeExpr → Prop
  | unit {first last} : first.is "(" = true → last.is ")" = true →
      Derives name [first, last] (.keyword "()")
  | tuple {first inner last elements} : first.is "(" = true → DerivesAll name inner elements →
      last.is ")" = true → Derives name (first :: inner ++ [last]) (.tuple elements)
  | array {first inner mark length last element} : first.is "[" = true → Derives name inner element →
      mark.is ";" = true → length.kind = .number → last.is "]" = true →
      Derives name (first :: inner ++ [mark, length, last]) (.array element (Text.digitsValue length.chars))
  | str {word first length last} : word.kind = .path → word.is "str" = true → first.is "[" = true →
      length.kind = .number → last.is "]" = true →
      Derives name [word, first, length, last] (.str (Text.digitsValue length.chars))
  | custom {word path} (kind) : word.kind = .path → word.is kind.word = true → path.kind = .path →
      Derives name [word, path] (.custom kind path.text)
  | generic {word parameter} : word.kind = .path → word.is "generic" = true → parameter.kind = .path →
      name parameter.chars → Derives name [word, parameter] (.generic parameter.text)
  | raw {word untyped pointer} : word.kind = .path → word.is "raw" = true → untyped.is "untyped" = true →
      pointer.is "ptr" = true → Derives name [word, untyped, pointer] (.keyword "raw untyped ptr")
  | keyword {word} : word.kind = .path → name word.chars → (∀ reserved ∈ reservedWords, word.is reserved = false) →
      Derives name [word] (.keyword word.text)

inductive DerivesAll (name : List Char → Prop) : List Lexeme → List TypeExpr → Prop
  | one {ls expr} : Derives name ls expr → DerivesAll name ls [expr]
  | more {ls comma rest expr exprs} : Derives name ls expr → comma.is "," = true →
      DerivesAll name rest exprs → DerivesAll name (ls ++ comma :: rest) (expr :: exprs)

end

theorem isIff {l : Lexeme} {text : String} : l.is text = true ↔ l.chars = text.toList := by
  simp [Lexeme.is]

theorem isOther {l : Lexeme} {text other : String} (same : l.is text = true) (differ : text ≠ other) :
    l.is other = false := by
  rw [Bool.eq_false_iff]
  intro absurd
  rw [isIff] at same absurd
  exact differ (String.toList_inj.mp (same.symm.trans absurd))

theorem pathNotMark {l : Lexeme} (path : IsPath l.chars) {text : String} {c : Char} {cs : List Char}
    (chars : text.toList = c :: cs) (other : isIdentStart c = false) : l.is text = false := by
  rw [Bool.eq_false_iff]
  intro same
  obtain ⟨_, _, begins, start, _⟩ := continuesOfPath path
  rw [isIff, chars, begins] at same
  cases same
  rw [other] at start
  contradiction

section

variable {source : String} {stack : List Frame} {state : State} {l : Lexeme} {rest : List Lexeme}
  {expr : TypeExpr}

theorem runOk : run source (stack, state) (l :: rest) = .ok expr ↔
    ∃ next, advance source stack state l = .ok next ∧ run source next rest = .ok expr := by
  rw [run, bindOk]

theorem expectTextOk {text : String} {next reading : Reading} :
    expectText source text l next = .ok reading ↔ l.is text = true ∧ next = reading := by
  unfold expectText
  split
  · rename_i same
    simp [same]
  · rename_i other
    simp [other]

theorem expectKindOk {kind : LexemeKind} {next : List Char → Reading} {reading : Reading} :
    expectKind source kind l next = .ok reading ↔ l.kind = kind ∧ next l.chars = reading := by
  unfold expectKind
  split
  · rename_i same
    simp [same]
  · rename_i other
    simp [other]

theorem expectNumberOk {next : Nat → Reading} {reading : Reading} :
    expectNumber source l next = .ok reading ↔ l.kind = .number ∧ next (Text.digitsValue l.chars) = reading := by
  unfold expectNumber
  split
  · rename_i other
    simp [other]
  · rename_i number
    simp [not_not.mp number, Host.unlimitedReads]

theorem arrayLengthRead (number : l.kind = .number) : advance source stack (.arrayLength expr) l =
    .ok (stack, .arrayClose expr (Text.digitsValue l.chars)) := by
  rw [advance, expectNumberOk]
  exact ⟨number, rfl⟩

theorem strLengthRead (number : l.kind = .number) :
    advance source stack .strLength l = .ok (stack, .strClose (Text.digitsValue l.chars)) := by
  rw [advance, expectNumberOk]
  exact ⟨number, rfl⟩

theorem takeAfterTuple {elements : List TypeExpr} (comma : l.is "," = true) :
    takeAfter source (.tuple elements :: stack) expr l = .ok (.tuple (expr :: elements) :: stack, .type) := by
  rw [takeAfter, if_pos comma]

theorem takeAfterLast {elements : List TypeExpr} (last : l.is ")" = true) :
    takeAfter source (.tuple elements :: stack) expr l =
      .ok (stack, .complete (.tuple (expr :: elements).reverse)) := by
  rw [takeAfter, if_neg (by simp [isOther last])]
  exact expectTextOk.mpr ⟨last, rfl⟩

theorem bracketNotAfter {next : Reading} (bracket : l.is "[" = true) :
    takeAfter source stack expr l ≠ .ok next := by
  have unexpected {text : String} (differ : "[" ≠ text) {next reading : Reading} :
      expectText source text l next ≠ .ok reading := by
    intro absurd
    have same := (expectTextOk.mp absurd).1
    rw [isOther bracket differ] at same
    contradiction
  match stack with
  | [] => exact fun absurd => by cases absurd
  | .tuple _ :: _ =>
    rw [takeAfter, if_neg (by simp [isOther bracket])]
    exact unexpected (by decide)
  | .array :: _ => exact unexpected (by decide)

theorem runAfterStr {ls : List Lexeme} {x : TypeExpr}
    (ran : run source (stack, .complete (.keyword "str")) ls = .ok x) :
    run source (stack, .afterStr) ls = .ok x := by
  cases ls with
  | nil => cases stack <;> exact ran
  | cons l rest =>
    obtain ⟨next, step, ran⟩ := runOk.mp ran
    refine runOk.mpr ⟨next, ?_, ran⟩
    have after : l.is "[" = false := Bool.eq_false_iff.mpr fun bracket => bracketNotAfter bracket step
    rw [advance, if_neg (by simp [after])]
    exact step

theorem takeTypeWord {text : String} {next : Reading} (path : l.kind = .path) (word : l.is text = true)
    (taken : takeType source stack ⟨.path, text.toList, l.position⟩ = .ok next) :
    takeType source stack l = .ok next := by
  obtain ⟨kind, chars, position⟩ := l
  subst path
  rw [isIff] at word
  subst word
  exact taken

theorem takeTypeKeyword (path : l.kind = .path) (isPath : IsPath l.chars)
    (free : ∀ reserved ∈ reservedWords, l.is reserved = false) (other : l.is "str" = false) :
    takeType source stack l = .ok (stack, .complete (.keyword l.text)) := by
  have parenthesis := pathNotMark isPath (show "(".toList = ['('] from rfl) (by decide)
  have bracket := pathNotMark isPath (show "[".toList = ['['] from rfl) (by decide)
  simp only [reservedWords, List.forall_mem_cons] at free
  obtain ⟨struct, enum, generic, raw, _⟩ := free
  simp [takeType, path, parenthesis, bracket, other, struct, enum, generic, raw]

end

theorem beginsOfDerives {ls : List Lexeme} {expr : TypeExpr} (derives : Derives IsPath ls expr) :
    ∃ l rest, ls = l :: rest ∧ l.is ")" = false := by
  cases derives with
  | unit first | tuple first | array first => exact ⟨_, _, rfl, isOther first (by decide)⟩
  | str _ word | generic _ word | raw _ word => exact ⟨_, _, rfl, isOther word (by decide)⟩
  | custom kind _ word => exact ⟨_, _, rfl, isOther word (by cases kind <;> decide)⟩
  | keyword _ path => exact ⟨_, _, rfl, pathNotMark path (show ")".toList = [')'] from rfl) (by decide)⟩

theorem beginsOfDerivesAll {ls : List Lexeme} {exprs : List TypeExpr} (derives : DerivesAll IsPath ls exprs) :
    ∃ l rest, ls = l :: rest ∧ l.is ")" = false := by
  cases derives with
  | one derives => exact beginsOfDerives derives
  | more derives =>
    obtain ⟨l, rest, rfl, opens⟩ := beginsOfDerives derives
    exact ⟨l, _, rfl, opens⟩

theorem runFirstElement {source : String} {stack : List Frame} {l : Lexeme} (opens : l.is ")" = false)
    (rest : List Lexeme) :
    run source (stack, .firstElement) (l :: rest) = run source (.tuple [] :: stack, .type) (l :: rest) := by
  rw [run, advance, if_neg (by simp [opens])]
  rfl

mutual

theorem runOfDerives {source : String} {ls : List Lexeme} {expr : TypeExpr} : Derives IsPath ls expr →
    ∀ {stack : List Frame} {rest : List Lexeme} {x : TypeExpr},
    run source (stack, .complete expr) rest = .ok x → run source (stack, .type) (ls ++ rest) = .ok x
  | .unit first last, stack, rest, x, ran =>
    runOk.mpr ⟨(stack, .firstElement), if_pos first, runOk.mpr ⟨_, if_pos last, ran⟩⟩
  | .tuple first inner last, stack, rest, x, ran => by
    obtain ⟨l, more, rfl, opens⟩ := beginsOfDerivesAll inner
    have elements := @runOfDerivesAll source _ _ inner [] _ _ _ _ last ran
    rw [List.cons_append, ← runFirstElement opens] at elements
    rw [List.append_assoc]
    exact runOk.mpr ⟨(stack, .firstElement), if_pos first, elements⟩
  | .array first inner mark length last, stack, rest, x, ran => by
    have opened : takeType source stack _ = .ok (.array :: stack, .type) :=
      (if_neg (by simp [isOther first])).trans (if_pos first)
    rw [List.append_assoc]
    refine runOk.mpr ⟨_, opened, runOfDerives inner (runOk.mpr ⟨(stack, .arrayLength _), if_pos mark, ?_⟩)⟩
    exact runOk.mpr ⟨_, arrayLengthRead length, runOk.mpr ⟨_, if_pos last, ran⟩⟩
  | .str path word first length last, stack, rest, x, ran => by
    refine runOk.mpr ⟨(stack, .afterStr), takeTypeWord path word rfl, ?_⟩
    refine runOk.mpr ⟨(stack, .strLength), if_pos first, ?_⟩
    exact runOk.mpr ⟨_, strLengthRead length, runOk.mpr ⟨_, if_pos last, ran⟩⟩
  | .custom kind path word name, stack, rest, x, ran => by
    refine runOk.mpr ⟨(stack, .customName kind), takeTypeWord path word (by cases kind <;> rfl), ?_⟩
    exact runOk.mpr ⟨_, if_pos name, ran⟩
  | .generic path word name _, stack, rest, x, ran => by
    refine runOk.mpr ⟨(stack, .genericName), takeTypeWord path word rfl, ?_⟩
    exact runOk.mpr ⟨_, if_pos name, ran⟩
  | .raw path word untyped pointer, stack, rest, x, ran => by
    refine runOk.mpr ⟨(stack, .untyped), takeTypeWord path word rfl, ?_⟩
    exact runOk.mpr ⟨(stack, .pointer), if_pos untyped, runOk.mpr ⟨_, if_pos pointer, ran⟩⟩
  | @Derives.keyword _ l path isPath free, stack, rest, x, ran => by
    by_cases word : l.is "str" = true
    · rw [Lexeme.text, isIff.mp word, String.ofList_toList] at ran
      exact runOk.mpr ⟨(stack, .afterStr), takeTypeWord path word rfl, runAfterStr ran⟩
    · exact runOk.mpr ⟨_, takeTypeKeyword path isPath free (by simpa using word), ran⟩

theorem runOfDerivesAll {source : String} {ls : List Lexeme} {exprs : List TypeExpr} :
    DerivesAll IsPath ls exprs → ∀ {before : List TypeExpr} {stack : List Frame} {last : Lexeme}
    {rest : List Lexeme} {x : TypeExpr}, last.is ")" = true →
    run source (stack, .complete (.tuple (before.reverse ++ exprs))) rest = .ok x →
    run source (.tuple before :: stack, .type) (ls ++ last :: rest) = .ok x
  | .one derives, before, stack, last, rest, x, closes, ran => by
    refine runOfDerives derives (runOk.mpr ⟨_, takeAfterLast closes, ?_⟩)
    rwa [List.reverse_cons]
  | .more derives comma later, before, stack, last, rest, x, closes, ran => by
    rw [List.append_assoc, List.cons_append]
    refine runOfDerives derives (runOk.mpr ⟨_, takeAfterTuple comma, ?_⟩)
    refine runOfDerivesAll later closes ?_
    rwa [List.reverse_cons, List.append_assoc]

end

def State.mayEnd : State → Bool
  | .complete _ => true
  | .afterStr => true
  | _ => false

inductive Starts (stack : List Frame) (l : Lexeme) : Reading → Prop
  | parenthesis : l.is "(" = true → Starts stack l (stack, .firstElement)
  | bracket : l.is "[" = true → Starts stack l (.array :: stack, .type)
  | str : l.kind = .path → l.is "str" = true → Starts stack l (stack, .afterStr)
  | custom (kind) : l.kind = .path → l.is kind.word = true → Starts stack l (stack, .customName kind)
  | generic : l.kind = .path → l.is "generic" = true → Starts stack l (stack, .genericName)
  | raw : l.kind = .path → l.is "raw" = true → Starts stack l (stack, .untyped)
  | keyword : l.kind = .path → (∀ reserved ∈ reservedWords, l.is reserved = false) →
      Starts stack l (stack, .complete (.keyword l.text))

section

variable {source : String} {stack : List Frame} {state : State} {l : Lexeme} {ls : List Lexeme}
  {x : TypeExpr}

theorem startsOfTakeType {next : Reading} (taken : takeType source stack l = .ok next) : Starts stack l next := by
  unfold takeType at taken
  split at taken
  · cases taken
    exact .parenthesis ‹_›
  split at taken
  · cases taken
    exact .bracket ‹_›
  split at taken
  · cases taken
  rename_i path
  rw [not_not] at path
  split at taken
  · cases taken
    exact .str path ‹_›
  split at taken
  · cases taken
    exact .custom .struct path ‹_›
  split at taken
  · cases taken
    exact .custom .enum path ‹_›
  split at taken
  · cases taken
    exact .generic path ‹_›
  split at taken
  · cases taken
    exact .raw path ‹_›
  · cases taken
    refine .keyword path ?_
    simp only [reservedWords, List.forall_mem_cons]
    simp_all

theorem finishOk (ended : run source (stack, state) [] = .ok x) :
    stack = [] ∧ (state = .complete x ∨ state = .afterStr ∧ x = .keyword "str") := by
  rw [run] at ended
  unfold finish at ended
  split at ended
  · rename_i same
    cases same
    cases ended
    exact ⟨rfl, .inl rfl⟩
  · rename_i same
    cases same
    cases ended
    exact ⟨rfl, .inr ⟨rfl, rfl⟩⟩
  · cases ended

theorem runNext (goesOn : state.mayEnd = false) (ran : run source (stack, state) ls = .ok x) :
    ∃ l rest next, ls = l :: rest ∧ advance source stack state l = .ok next ∧ run source next rest = .ok x := by
  cases ls with
  | nil =>
    rcases (finishOk ran).2 with rfl | ⟨rfl, _⟩ <;> cases goesOn
  | cons l rest =>
    obtain ⟨next, step, ran⟩ := runOk.mp ran
    exact ⟨l, rest, next, rfl, step, ran⟩

def Reads (source : String) (stack : List Frame) (x : TypeExpr) (ls : List Lexeme) : Prop :=
  ∃ taken rest expr, ls = taken ++ rest ∧ Derives IsPath taken expr ∧
    run source (stack, .complete expr) rest = .ok x

theorem readsStr (path : l.kind = .path) (isPath : IsPath l.chars) (word : l.is "str" = true)
    (ran : run source (stack, .afterStr) ls = .ok x) : Reads source stack x (l :: ls) := by
  have keyword : Derives IsPath [l] (.keyword "str") := by
    have text : l.text = "str" := by rw [Lexeme.text, isIff.mp word, String.ofList_toList]
    rw [← text]
    refine .keyword path isPath ?_
    simp only [reservedWords, List.forall_mem_cons]
    simp [isOther word]
  cases ls with
  | nil =>
    obtain ⟨rfl, ended⟩ := finishOk ran
    obtain rfl := (ended.resolve_left (by simp)).2
    exact ⟨[l], [], _, rfl, keyword, rfl⟩
  | cons first rest =>
    obtain ⟨next, step, ran⟩ := runOk.mp ran
    rw [advance] at step
    split at step
    · rename_i opens
      cases step
      obtain ⟨length, rest, _, rfl, step, ran⟩ := runNext rfl ran
      rw [advance, expectNumberOk] at step
      obtain ⟨number, rfl⟩ := step
      obtain ⟨last, rest, _, rfl, step, ran⟩ := runNext rfl ran
      obtain ⟨closes, rfl⟩ := expectTextOk.mp step
      exact ⟨[l, first, length, last], rest, _, rfl, .str path word opens number closes, ran⟩
    · exact ⟨[l], first :: rest, _, rfl, keyword, runOk.mpr ⟨next, step, ran⟩⟩

theorem readsCustom {kind : CustomKind} (path : l.kind = .path) (word : l.is kind.word = true)
    (ran : run source (stack, .customName kind) ls = .ok x) : Reads source stack x (l :: ls) := by
  obtain ⟨name, rest, _, rfl, step, ran⟩ := runNext rfl ran
  rw [advance, expectKindOk] at step
  obtain ⟨isName, rfl⟩ := step
  exact ⟨[l, name], rest, _, rfl, .custom kind path word isName, ran⟩

theorem readsGeneric (path : l.kind = .path) (word : l.is "generic" = true)
    (lexemes : ∀ l ∈ ls, IsLexeme l.kind l.chars)
    (ran : run source (stack, .genericName) ls = .ok x) : Reads source stack x (l :: ls) := by
  obtain ⟨name, rest, _, rfl, step, ran⟩ := runNext rfl ran
  rw [advance, expectKindOk] at step
  obtain ⟨isName, rfl⟩ := step
  have spelled := lexemes name (by simp)
  rw [isName] at spelled
  exact ⟨[l, name], rest, _, rfl, .generic path word isName spelled, ran⟩

theorem readsRaw (path : l.kind = .path) (word : l.is "raw" = true)
    (ran : run source (stack, .untyped) ls = .ok x) : Reads source stack x (l :: ls) := by
  obtain ⟨untyped, rest, _, rfl, step, ran⟩ := runNext rfl ran
  obtain ⟨first, rfl⟩ := expectTextOk.mp step
  obtain ⟨pointer, rest, _, rfl, step, ran⟩ := runNext rfl ran
  obtain ⟨second, rfl⟩ := expectTextOk.mp step
  exact ⟨[l, untyped, pointer], rest, _, rfl, .raw path word first second, ran⟩

theorem readsArray (word : l.is "[" = true) (element : Reads source (.array :: stack) x ls) :
    Reads source stack x (l :: ls) := by
  obtain ⟨taken, rest, expr, rfl, derives, ran⟩ := element
  cases rest with
  | nil => cases (finishOk ran).1
  | cons mark rest =>
    obtain ⟨_, step, ran⟩ := runOk.mp ran
    obtain ⟨separates, rfl⟩ := expectTextOk.mp step
    obtain ⟨length, rest, _, rfl, step, ran⟩ := runNext rfl ran
    rw [advance, expectNumberOk] at step
    obtain ⟨number, rfl⟩ := step
    obtain ⟨last, rest, _, rfl, step, ran⟩ := runNext rfl ran
    obtain ⟨closes, rfl⟩ := expectTextOk.mp step
    exact ⟨_, rest, _, by simp, .array word derives separates number closes, ran⟩

def ReadsElements (source : String) (stack : List Frame) (before : List TypeExpr) (x : TypeExpr)
    (ls : List Lexeme) : Prop :=
  ∃ taken last rest exprs, ls = taken ++ last :: rest ∧ DerivesAll IsPath taken exprs ∧ last.is ")" = true ∧
    run source (stack, .complete (.tuple (before.reverse ++ exprs))) rest = .ok x

theorem readsElements {before : List TypeExpr} (first : Reads source (.tuple before :: stack) x ls)
    (later : ∀ expr taken comma rest, ls = taken ++ comma :: rest →
      run source (.tuple (expr :: before) :: stack, .type) rest = .ok x →
      ReadsElements source stack (expr :: before) x rest) : ReadsElements source stack before x ls := by
  obtain ⟨taken, rest, expr, rfl, derives, ran⟩ := first
  cases rest with
  | nil => cases (finishOk ran).1
  | cons l rest =>
    obtain ⟨_, step, ran⟩ := runOk.mp ran
    rw [advance, takeAfter] at step
    split at step
    · rename_i comma
      cases step
      obtain ⟨more, last, rest, exprs, rfl, all, closes, ran⟩ := later expr taken l rest rfl ran
      refine ⟨taken ++ l :: more, last, rest, expr :: exprs, by simp, .more derives comma all, closes, ?_⟩
      simpa using ran
    · obtain ⟨closes, rfl⟩ := expectTextOk.mp step
      refine ⟨taken, l, rest, [expr], rfl, .one derives, closes, ?_⟩
      simpa using ran

theorem readsParenthesis (word : l.is "(" = true) (ran : run source (stack, .firstElement) ls = .ok x)
    (elements : run source (.tuple [] :: stack, .type) ls = .ok x → ReadsElements source stack [] x ls) :
    Reads source stack x (l :: ls) := by
  obtain ⟨first, rest, next, rfl, step, after⟩ := runNext rfl ran
  by_cases closes : first.is ")" = true
  · rw [advance, if_pos closes] at step
    cases step
    exact ⟨[l, first], rest, _, rfl, .unit word closes, after⟩
  · rw [runFirstElement (by simpa using closes)] at ran
    obtain ⟨taken, last, rest, exprs, same, all, closes, ran⟩ := elements ran
    exact ⟨l :: taken ++ [last], rest, _, by simp [same], .tuple word all closes, ran⟩

end

theorem readsOfRun {source : String} {x : TypeExpr} (bound : Nat) {ls : List Lexeme} (few : ls.length ≤ bound)
    (lexemes : ∀ l ∈ ls, IsLexeme l.kind l.chars) :
    (∀ stack, run source (stack, .type) ls = .ok x → Reads source stack x ls) ∧
      ∀ stack before, run source (.tuple before :: stack, .type) ls = .ok x →
        ReadsElements source stack before x ls := by
  induction bound generalizing ls with
  | zero =>
    obtain rfl := List.eq_nil_of_length_eq_zero (Nat.le_zero.mp few)
    refine ⟨fun stack ran => ?_, fun stack before ran => ?_⟩
    · rcases (finishOk ran).2 with absurd | ⟨absurd, _⟩ <;> cases absurd
    · cases (finishOk ran).1
  | succ bound ih =>
    have expression : ∀ stack, run source (stack, .type) ls = .ok x → Reads source stack x ls := by
      intro stack ran
      obtain ⟨l, rest, next, rfl, step, ran⟩ := runNext rfl ran
      obtain ⟨own, later⟩ := List.forall_mem_cons.mp lexemes
      have isPath (path : l.kind = .path) : IsPath l.chars := by rwa [path] at own
      obtain ⟨expressions, elements⟩ := ih (by simpa using few) later
      cases startsOfTakeType step with
      | parenthesis word => exact readsParenthesis word ran (elements stack [])
      | bracket word => exact readsArray word (expressions _ ran)
      | str path word => exact readsStr path (isPath path) word ran
      | custom kind path word => exact readsCustom path word ran
      | generic path word => exact readsGeneric path word later ran
      | raw path word => exact readsRaw path word ran
      | keyword path free => exact ⟨[l], rest, _, rfl, .keyword path (isPath path) free, ran⟩
    refine ⟨expression, fun stack before ran => readsElements (expression _ ran) ?_⟩
    rintro expr taken comma rest rfl ran
    have fewer : rest.length ≤ bound := by
      simp only [List.length_append, List.length_cons] at few
      omega
    exact (ih fewer fun l member => lexemes l (by simp [member])).2 stack (expr :: before) ran

mutual

def unscoped : TypeExpr → Bool
  | .keyword word => !word.toList.contains ':'
  | .generic word => !word.toList.contains ':'
  | .array element _ => unscoped element
  | .tuple elements => allUnscoped elements
  | .str _ => true
  | .custom _ _ => true

def allUnscoped : List TypeExpr → Bool
  | [] => true
  | expr :: exprs => unscoped expr && allUnscoped exprs

end

theorem noColon {word : List Char} (ident : IsIdent word) : ':' ∉ word := by
  obtain ⟨c, rest, rfl, start, all⟩ := ident
  intro member
  have inside : isIdentRest ':' = true := by
    rcases List.mem_cons.mp member with rfl | later
    · exact identRestOfStart start
    · exact all _ later
  rw [colonNotRest] at inside
  contradiction

theorem identOfPath {word : List Char} (path : IsPath word) (plain : ':' ∉ word) : IsIdent word := by
  cases path with
  | ident ident => exact ident
  | qualified => simp at plain

mutual

theorem pathsOfIdents {ls : List Lexeme} {expr : TypeExpr} : Derives IsIdent ls expr →
    Derives IsPath ls expr ∧ expr.unscoped = true
  | .unit first last => ⟨.unit first last, by decide⟩
  | .tuple first inner last => ⟨.tuple first (allPathsOfIdents inner).1 last, (allPathsOfIdents inner).2⟩
  | .array first inner mark length last =>
    ⟨.array first (pathsOfIdents inner).1 mark length last, (pathsOfIdents inner).2⟩
  | .str path word first length last => ⟨.str path word first length last, rfl⟩
  | .custom kind path word name => ⟨.custom kind path word name, rfl⟩
  | .generic path word name ident =>
    ⟨.generic path word name (.ident ident), by simpa [unscoped, Lexeme.text] using noColon ident⟩
  | .raw path word untyped pointer => ⟨.raw path word untyped pointer, by decide⟩
  | .keyword path ident free =>
    ⟨.keyword path (.ident ident) free, by simpa [unscoped, Lexeme.text] using noColon ident⟩

theorem allPathsOfIdents {ls : List Lexeme} {exprs : List TypeExpr} : DerivesAll IsIdent ls exprs →
    DerivesAll IsPath ls exprs ∧ allUnscoped exprs = true
  | .one derives => ⟨.one (pathsOfIdents derives).1, by simp [allUnscoped, (pathsOfIdents derives).2]⟩
  | .more derives comma later =>
    ⟨.more (pathsOfIdents derives).1 comma (allPathsOfIdents later).1,
      by simp [allUnscoped, (pathsOfIdents derives).2, (allPathsOfIdents later).2]⟩

end

mutual

theorem identsOfPaths {ls : List Lexeme} {expr : TypeExpr} : Derives IsPath ls expr →
    expr.unscoped = true → Derives IsIdent ls expr
  | .unit first last, _ => .unit first last
  | .tuple first inner last, plain => .tuple first (allIdentsOfPaths inner plain) last
  | .array first inner mark length last, plain => .array first (identsOfPaths inner plain) mark length last
  | .str path word first length last, _ => .str path word first length last
  | .custom kind path word name, _ => .custom kind path word name
  | .generic path word name isPath, plain =>
    .generic path word name (identOfPath isPath (by simpa [unscoped, Lexeme.text] using plain))
  | .raw path word untyped pointer, _ => .raw path word untyped pointer
  | .keyword path isPath free, plain =>
    .keyword path (identOfPath isPath (by simpa [unscoped, Lexeme.text] using plain)) free

theorem allIdentsOfPaths {ls : List Lexeme} {exprs : List TypeExpr} : DerivesAll IsPath ls exprs →
    allUnscoped exprs = true → DerivesAll IsIdent ls exprs
  | .one derives, plain => by
    simp only [allUnscoped, Bool.and_eq_true] at plain
    exact .one (identsOfPaths derives plain.1)
  | .more derives comma later, plain => by
    simp only [allUnscoped, Bool.and_eq_true] at plain
    exact .more (identsOfPaths derives plain.1) comma (allIdentsOfPaths later plain.2)

end

def Written (name : List Char → Prop) (source : String) (expr : TypeExpr) : Prop :=
  ∃ ls, Spells 0 source.toList ls ∧ Derives name ls expr

theorem spellsBlank {cs : List Char} (blank : ∀ c ∈ cs, Text.isBlank c = true) (position : Nat) :
    Spells position cs [] := by
  induction cs generalizing position with
  | nil => exact .done
  | cons c cs ih =>
    obtain ⟨first, later⟩ := List.forall_mem_cons.mp blank
    exact .blank first (ih later _)

theorem ofTextIff {source : String} {expr : TypeExpr} :
    ofText source = .ok expr ↔ Written IsPath source expr := by
  unfold ofText
  split
  · rename_i blank
    simp only [reduceCtorEq, false_iff]
    rintro ⟨ls, spells, derives⟩
    obtain ⟨l, rest, rfl, _⟩ := beginsOfDerives derives
    have none := spellsUnique spells (spellsBlank (List.all_eq_true.mp blank) 0)
    contradiction
  · rw [bindOk]
    constructor
    · rintro ⟨ls, read, ran⟩
      have spells := lexemesIff.mp read
      obtain ⟨taken, rest, found, rfl, derives, ran⟩ :=
        (readsOfRun ls.length (Nat.le_refl _) (lexemesOfKind spells)).1 [] ran
      cases rest with
      | nil =>
        cases ran
        rw [List.append_nil] at spells
        exact ⟨taken, spells, derives⟩
      | cons l rest =>
        obtain ⟨_, trailing, _⟩ := runOk.mp ran
        cases trailing
    · rintro ⟨ls, spells, derives⟩
      refine ⟨ls, lexemesIff.mpr spells, ?_⟩
      have ran := @runOfDerives source ls expr derives [] [] expr rfl
      rwa [List.append_nil] at ran

theorem writtenIdentIff {source : String} {expr : TypeExpr} :
    Written IsIdent source expr ↔ ofText source = .ok expr ∧ expr.unscoped = true := by
  rw [ofTextIff]
  constructor
  · rintro ⟨ls, spells, derives⟩
    obtain ⟨paths, plain⟩ := pathsOfIdents derives
    exact ⟨⟨ls, spells, paths⟩, plain⟩
  · rintro ⟨⟨ls, spells, derives⟩, plain⟩
    exact ⟨ls, spells, identsOfPaths derives plain⟩

/-- A text is read as what it is written for by the grammar, where keywords and generic parameters may be
paths too: those without such paths are the texts of the grammar with single identifiers. The lexemes and
the expression are the only ones, and every other text is an invalid type. The host is one that reads numbers
of any length. -/
theorem readsGrammar (source : String) :
    (∀ expr, Written IsIdent source expr ↔ ofText source = .ok expr ∧ expr.unscoped = true) ∧
      (∀ expr, Written IsPath source expr ↔ ofText source = .ok expr) ∧
      (∀ ls others expr other, Spells 0 source.toList ls → Derives IsPath ls expr →
        Spells 0 source.toList others → Derives IsPath others other → ls = others ∧ expr = other) ∧
      ((∀ expr, ¬ Written IsPath source expr) → ∃ cause, ofText source = .error (.invalidType cause)) := by
  refine ⟨fun _ => writtenIdentIff, fun _ => ofTextIff.symm, ?_, fun unwritten => ?_⟩
  · intro ls others expr other spells derives spellsToo derivesToo
    have one := ofTextIff.mpr ⟨ls, spells, derives⟩
    have another := ofTextIff.mpr ⟨others, spellsToo, derivesToo⟩
    exact ⟨spellsUnique spells spellsToo, Except.ok.inj (one.symm.trans another)⟩
  · cases read : ofText source with
    | ok expr => exact absurd (ofTextIff.mp read) (unwritten expr)
    | error fault =>
      obtain ⟨cause, rfl⟩ := unlimitedFaults read
      exact ⟨cause, rfl⟩

theorem scopedNamesRead :
    ofText "a::b" = .ok (.keyword "a::b") ∧ (∀ expr, ¬ Written IsIdent "a::b" expr) ∧
      ofText "generic a::b" = .ok (.generic "a::b") ∧ ∀ expr, ¬ Written IsIdent "generic a::b" expr := by
  have keyword : ofText "a::b" = .ok (.keyword "a::b") := by rfl
  have generic : ofText "generic a::b" = .ok (.generic "a::b") := by rfl
  refine ⟨keyword, fun expr written => ?_, generic, fun expr written => ?_⟩
  · obtain ⟨read, plain⟩ := writtenIdentIff.mp written
    cases keyword.symm.trans read
    exact absurd plain (by decide)
  · obtain ⟨read, plain⟩ := writtenIdentIff.mp written
    cases generic.symm.trans read
    exact absurd plain (by decide)

end WordAbi.TypeExpr
