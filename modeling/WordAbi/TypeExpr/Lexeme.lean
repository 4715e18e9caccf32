import WordAbi.Fault
import WordAbi.Text.Character
/-! The lexemes of a type expression: numbers, paths of identifiers and single marks, each as long as
it can be, with white space of any script between them. Main statement: a lexeme takes no more
characters than there are. -/
namespace WordAbi.TypeExpr

inductive LexemeKind where
  | number
  | path
  | mark
  deriving DecidableEq, Repr

def LexemeKind.text : LexemeKind → String
  | number => "num"
  | path => "path"
  | mark => "punct"

structure Lexeme where
  kind : LexemeKind
  chars : List Char
  position : Nat
  deriving DecidableEq, Repr

def Lexeme.text (l : Lexeme) : String := String.ofList l.chars

def Lexeme.is (l : Lexeme) (text : String) : Bool := l.chars = text.toList

def isIdentStart (c : Char) : Bool :=
  let n := c.toNat
  (65 ≤ n && n ≤ 90) || (97 ≤ n && n ≤ 122) || n == 95

def isIdentRest (c : Char) : Bool := isIdentStart c || (48 ≤ c.toNat && c.toNat ≤ 57)

def isMark (c : Char) : Bool := ['[', ']', '(', ')', ';', ','].contains c

def digitWidth : List Char → Nat
  | [] => 0
  | c :: rest => if Text.isDecimalDigit c then digitWidth rest + 1 else 0

def pathWidth : List Char → Nat
  | ':' :: ':' :: c :: rest => if isIdentStart c then pathWidth rest + 3 else 0
  | c :: rest => if isIdentRest c then pathWidth rest + 1 else 0
  | [] => 0

def scan (c : Char) (rest : List Char) : Option (LexemeKind × Nat) :=
  if Text.isDecimalDigit c then some (.number, digitWidth rest)
  else if isIdentStart c then some (.path, pathWidth rest)
  else if isMark c then some (.mark, 0)
  else none

/-- The lexemes of what follows `position`, after `skip` characters that belong to the lexeme
before. -/
def lexemesFrom (source : String) : (skip position : Nat) → List Char → Except Fault (List Lexeme)
  | _, _, [] => .ok []
  | skip + 1, position, _ :: rest => lexemesFrom source skip (position + 1) rest
  | 0, position, c :: rest =>
    match scan c rest with
    | some (kind, extra) => do
      let more ← lexemesFrom source extra (position + 1) rest
      .ok (⟨kind, c :: rest.take extra, position⟩ :: more)
    | none =>
      if Text.isBlank c then lexemesFrom source 0 (position + 1) rest
      else .error (.invalidType (.strangeCharacter source c position))

def lexemes (source : String) : Except Fault (List Lexeme) := lexemesFrom source 0 0 source.toList

theorem digitWidthLe (cs : List Char) : digitWidth cs ≤ cs.length := by
  induction cs with
  | nil => simp [digitWidth]
  | cons c rest ih => simp only [digitWidth, List.length_cons]; split <;> omega

theorem pathWidthLe (cs : List Char) : pathWidth cs ≤ cs.length := by
  fun_induction pathWidth cs <;> simp only [List.length_cons, List.length_nil] <;> omega

end WordAbi.TypeExpr
