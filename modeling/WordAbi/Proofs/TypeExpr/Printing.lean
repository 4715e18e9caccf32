import Mathlib.Data.List.Chain
import WordAbi.Number.Literal
import WordAbi.Proofs.ParamType.Signature
import WordAbi.Proofs.TypeExpr.Grammar
/-! Type expressions written out, as pieces with white space between them. Main statement: a text is read as
an expression exactly when it is the pieces of that expression, with white space around them as it likes and
at least between two words. -/
namespace WordAbi.TypeExpr
open List (Forall₂)

attribute [local instance] Host.unlimited

inductive Piece where
  | word (path : String)
  | number (value : Nat)
  | mark (c : Char)
  deriving DecidableEq, Repr

def keywordPieces (word : String) : List Piece :=
  if word = "()" then [.mark '(', .mark ')']
  else if word = "raw untyped ptr" then [.word "raw", .word "untyped", .word "ptr"]
  else [.word word]

mutual

def pieces : TypeExpr → List Piece
  | .keyword word => keywordPieces word
  | .str length => [.word "str", .mark '[', .number length, .mark ']']
  | .array element length => .mark '[' :: (pieces element ++ [.mark ';', .number length, .mark ']'])
  | .tuple elements => .mark '(' :: (elementPieces elements ++ [.mark ')'])
  | .custom kind name => [.word kind.word, .word name]
  | .generic name => [.word "generic", .word name]

def elementPieces : List TypeExpr → List Piece
  | [] => []
  | [expr] => pieces expr
  | expr :: next :: exprs => pieces expr ++ .mark ',' :: elementPieces (next :: exprs)

end

mutual

/-- The grammar has the expression: names are paths, keywords do not begin anything else, and tuples have
elements. -/
def Denoted : TypeExpr → Prop
  | .keyword word => word = "()" ∨ word = "raw untyped ptr" ∨ IsPath word.toList ∧ word ∉ reservedWords
  | .str _ => True
  | .array element _ => Denoted element
  | .tuple elements => elements ≠ [] ∧ AllDenoted elements
  | .custom _ name => IsPath name.toList
  | .generic name => IsPath name.toList

def AllDenoted : List TypeExpr → Prop
  | [] => True
  | expr :: exprs => Denoted expr ∧ AllDenoted exprs

end

inductive Parted : List Piece → List Char → Prop
  | ends {rest} : Parted [] rest
  | mark {c pieces rest} : Parted (.mark c :: pieces) rest
  | blank {pieces c rest} : Text.isBlank c = true → Parted pieces (c :: rest)

/-- The text is the pieces one after another, with white space anywhere and at least between two words. -/
inductive Spaced : List Piece → List Char → Prop
  | done : Spaced [] []
  | blank {pieces c rest} : Text.isBlank c = true → Spaced pieces rest → Spaced pieces (c :: rest)
  | word {path pieces rest} : Parted pieces rest → Spaced pieces rest →
      Spaced (.word path :: pieces) (path.toList ++ rest)
  | number {digits pieces rest} : digits ≠ [] → (∀ c ∈ digits, Text.isDecimalDigit c = true) →
      Parted pieces rest → Spaced pieces rest →
      Spaced (.number (Text.digitsValue digits) :: pieces) (digits ++ rest)
  | mark {c pieces rest} : Spaced pieces rest → Spaced (.mark c :: pieces) (c :: rest)

def Piece.Valid : Piece → Prop
  | word path => IsPath path.toList
  | number _ => True
  | mark c => isMark c = true

def Piece.Stands : Piece → Lexeme → Prop
  | word path, l => l.kind = .path ∧ l.chars = path.toList
  | number value, l => l.kind = .number ∧ Text.digitsValue l.chars = value
  | mark c, l => l.kind = .mark ∧ l.chars = [c]

theorem blankApart {c : Char} (blank : Text.isBlank c = true) :
    Text.isDecimalDigit c = false ∧ isIdentRest c = false ∧ c ≠ ':' := by
  have place := blank
  simp only [Text.isBlank, Bool.or_eq_true, Bool.and_eq_true, decide_eq_true_eq, beq_iff_eq] at place
  refine ⟨Bool.eq_false_iff.mpr fun digit => ?_, Bool.eq_false_iff.mpr fun inside => ?_, ?_⟩
  · have := digitPlaces digit
    omega
  · simp only [isIdentRest, isIdentStart, Bool.or_eq_true, Bool.and_eq_true, decide_eq_true_eq,
      beq_iff_eq] at inside
    omega
  · intro colon
    rw [colon] at blank
    exact absurd blank (by decide)

theorem markApart {c : Char} (mark : isMark c = true) :
    Text.isDecimalDigit c = false ∧ isIdentRest c = false ∧ c ≠ ':' := by
  have place := markPlaces mark
  refine ⟨(markNotOther mark).1, Bool.eq_false_iff.mpr fun inside => ?_, ?_⟩
  · simp only [isIdentRest, isIdentStart, Bool.or_eq_true, Bool.and_eq_true, decide_eq_true_eq,
      beq_iff_eq] at inside
    omega
  · intro colon
    rw [colon] at mark
    exact absurd mark (by decide)

def isIdentText (text : String) : Bool :=
  match text.toList with
  | [] => false
  | c :: cs => isIdentStart c && cs.all isIdentRest

theorem pathOfIdentText {text : String} (ident : isIdentText text = true) : IsPath text.toList := by
  unfold isIdentText at ident
  split at ident
  · cases ident
  · rename_i c cs chars
    rw [Bool.and_eq_true, List.all_eq_true] at ident
    exact .ident ⟨c, cs, chars, ident.1, ident.2⟩

theorem charsOfPath {path : List Char} (isPath : IsPath path) :
    ∀ c ∈ path, isIdentRest c = true ∨ c = ':' := by
  induction isPath with
  | ident ident =>
    obtain ⟨first, rest, rfl, start, all⟩ := ident
    exact List.forall_mem_cons.mpr ⟨.inl (identRestOfStart start), fun c member => .inl (all c member)⟩
  | qualified ident _ ih =>
    obtain ⟨first, rest, rfl, start, all⟩ := ident
    intro c member
    simp only [List.mem_append, List.mem_cons] at member
    rcases member with (rfl | inside) | rfl | rfl | later
    · exact .inl (identRestOfStart start)
    · exact .inl (all c inside)
    · exact .inr rfl
    · exact .inr rfl
    · exact ih c later

section

variable {pieces : List Piece} {cs rest : List Char} {ls : List Lexeme} {position : Nat}

theorem apartAfter (valid : ∀ piece ∈ pieces, piece.Valid) (parted : Parted pieces rest)
    (spaced : Spaced pieces rest) :
    ∀ c ∈ rest.head?, Text.isDecimalDigit c = false ∧ isIdentRest c = false ∧ c ≠ ':' := by
  cases parted with
  | ends =>
    cases spaced with
    | done => simp
    | blank blank _ => simpa using blankApart blank
  | mark =>
    cases spaced with
    | blank blank _ => simpa using blankApart blank
    | mark _ => simpa using markApart (valid _ List.mem_cons_self)
  | blank blank => simpa using blankApart blank

theorem longestWord {word : List Char}
    (apart : ∀ c ∈ rest.head?, Text.isDecimalDigit c = false ∧ isIdentRest c = false ∧ c ≠ ':') :
    Longest .path word rest := by
  intro more after same longer
  cases more with
  | nil => rfl
  | cons c more =>
    obtain ⟨_, outside, colon⟩ := apart c (by rw [same]; rfl)
    rcases charsOfPath longer c (by simp) with inside | rfl
    · rw [outside] at inside
      contradiction
    · contradiction

theorem longestNumber {digits : List Char}
    (apart : ∀ c ∈ rest.head?, Text.isDecimalDigit c = false ∧ isIdentRest c = false ∧ c ≠ ':') :
    Longest .number digits rest := by
  intro more after same longer
  cases more with
  | nil => rfl
  | cons c more =>
    obtain ⟨other, _⟩ := apart c (by rw [same]; rfl)
    have digit := longer.2 c (by simp)
    rw [other] at digit
    contradiction

theorem longestMark (c : Char) : Longest .mark [c] rest := by
  intro more after _ longer
  obtain ⟨_, same, _⟩ := longer
  simpa using (List.cons.inj same).2

theorem spellsOfSpaced (spaced : Spaced pieces cs) (valid : ∀ piece ∈ pieces, piece.Valid) :
    ∃ ls, Spells position cs ls ∧ Forall₂ Piece.Stands pieces ls := by
  induction spaced generalizing position with
  | done => exact ⟨[], .done, .nil⟩
  | blank blank _ ih =>
    obtain ⟨ls, spells, each⟩ := ih valid
    exact ⟨ls, .blank blank spells, each⟩
  | @word path _ _ parted spaced ih =>
    obtain ⟨isPath, others⟩ := List.forall_mem_cons.mp valid
    obtain ⟨ls, spells, each⟩ := ih others
    have longest := @longestWord _ path.toList (apartAfter others parted spaced)
    have lexeme : IsLexeme .path path.toList := isPath
    exact ⟨_, .lexeme lexeme longest spells, .cons ⟨rfl, rfl⟩ each⟩
  | @number digits _ _ filled all parted spaced ih =>
    obtain ⟨_, others⟩ := List.forall_mem_cons.mp valid
    obtain ⟨ls, spells, each⟩ := ih others
    have longest := @longestNumber _ digits (apartAfter others parted spaced)
    have lexeme : IsLexeme .number digits := ⟨filled, all⟩
    exact ⟨_, .lexeme lexeme longest spells, .cons ⟨rfl, rfl⟩ each⟩
  | @mark c _ _ _ ih =>
    obtain ⟨mark, others⟩ := List.forall_mem_cons.mp valid
    obtain ⟨ls, spells, each⟩ := ih others
    have lexeme : IsLexeme .mark [c] := ⟨c, rfl, mark⟩
    exact ⟨_, .lexeme lexeme (longestMark c) spells, .cons ⟨rfl, rfl⟩ each⟩

end

theorem standsCons {piece : Piece} {pieces : List Piece} {ls : List Lexeme}
    (each : Forall₂ Piece.Stands (piece :: pieces) ls) :
    ∃ l rest, ls = l :: rest ∧ piece.Stands l ∧ Forall₂ Piece.Stands pieces rest := by
  cases each with
  | cons stands each => exact ⟨_, _, rfl, stands, each⟩

theorem standsAppend {one two : List Piece} {ls : List Lexeme} (each : Forall₂ Piece.Stands (one ++ two) ls) :
    ∃ first last, ls = first ++ last ∧ Forall₂ Piece.Stands one first ∧ Forall₂ Piece.Stands two last := by
  induction one generalizing ls with
  | nil => exact ⟨[], ls, rfl, .nil, each⟩
  | cons piece one ih =>
    obtain ⟨l, rest, rfl, stands, each⟩ := standsCons each
    obtain ⟨first, last, rfl, here, there⟩ := ih each
    exact ⟨l :: first, last, rfl, .cons stands here, there⟩

theorem isWord {l : Lexeme} {path : String} (stands : (Piece.word path).Stands l) : l.is path = true :=
  isIff.mpr stands.2

theorem isMarked {l : Lexeme} {c : Char} {text : String} (stands : (Piece.mark c).Stands l)
    (chars : text.toList = [c]) : l.is text = true :=
  isIff.mpr (stands.2.trans chars.symm)

theorem textOfWord {l : Lexeme} {path : String} (stands : (Piece.word path).Stands l) : l.text = path := by
  rw [Lexeme.text, stands.2, String.ofList_toList]

theorem keywordPiecesPath {word : String} (isPath : IsPath word.toList) : keywordPieces word = [.word word] := by
  have outside {text : String} {c : Char} (member : c ∈ text.toList) (other : isIdentRest c = false)
      (colon : c ≠ ':') : word ≠ text := by
    rintro rfl
    rcases charsOfPath isPath c member with inside | same
    · rw [other] at inside
      contradiction
    · contradiction
  rw [keywordPieces, if_neg, if_neg]
  · exact @outside _ ' ' (by decide) (by decide) (by decide)
  · exact @outside _ '(' (by decide) (by decide) (by decide)

theorem derivesKeyword {word : String} {ls : List Lexeme} (denoted : Denoted (.keyword word))
    (each : Forall₂ Piece.Stands (keywordPieces word) ls) : Derives IsPath ls (.keyword word) := by
  rcases denoted with rfl | rfl | ⟨isPath, free⟩
  · obtain ⟨first, _, rfl, opens, each⟩ := standsCons each
    obtain ⟨last, _, rfl, closes, each⟩ := standsCons each
    cases each
    exact .unit (isMarked opens rfl) (isMarked closes rfl)
  · obtain ⟨word, _, rfl, raw, each⟩ := standsCons each
    obtain ⟨middle, _, rfl, untyped, each⟩ := standsCons each
    obtain ⟨last, _, rfl, pointer, each⟩ := standsCons each
    cases each
    exact .raw raw.1 (isWord raw) (isWord untyped) (isWord pointer)
  · rw [keywordPiecesPath isPath] at each
    obtain ⟨l, _, rfl, stands, each⟩ := standsCons each
    cases each
    have derives : Derives IsPath [l] (.keyword l.text) := by
      refine .keyword stands.1 (stands.2 ▸ isPath) fun reserved member => isOther (isWord stands) ?_
      rintro rfl
      exact free member
    rwa [textOfWord stands] at derives

theorem standsBracket {c : Char} {inner after : List Piece} {ls : List Lexeme}
    (each : Forall₂ Piece.Stands (.mark c :: (inner ++ after)) ls) :
    ∃ first middle last, ls = first :: middle ++ last ∧ (Piece.mark c).Stands first ∧
      Forall₂ Piece.Stands inner middle ∧ Forall₂ Piece.Stands after last := by
  obtain ⟨first, _, rfl, opens, each⟩ := standsCons each
  obtain ⟨middle, last, rfl, inside, behind⟩ := standsAppend each
  exact ⟨first, middle, last, rfl, opens, inside, behind⟩

mutual

theorem derivesOfStands : (expr : TypeExpr) → expr.Denoted → ∀ {ls}, Forall₂ Piece.Stands expr.pieces ls →
    Derives IsPath ls expr
  | .keyword _, denoted, _, each => derivesKeyword denoted each
  | .str length, _, _, each => by
    obtain ⟨word, _, rfl, str, each⟩ := standsCons each
    obtain ⟨first, _, rfl, opens, each⟩ := standsCons each
    obtain ⟨number, _, rfl, ⟨kind, value⟩, each⟩ := standsCons each
    obtain ⟨last, _, rfl, closes, each⟩ := standsCons each
    cases each
    subst value
    exact .str str.1 (isWord str) (isMarked opens rfl) kind (isMarked closes rfl)
  | .array element length, denoted, _, each => by
    obtain ⟨first, middle, _, rfl, opens, inside, each⟩ := standsBracket each
    obtain ⟨mark, _, rfl, separates, each⟩ := standsCons each
    obtain ⟨number, _, rfl, ⟨kind, value⟩, each⟩ := standsCons each
    obtain ⟨last, _, rfl, closes, each⟩ := standsCons each
    cases each
    subst value
    exact .array (isMarked opens rfl) (derivesOfStands element denoted inside) (isMarked separates rfl) kind
      (isMarked closes rfl)
  | .tuple elements, ⟨filled, denoted⟩, _, each => by
    obtain ⟨first, middle, _, rfl, opens, inside, each⟩ := standsBracket each
    obtain ⟨last, _, rfl, closes, each⟩ := standsCons each
    cases each
    exact .tuple (isMarked opens rfl) (derivesAllOfStands elements filled denoted inside) (isMarked closes rfl)
  | .custom kind name, _, _, each => by
    obtain ⟨word, _, rfl, custom, each⟩ := standsCons each
    obtain ⟨path, _, rfl, named, each⟩ := standsCons each
    cases each
    rw [← textOfWord named]
    exact .custom kind custom.1 (isWord custom) named.1
  | .generic name, isPath, _, each => by
    obtain ⟨word, _, rfl, generic, each⟩ := standsCons each
    obtain ⟨path, _, rfl, named, each⟩ := standsCons each
    cases each
    have derives : Derives IsPath [word, path] (.generic path.text) :=
      .generic generic.1 (isWord generic) named.1 (named.2 ▸ isPath)
    rwa [textOfWord named] at derives

theorem derivesAllOfStands : (exprs : List TypeExpr) → exprs ≠ [] → AllDenoted exprs →
    ∀ {ls}, Forall₂ Piece.Stands (elementPieces exprs) ls → DerivesAll IsPath ls exprs
  | [], filled, _, _, _ => absurd rfl filled
  | [expr], _, ⟨denoted, _⟩, _, each => .one (derivesOfStands expr denoted each)
  | expr :: next :: exprs, _, ⟨denoted, rest⟩, _, each => by
    obtain ⟨first, _, rfl, here, each⟩ := standsAppend each
    obtain ⟨comma, _, rfl, separates, there⟩ := standsCons each
    exact .more (derivesOfStands expr denoted here) (isMarked separates rfl)
      (derivesAllOfStands (next :: exprs) (by simp) rest there)

end

theorem markStands {l : Lexeme} {text : String} {c : Char} (lexeme : IsLexeme l.kind l.chars)
    (same : l.is text = true) (chars : text.toList = [c]) (mark : isMark c = true) : (Piece.mark c).Stands l := by
  have single : l.chars = [c] := (isIff.mp same).trans chars
  have lexemeToo : IsLexeme .mark l.chars := ⟨c, single, mark⟩
  exact ⟨kindUnique lexeme lexemeToo, single⟩

theorem wordStands {l : Lexeme} {text : String} (lexeme : IsLexeme l.kind l.chars) (same : l.is text = true)
    (isPath : IsPath text.toList) : (Piece.word text).Stands l := by
  rw [← isIff.mp same] at isPath
  exact ⟨kindUnique lexeme isPath, isIff.mp same⟩

theorem namedStands {l : Lexeme} (kind : l.kind = .path) : (Piece.word l.text).Stands l :=
  ⟨kind, by rw [Lexeme.text, String.toList_ofList]⟩

theorem pathOfLexeme {l : Lexeme} (lexeme : IsLexeme l.kind l.chars) (kind : l.kind = .path) :
    IsPath l.text.toList := by
  rw [kind] at lexeme
  rwa [Lexeme.text, String.toList_ofList]

theorem standsKeyword {l : Lexeme} (lexeme : IsLexeme l.kind l.chars) (kind : l.kind = .path)
    (free : ∀ reserved ∈ reservedWords, l.is reserved = false) :
    Denoted (.keyword l.text) ∧ Forall₂ Piece.Stands (keywordPieces l.text) [l] := by
  have isPath := pathOfLexeme lexeme kind
  refine ⟨.inr (.inr ⟨isPath, fun member => ?_⟩), ?_⟩
  · have other := free l.text member
    rw [isWord (namedStands kind)] at other
    contradiction
  · rw [keywordPiecesPath isPath]
    exact .cons (namedStands kind) .nil

section

variable {name : List Char → Prop} {ls : List Lexeme} {expr : TypeExpr}

theorem denotedElements {exprs : List TypeExpr} (derives : DerivesAll name ls exprs) : exprs ≠ [] := by
  cases derives <;> simp

mutual

theorem standsOfDerives {ls : List Lexeme} {expr : TypeExpr} : Derives IsPath ls expr →
    (∀ l ∈ ls, IsLexeme l.kind l.chars) → expr.Denoted ∧ Forall₂ Piece.Stands expr.pieces ls
  | .unit first last, lexemes => by
    simp only [List.forall_mem_cons] at lexemes
    obtain ⟨opens, closes, _⟩ := lexemes
    exact ⟨.inl rfl, .cons (markStands opens first rfl (by decide))
      (.cons (markStands closes last rfl (by decide)) .nil)⟩
  | .tuple first inner last, lexemes => by
    simp only [List.cons_append, List.forall_mem_cons, List.forall_mem_append] at lexemes
    obtain ⟨opens, inside, closes, _⟩ := lexemes
    obtain ⟨denoted, each⟩ := allStandsOfDerives inner inside
    refine ⟨⟨denotedElements inner, denoted⟩, .cons (markStands opens first rfl (by decide)) ?_⟩
    exact List.rel_append each (.cons (markStands closes last rfl (by decide)) .nil)
  | .array first inner mark number last, lexemes => by
    simp only [List.cons_append, List.forall_mem_cons, List.forall_mem_append] at lexemes
    obtain ⟨opens, inside, separates, _, closes, _⟩ := lexemes
    obtain ⟨denoted, each⟩ := standsOfDerives inner inside
    refine ⟨denoted, .cons (markStands opens first rfl (by decide)) (List.rel_append each ?_)⟩
    exact .cons (markStands separates mark rfl (by decide)) (.cons ⟨number, rfl⟩
      (.cons (markStands closes last rfl (by decide)) .nil))
  | .str path word first number last, lexemes => by
    simp only [List.forall_mem_cons] at lexemes
    obtain ⟨_, opens, _, closes, _⟩ := lexemes
    exact ⟨trivial, .cons ⟨path, isIff.mp word⟩ (.cons (markStands opens first rfl (by decide))
      (.cons ⟨number, rfl⟩ (.cons (markStands closes last rfl (by decide)) .nil)))⟩
  | .custom kind path word named, lexemes => by
    simp only [List.forall_mem_cons] at lexemes
    exact ⟨pathOfLexeme lexemes.2.1 named, .cons ⟨path, isIff.mp word⟩ (.cons (namedStands named) .nil)⟩
  | .generic path word named _, lexemes => by
    simp only [List.forall_mem_cons] at lexemes
    exact ⟨pathOfLexeme lexemes.2.1 named, .cons ⟨path, isIff.mp word⟩ (.cons (namedStands named) .nil)⟩
  | .raw path word untyped pointer, lexemes => by
    simp only [List.forall_mem_cons] at lexemes
    obtain ⟨_, second, third, _⟩ := lexemes
    exact ⟨.inr (.inl rfl), .cons ⟨path, isIff.mp word⟩
      (.cons (wordStands second untyped (pathOfIdentText (by decide)))
        (.cons (wordStands third pointer (pathOfIdentText (by decide))) .nil))⟩
  | .keyword path _ free, lexemes => standsKeyword (lexemes _ (by simp)) path free

theorem allStandsOfDerives {ls : List Lexeme} {exprs : List TypeExpr} : DerivesAll IsPath ls exprs →
    (∀ l ∈ ls, IsLexeme l.kind l.chars) → AllDenoted exprs ∧ Forall₂ Piece.Stands (elementPieces exprs) ls
  | .one derives, lexemes => by
    obtain ⟨denoted, each⟩ := standsOfDerives derives lexemes
    exact ⟨⟨denoted, trivial⟩, each⟩
  | @DerivesAll.more _ _ _ _ _ exprs derives comma later, lexemes => by
    simp only [List.forall_mem_cons, List.forall_mem_append] at lexemes
    obtain ⟨inside, separates, rest⟩ := lexemes
    obtain ⟨denoted, each⟩ := standsOfDerives derives inside
    obtain ⟨others, behind⟩ := allStandsOfDerives later rest
    refine ⟨⟨denoted, others⟩, ?_⟩
    cases exprs with
    | nil => exact absurd rfl (denotedElements later)
    | cons => exact List.rel_append each (.cons (markStands separates comma rfl (by decide)) behind)

end

end

def Piece.Meets : Piece → Piece → Prop
  | .word _, .word _ => True
  | .mark _, _ => True
  | _, .mark _ => True
  | _, _ => False

theorem meetsMark (piece : Piece) (c : Char) : piece.Meets (.mark c) := by
  cases piece <;> exact trivial

structure Joined (pieces : List Piece) : Prop where
  valid : ∀ piece ∈ pieces, piece.Valid
  meets : pieces.IsChain Piece.Meets

theorem joinedMark {c : Char} {pieces : List Piece} (mark : isMark c = true) (joined : Joined pieces) :
    Joined (.mark c :: pieces) where
  valid := List.forall_mem_cons.mpr ⟨mark, joined.valid⟩
  meets := by
    cases pieces with
    | nil => exact .singleton _
    | cons piece pieces => exact .cons_cons trivial joined.meets

theorem joinedAround {inner after : List Piece} {c : Char} (inside : Joined inner)
    (behind : Joined (.mark c :: after)) : Joined (inner ++ .mark c :: after) where
  valid := List.forall_mem_append.mpr ⟨inside.valid, behind.valid⟩
  meets := List.isChain_append.mpr ⟨inside.meets, behind.meets, fun piece _ next head => by
    cases head
    exact meetsMark piece c⟩

theorem joinedLength (n : Nat) : Joined [.number n, .mark ']'] where
  valid := List.forall_mem_cons.mpr ⟨trivial, by simp [Piece.Valid, isMark]⟩
  meets := .cons_cons trivial (.singleton _)

theorem joinedWord {path : String} {pieces : List Piece} (isPath : IsPath path.toList) (joined : Joined pieces)
    (meets : ∀ next ∈ pieces.head?, (Piece.word path).Meets next) : Joined (.word path :: pieces) where
  valid := List.forall_mem_cons.mpr ⟨isPath, joined.valid⟩
  meets := List.isChain_cons.mpr ⟨meets, joined.meets⟩

theorem joinedName {name : String} (isPath : IsPath name.toList) : Joined [.word name] :=
  joinedWord isPath ⟨by simp, .nil⟩ (by simp)

theorem joinedNamed {word name : String} (first : IsPath word.toList) (isPath : IsPath name.toList) :
    Joined [.word word, .word name] :=
  joinedWord first (joinedName isPath) (by simp [Piece.Meets])

theorem joinedKeyword {word : String} (denoted : Denoted (.keyword word)) : Joined (keywordPieces word) := by
  rcases denoted with rfl | rfl | ⟨isPath, _⟩
  · exact joinedMark (by decide) (joinedMark (by decide) ⟨by simp, .nil⟩)
  · refine joinedWord (pathOfIdentText (by decide)) ?_ (by simp [Piece.Meets])
    exact joinedNamed (pathOfIdentText (by decide)) (pathOfIdentText (by decide))
  · rw [keywordPiecesPath isPath]
    exact joinedName isPath

mutual

theorem joinedPieces : (expr : TypeExpr) → expr.Denoted → Joined expr.pieces
  | .keyword _, denoted => joinedKeyword denoted
  | .str length, _ => by
    refine joinedWord (pathOfIdentText (by decide)) ?_ (by simp [Piece.Meets])
    exact joinedMark (by decide) (joinedLength length)
  | .array element length, denoted =>
    joinedMark (by decide) (joinedAround (joinedPieces element denoted)
      (joinedMark (by decide) (joinedLength length)))
  | .tuple elements, ⟨_, denoted⟩ =>
    joinedMark (by decide) (joinedAround (joinedElements elements denoted)
      (joinedMark (by decide) ⟨by simp, .nil⟩))
  | .custom kind _, isPath => joinedNamed (pathOfIdentText (by cases kind <;> decide)) isPath
  | .generic _, isPath => joinedNamed (pathOfIdentText (by decide)) isPath

theorem joinedElements : (exprs : List TypeExpr) → AllDenoted exprs → Joined (elementPieces exprs)
  | [], _ => ⟨by simp [elementPieces], .nil⟩
  | [expr], ⟨denoted, _⟩ => joinedPieces expr denoted
  | expr :: next :: exprs, ⟨denoted, rest⟩ =>
    joinedAround (joinedPieces expr denoted) (joinedMark (by decide) (joinedElements (next :: exprs) rest))

end

theorem continuesSnoc {cs : List Char} (continues : Continues cs) {c : Char} (inside : isIdentRest c = true) :
    Continues (cs ++ [c]) := by
  induction continues with
  | done => exact .rest inside .done
  | rest here _ ih => exact .rest here ih
  | scope start _ ih => exact .scope start ih

theorem pathsApart {path next : List Char} (isPath : IsPath path) (follows : IsPath next) {rest : List Char}
    (longest : Longest .path path (next ++ rest)) : False := by
  obtain ⟨c, later, rfl, start, _⟩ := continuesOfPath follows
  obtain ⟨first, word, rfl, begins, continues⟩ := continuesOfPath isPath
  have longer : IsPath (first :: word ++ [c]) :=
    isPathIff.mpr ⟨begins, continuesSnoc continues (identRestOfStart start)⟩
  have none := longest [c] (later ++ rest) rfl longer
  contradiction

section

variable {pieces : List Piece} {cs rest : List Char} {ls : List Lexeme} {position : Nat}

theorem partedOfSpells {path : String} (isPath : IsPath path.toList) (longest : Longest .path path.toList rest)
    (meets : (Piece.word path :: pieces).IsChain Piece.Meets) (spells : Spells position rest ls)
    (each : Forall₂ Piece.Stands pieces ls) : Parted pieces rest := by
  cases spells with
  | done =>
    cases each
    exact .ends
  | blank blank _ => exact .blank blank
  | lexeme lexeme _ _ =>
    cases each with
    | @cons piece _ _ _ stands _ =>
      cases piece with
      | mark c => exact .mark
      | number value => exact absurd (List.isChain_cons_cons.mp meets).1 not_false
      | word next =>
        obtain ⟨kind, _⟩ := stands
        cases kind
        exact (pathsApart isPath lexeme longest).elim

theorem partedNumber {value : Nat} (meets : (Piece.number value :: pieces).IsChain Piece.Meets) : Parted pieces rest := by
  cases pieces with
  | nil => exact .ends
  | cons piece pieces =>
    have beside := (List.isChain_cons_cons.mp meets).1
    cases piece with
    | mark c => exact .mark
    | word _ | number _ => exact beside.elim

theorem spacedOfSpells (spells : Spells position cs ls) (each : Forall₂ Piece.Stands pieces ls)
    (meets : pieces.IsChain Piece.Meets) : Spaced pieces cs := by
  induction spells generalizing pieces with
  | done =>
    cases each
    exact .done
  | blank blank _ ih => exact .blank blank (ih each meets)
  | lexeme lexeme longest spells ih =>
    cases each with
    | @cons piece _ pieces _ stands each =>
      have spaced := ih each meets.tail
      cases piece with
      | word path =>
        obtain ⟨kind, chars⟩ := stands
        cases kind
        cases chars
        exact .word (partedOfSpells lexeme longest meets spells each) spaced
      | number value =>
        obtain ⟨kind, value⟩ := stands
        cases kind
        subst value
        exact .number lexeme.1 lexeme.2 (partedNumber meets) spaced
      | mark c =>
        obtain ⟨kind, chars⟩ := stands
        cases chars
        exact .mark spaced

end

theorem digitOfAscii {c : Char} (digit : c.isDigit = true) : Text.digitValue? c = some (c.toNat - '0'.toNat) := by
  have place : 48 ≤ c.toNat ∧ c.toNat ≤ 57 := by simpa [Char.isDigit, UInt32.le_iff_toNat_le] using digit
  have first : (decide (0x30 ≤ c.toNat) && decide (c.toNat < 0x30 + 10)) = true := by
    simp only [Bool.and_eq_true, decide_eq_true_eq]
    omega
  rw [Text.digitValue?, Text.zeroDigits, List.find?_cons, first]
  rfl

theorem digitsOfNatChars (n : Nat) :
    (∀ c ∈ Decimal.natChars n, Text.isDecimalDigit c = true) ∧ Text.digitsValue (Decimal.natChars n) = n := by
  have each : ∀ c ∈ Decimal.natChars n, Text.digitValue? c = some (c.toNat - '0'.toNat) := fun c member =>
    digitOfAscii (Decimal.natCharsDigits member)
  refine ⟨fun c member => Text.isDecimalDigitIff.mpr ⟨_, each c member⟩, ?_⟩
  calc Text.digitsValue (Decimal.natChars n)
      = Nat.ofDigitChars 10 (Decimal.natChars n) 0 :=
        List.foldl_ext _ _ _ fun value c member => by rw [each c member]; rfl
    _ = n := Nat.ofDigitChars_ten_toDigits

theorem spacedNumber (n : Nat) {pieces : List Piece} {rest : List Char} (parted : Parted pieces rest)
    (spaced : Spaced pieces rest) : Spaced (.number n :: pieces) (Decimal.natChars n ++ rest) := by
  obtain ⟨digits, value⟩ := digitsOfNatChars n
  have filled : Decimal.natChars n ≠ [] := Nat.toDigits_ne_nil
  have written := Spaced.number filled digits parted spaced
  rwa [value] at written

theorem ofTextPieces {source : String} {expr : TypeExpr} :
    ofText source = .ok expr ↔ expr.Denoted ∧ Spaced expr.pieces source.toList := by
  rw [ofTextIff]
  constructor
  · rintro ⟨ls, spells, derives⟩
    obtain ⟨denoted, each⟩ := standsOfDerives derives (lexemesOfKind spells)
    exact ⟨denoted, spacedOfSpells spells each (joinedPieces expr denoted).meets⟩
  · rintro ⟨denoted, spaced⟩
    obtain ⟨ls, spells, each⟩ := spellsOfSpaced spaced (joinedPieces expr denoted).valid
    exact ⟨ls, spells, derivesOfStands expr denoted each⟩

example : ofText "\t[ (str [3],struct a::b);007 ] " =
    .ok (.array (.tuple [.str 3, .custom .struct "a::b"]) 7) := by rfl

end WordAbi.TypeExpr
