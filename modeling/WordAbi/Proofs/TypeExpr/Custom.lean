import WordAbi.Proofs.TypeExpr.Limit
import WordAbi.Schema.Property
/-! Nodes that say of themselves that they are structs or enums. They look at how their type begins: the word, and one
space after it. What says so is read as such a type; what is read as such a type says so when no white space stands
before the word and the white space after it begins with that space. -/
namespace WordAbi

namespace TypeExpr

attribute [local instance] Host.unlimited

structure CustomText (kind : CustomKind) (name before gap after : List Char) (cs : List Char) : Prop where
  text : cs = before ++ (kind.word.toList ++ (gap ++ (name ++ after)))
  blank : ∀ c ∈ before ++ gap ++ after, Text.isBlank c = true
  parted : gap ≠ []

theorem blankOfSpaced {cs : List Char} (spaced : Spaced [] cs) : ∀ c ∈ cs, Text.isBlank c = true := by
  generalize none : ([] : List Piece) = pieces at spaced
  induction spaced with
  | done => simp
  | blank blank _ ih => exact List.forall_mem_cons.mpr ⟨blank, ih none⟩
  | word | number | mark => cases none

theorem wordOfSpaced {path : String} {pieces : List Piece} {cs : List Char}
    (spaced : Spaced (.word path :: pieces) cs) :
    ∃ before rest, cs = before ++ (path.toList ++ rest) ∧ (∀ c ∈ before, Text.isBlank c = true) ∧
      Parted pieces rest ∧ Spaced pieces rest := by
  generalize first : Piece.word path :: pieces = all at spaced
  induction spaced with
  | done | number | mark => cases first
  | @blank _ c _ blank _ ih =>
    obtain ⟨before, rest, rfl, blanks, parted, spaced⟩ := ih first
    exact ⟨c :: before, rest, rfl, List.forall_mem_cons.mpr ⟨blank, blanks⟩, parted, spaced⟩
  | word parted spaced _ =>
    cases first
    exact ⟨[], _, rfl, by simp, parted, spaced⟩

theorem pathNotBlank {path : List Char} (isPath : IsPath path) :
    ∃ c rest, path = c :: rest ∧ Text.isBlank c = false := by
  obtain ⟨c, rest, rfl, start, _⟩ := continuesOfPath isPath
  refine ⟨c, rest, rfl, Bool.eq_false_iff.mpr fun blank => ?_⟩
  have outside := (blankApart blank).2.1
  rw [identRestOfStart start] at outside
  contradiction

theorem pathOfKind (kind : CustomKind) : IsPath kind.word.toList :=
  pathOfIdentText (by cases kind <;> decide)

theorem customText {source name : String} {kind : CustomKind} (read : ofText source = .ok (.custom kind name)) :
    ∃ before gap after, CustomText kind name.toList before gap after source.toList := by
  obtain ⟨isPath, spaced⟩ := ofTextPieces.mp read
  obtain ⟨before, _, text, blankBefore, parted, spaced⟩ := wordOfSpaced spaced
  obtain ⟨gap, after, rfl, blankGap, _, spaced⟩ := wordOfSpaced spaced
  refine ⟨before, gap, after, text, ?_, ?_⟩
  · simp only [List.forall_mem_append]
    exact ⟨⟨blankBefore, blankGap⟩, blankOfSpaced spaced⟩
  · rintro rfl
    obtain ⟨c, rest, begins, visible⟩ := pathNotBlank isPath
    rw [begins] at parted
    cases parted with
    | blank blank =>
      rw [visible] at blank
      cases blank

theorem spellsFirst {position : Nat} {kind : LexemeKind} {word rest : List Char} {ls : List Lexeme}
    (lexeme : IsLexeme kind word) (longest : Longest kind word rest) (spells : Spells position (word ++ rest) ls) :
    ls.head? = some ⟨kind, word, position⟩ := by
  obtain ⟨c, cs, rfl, found⟩ := scanOfLexeme lexeme longest
  have scanned := @lexemesOfSpells "" _ _ _ spells
  rw [List.cons_append, lexemesFrom, found] at scanned
  obtain ⟨more, _, last⟩ := Outcome.bindOk.mp scanned
  cases last
  rw [List.take_left]
  rfl

theorem customOfFirst {kind : CustomKind} {l : Lexeme} {ls : List Lexeme} {expr : TypeExpr}
    (derives : Derives IsPath ls expr) (first : ls.head? = some l) (word : l.is kind.word = true) :
    ∃ name, expr = .custom kind name := by
  have other {text : String} (differ : kind.word ≠ text) (same : l.is text = true) : False := by
    rw [isOther word differ] at same
    contradiction
  cases derives with
  | unit opens | tuple opens | array opens =>
    cases first
    exact (other (by cases kind <;> decide) opens).elim
  | str _ named | generic _ named | raw _ named =>
    cases first
    exact (other (by cases kind <;> decide) named).elim
  | custom found _ named =>
    cases first
    have same : kind = found := by
      by_contra differ
      exact other (by revert differ; cases kind <;> cases found <;> decide) named
    subst same
    exact ⟨_, rfl⟩
  | keyword _ _ free =>
    cases first
    rw [free kind.word (by cases kind <;> decide)] at word
    contradiction

theorem customOfWord {source : String} {kind : CustomKind} {expr : TypeExpr} (read : ofText source = .ok expr)
    (begins : kind.word.toList ++ [' '] <+: source.toList) : ∃ name, expr = .custom kind name := by
  obtain ⟨rest, text⟩ := begins
  obtain ⟨ls, spells, derives⟩ := ofTextIff.mp read
  have lexeme : IsLexeme .path kind.word.toList := pathOfKind kind
  have space : Text.isBlank ' ' = true := by decide
  have longest : Longest .path kind.word.toList (' ' :: rest) := longestWord (by simpa using blankApart space)
  rw [← text, List.append_assoc] at spells
  exact customOfFirst derives (spellsFirst lexeme longest spells) (isIff.mpr rfl)

theorem bareOfBegins {kind : CustomKind} {before rest : List Char}
    (begins : kind.word.toList ++ [' '] <+: before ++ rest) (blank : ∀ c ∈ before, Text.isBlank c = true) :
    before = [] := by
  cases before with
  | nil => rfl
  | cons c before =>
    obtain ⟨first, word, spelled, visible⟩ := pathNotBlank (pathOfKind kind)
    obtain ⟨rest, same⟩ := begins
    rw [spelled] at same
    obtain rfl := (List.cons.inj same).1
    rw [blank first List.mem_cons_self] at visible
    cases visible

theorem beginsOfCustomText {kind : CustomKind} {name before gap after cs : List Char}
    (custom : CustomText kind name before gap after cs) :
    kind.word.toList ++ [' '] <+: cs ↔ before = [] ∧ gap.head? = some ' ' := by
  obtain ⟨rfl, blank, parted⟩ := custom
  constructor
  · intro begins
    obtain rfl := bareOfBegins begins fun c member => blank c (by simp [member])
    rw [List.nil_append, List.prefix_append_right_inj] at begins
    cases gap with
    | nil => exact absurd rfl parted
    | cons c gap =>
      obtain ⟨rest, same⟩ := begins
      cases same
      exact ⟨rfl, rfl⟩
  · rintro ⟨rfl, head⟩
    cases gap with
    | nil => cases head
    | cons c gap =>
      cases head
      rw [List.nil_append, List.prefix_append_right_inj]
      exact ⟨_, rfl⟩

end TypeExpr

namespace Property
open TypeExpr

def isOfKind (p : Property) : CustomKind → Bool
  | .struct => p.isStruct
  | .enum => p.isEnum

theorem isOfKindIff {p : Property} {source : String} (typed : p.typeField = .str source) (kind : CustomKind) :
    p.isOfKind kind = true ↔ kind.word.toList ++ [' '] <+: source.toList := by
  cases kind <;> simp only [isOfKind, isStruct, isEnum, typed, List.isPrefixOf_iff_prefix] <;> rfl

/-- A node whose type is read says of itself that it is a struct, or an enum, only when that is what its type is read
as; and of a type that is read as one the node says so exactly when no white space stands before the word and the
white space behind the word begins with a space. -/
theorem isOfKindRead [Host] {p : Property} {expr : TypeExpr} (read : ofDatum p.typeField = .ok expr) (kind : CustomKind) :
    (p.isOfKind kind = true → ∃ name, expr = .custom kind name) ∧
      ∀ name, expr = .custom kind name → ∃ source before gap after, p.typeField = .str source ∧
        CustomText kind name.toList before gap after source.toList ∧
        (p.isOfKind kind = true ↔ before = [] ∧ gap.head? = some ' ') := by
  cases typed : p.typeField with
  | str source =>
    rw [typed] at read
    have read := ofTextUnlimited read
    refine ⟨fun told => customOfWord read ((isOfKindIff typed kind).mp told), ?_⟩
    rintro name rfl
    obtain ⟨before, gap, after, custom⟩ := customText read
    exact ⟨source, before, gap, after, rfl, custom, (isOfKindIff typed kind).trans (beginsOfCustomText custom)⟩
  | _ =>
    rw [typed] at read
    cases read

theorem isOfKindReadPath :
    let p := mk "" (.str "enum \u3000a::b\t") none none none
    let expr : TypeExpr := .custom .enum "a::b"
    ofDatum p.typeField = .ok expr ∧ p.isOfKind .enum = true ∧ (∃ name, expr = .custom .enum name) ∧
      ∃ source before gap after, p.typeField = .str source ∧
        CustomText .enum "a::b".toList before gap after source.toList ∧
        (p.isOfKind .enum = true ↔ before = [] ∧ gap.head? = some ' ') := by
  intro p expr
  have read : ofDatum p.typeField = .ok expr := by rfl
  have told : p.isOfKind .enum = true := by decide
  obtain ⟨kind, spelled⟩ := isOfKindRead read .enum
  exact ⟨read, told, kind told, spelled "a::b" rfl⟩

theorem blanksHideKind :
    let tabbed := mk "" (.str "struct\tFoo") none none none
    let indented := mk "" (.str " enum Bar") none none none
    ofDatum tabbed.typeField = .ok (.custom .struct "Foo") ∧ tabbed.isStruct = false ∧
      ofDatum indented.typeField = .ok (.custom .enum "Bar") ∧ indented.isEnum = false :=
  ⟨by rfl, by decide, by rfl, by decide⟩

end Property

end WordAbi
