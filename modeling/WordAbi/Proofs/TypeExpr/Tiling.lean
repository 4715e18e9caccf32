import WordAbi.Proofs.TypeExpr.Lexing
/-! Where the lexemes of a text stand. They tile the text with white space: each stands at its position, before the
next one, and goes on as far as it can, and every character outside of them is white space. A text is refused at a
character that begins no lexeme, and is tiled up to there. -/
namespace WordAbi.TypeExpr
open Outcome

def Lexeme.stop (l : Lexeme) : Nat := l.position + l.chars.length

def StandsIn (cs : List Char) (l : Lexeme) : Prop :=
  IsLexeme l.kind l.chars ∧
    ∃ before after, cs = before ++ l.chars ++ after ∧ before.length = l.position ∧ Longest l.kind l.chars after

/-- The lexemes stand in the text one before the other, up to a position, and all else up to there is white space. -/
structure Tiles (cs : List Char) (stop : Nat) (ls : List Lexeme) : Prop where
  filled : ∀ l ∈ ls, l.chars ≠ []
  standing : ∀ l ∈ ls, StandsIn cs l
  within : ∀ l ∈ ls, l.stop ≤ stop
  ordered : ls.Pairwise fun l next => l.position < next.position ∧ l.stop ≤ next.position
  blank : ∀ position c, position < stop → cs[position]? = some c →
    (∀ l ∈ ls, position < l.position ∨ l.stop ≤ position) → Text.isBlank c = true

inductive Scans (rest : List Char) : (position : Nat) → List Char → List Lexeme → Prop
  | done {position} : Scans rest position rest []
  | blank {position c cs ls} : Text.isBlank c = true → Scans rest (position + 1) cs ls →
      Scans rest position (c :: cs) ls
  | lexeme {position kind word cs ls} : IsLexeme kind word → Longest kind word cs →
      Scans rest (position + word.length) cs ls → Scans rest position (word ++ cs) (⟨kind, word, position⟩ :: ls)

theorem filledOfLexeme {kind : LexemeKind} {word : List Char} (lexeme : IsLexeme kind word) : word ≠ [] := by
  obtain ⟨c, cs, rfl, _⟩ := scanOfLexeme lexeme (longestEnd kind word)
  exact List.cons_ne_nil c cs

theorem longestBefore {kind : LexemeKind} {word cs rest : List Char} (longest : Longest kind word (cs ++ rest)) :
    Longest kind word cs := by
  rintro more after rfl longer
  exact longest more (after ++ rest) (List.append_assoc _ _ _) longer

theorem scansOfSpells {position : Nat} {cs : List Char} {ls : List Lexeme} (spells : Spells position cs ls) :
    Scans [] position cs ls := by
  induction spells with
  | done => exact .done
  | blank blank _ ih => exact .blank blank ih
  | lexeme lexeme longest _ ih => exact .lexeme lexeme longest ih

section

variable {rest cs : List Char} {position : Nat} {ls : List Lexeme}

theorem spellsOfScans (scans : Scans rest position cs ls) :
    ∃ before, cs = before ++ rest ∧ Spells position before ls := by
  induction scans with
  | done => exact ⟨[], rfl, .done⟩
  | @blank _ c _ _ blank _ ih =>
    obtain ⟨before, rfl, spells⟩ := ih
    exact ⟨c :: before, rfl, .blank blank spells⟩
  | @lexeme _ _ word _ _ lexeme longest _ ih =>
    obtain ⟨before, rfl, spells⟩ := ih
    exact ⟨word ++ before, (List.append_assoc _ _ _).symm, .lexeme lexeme (longestBefore longest) spells⟩

theorem scansBounds (scans : Scans rest position cs ls) :
    ∀ l ∈ ls, position ≤ l.position ∧ l.stop + rest.length ≤ position + cs.length ∧ l.chars ≠ [] := by
  induction scans with
  | done => simp
  | blank _ _ ih =>
    intro l member
    obtain ⟨first, last, filled⟩ := ih l member
    rw [List.length_cons]
    exact ⟨by omega, by omega, filled⟩
  | @lexeme position kind word cs _ lexeme _ scans ih =>
    obtain ⟨before, rfl, _⟩ := spellsOfScans scans
    rw [List.length_append, List.length_append] at *
    refine List.forall_mem_cons.mpr ⟨⟨Nat.le_refl _, ?_, filledOfLexeme lexeme⟩, fun l member => ?_⟩
    · dsimp only [Lexeme.stop]
      omega
    · obtain ⟨first, last, filled⟩ := ih l member
      exact ⟨by omega, by omega, filled⟩

theorem scansOrdered (scans : Scans rest position cs ls) :
    ls.Pairwise fun l next => l.position < next.position ∧ l.stop ≤ next.position := by
  induction scans with
  | done => exact .nil
  | blank _ _ ih => exact ih
  | lexeme lexeme _ scans ih =>
    refine List.pairwise_cons.mpr ⟨fun next member => ?_, ih⟩
    have behind := (scansBounds scans next member).1
    have filled := List.length_pos_iff.mpr (filledOfLexeme lexeme)
    dsimp only [Lexeme.stop]
    omega

theorem scansStanding (scans : Scans rest position cs ls) :
    ∀ before : List Char, before.length = position → ∀ l ∈ ls, StandsIn (before ++ cs) l := by
  -- what is scanned joins the characters before the position, so that the whole text stays the same
  induction scans with
  | done => simp
  | @blank position c _ _ _ _ ih =>
    intro before length l member
    have standing := ih (before ++ [c]) (by simp [length]) l member
    rwa [List.append_assoc, List.singleton_append] at standing
  | @lexeme position kind word cs _ lexeme longest _ ih =>
    intro before length
    refine List.forall_mem_cons.mpr ⟨⟨lexeme, before, cs, ?_, length, longest⟩, fun l member => ?_⟩
    · rw [List.append_assoc]
    · have standing := ih (before ++ word) (by simp [length]) l member
      rwa [List.append_assoc] at standing

theorem blankOutside (scans : Scans rest position cs ls) : ∀ index c, index + rest.length < cs.length →
    cs[index]? = some c → (∀ l ∈ ls, position + index < l.position ∨ l.stop ≤ position + index) →
    Text.isBlank c = true := by
  induction scans with
  | done =>
    intro index c inside
    omega
  | blank blank _ ih =>
    intro index c inside found outside
    cases index with
    | zero =>
      cases found
      exact blank
    | succ index =>
      rw [List.length_cons] at inside
      refine ih index c (by omega) found fun l member => ?_
      have := outside l member
      omega
  | @lexeme position kind word cs _ _ _ _ ih =>
    intro index c inside found outside
    obtain ⟨own, others⟩ := List.forall_mem_cons.mp outside
    have behind : word.length ≤ index := by
      dsimp only [Lexeme.stop] at own
      omega
    rw [List.getElem?_append_right behind] at found
    rw [List.length_append] at inside
    refine ih _ c (by omega) found fun l member => ?_
    have := others l member
    omega

end

theorem tilesOfScans {before rest : List Char} {ls : List Lexeme} (scans : Scans rest 0 (before ++ rest) ls) :
    Tiles (before ++ rest) before.length ls where
  filled l member := (scansBounds scans l member).2.2
  standing := scansStanding scans [] rfl
  within l member := by
    have last := (scansBounds scans l member).2.1
    rw [List.length_append] at last
    omega
  ordered := scansOrdered scans
  blank position c inside found outside := by
    refine blankOutside scans position c ?_ found fun l member => ?_
    · rw [List.length_append]
      omega
    · rw [Nat.zero_add]
      exact outside l member

theorem noLexeme {c : Char} {rest : List Char} (unscanned : scan c rest = none) (kind : LexemeKind)
    (word : List Char) : ¬ IsLexeme kind (c :: word) := by
  unfold scan at unscanned
  split at unscanned
  · cases unscanned
  rename_i digit
  split at unscanned
  · cases unscanned
  rename_i start
  split at unscanned
  · cases unscanned
  rename_i mark
  intro lexeme
  cases kind with
  | number => exact digit (lexeme.2 c List.mem_cons_self)
  | path => exact start (isPathIff.mp lexeme).1
  | mark =>
    obtain ⟨d, same, isMark⟩ := lexeme
    cases same
    exact mark isMark

def Strange (c : Char) : Prop := Text.isBlank c = false ∧ ∀ kind word, ¬ IsLexeme kind (c :: word)

theorem scansScanned {c : Char} {cs rest : List Char} {kind : LexemeKind} {extra position : Nat} {ls : List Lexeme}
    (found : scan c cs = some (kind, extra)) (scans : Scans rest (position + 1 + extra) (cs.drop extra) ls) :
    Scans rest position (c :: cs) (⟨kind, c :: cs.take extra, position⟩ :: ls) := by
  obtain ⟨lexeme, longest⟩ := scanOk found
  have width : position + (c :: cs.take extra).length = position + 1 + extra := by
    rw [List.length_cons, List.length_take, Nat.min_eq_left (scanLe found)]
    omega
  have whole := Scans.lexeme lexeme longest (width ▸ scans)
  rwa [List.cons_append, List.take_append_drop] at whole

theorem strangeOfLexemes {source : String} : (cs : List Char) → ∀ {position : Nat} {fault : Fault},
    lexemesFrom source 0 position cs = .error fault →
    ∃ before c after ls, cs = before ++ c :: after ∧ Scans (c :: after) position cs ls ∧ Strange c ∧
      fault = .invalidType (.strangeCharacter source c (position + before.length))
  | [], _, _, failed => by cases failed
  | c :: rest, position, fault, failed => by
    unfold lexemesFrom at failed
    split at failed
    · rename_i kind extra found
      rcases bindError.mp failed with later | ⟨_, _, absurd⟩
      · rw [lexemesSkip] at later
        obtain ⟨before, d, after, ls, same, scans, strange, told⟩ := strangeOfLexemes (rest.drop extra) later
        refine ⟨c :: (rest.take extra ++ before), d, after, _, ?_, scansScanned found scans, strange, ?_⟩
        · rw [List.cons_append, List.append_assoc, ← same, List.take_append_drop]
        · rw [told, List.length_cons, List.length_append, List.length_take, Nat.min_eq_left (scanLe found)]
          congr 2
          omega
      · cases absurd
    · rename_i unscanned
      split at failed
      · rename_i blank
        obtain ⟨before, d, after, ls, same, scans, strange, told⟩ := strangeOfLexemes rest failed
        refine ⟨c :: before, d, after, ls, congrArg (c :: ·) same, .blank blank scans, strange, ?_⟩
        rw [told, List.length_cons]
        congr 2
        omega
      · rename_i visible
        cases failed
        exact ⟨[], c, rest, [], rfl, .done, ⟨by simpa using visible, noLexeme unscanned⟩, rfl⟩
termination_by cs => cs.length

/-- Every text has lexemes that tile it, or is an invalid type: the message tells the position of a character with
which nothing begins, lexemes tile the text up to there, and they are the lexemes of what is before it. -/
theorem lexemesTile (source : String) :
    Ends (fun ls => Tiles source.toList source.toList.length ls)
      (fun fault => ∃ before c after ls, source.toList = before ++ c :: after ∧ Strange c ∧
        Tiles source.toList before.length ls ∧ lexemes (String.ofList before) = .ok ls ∧
        fault.report = .codec .invalidType (s!"Invalid type `{source}`: unexpected character " ++
          Text.quoted (String.singleton c) ++ s!" at position {before.length}") [])
      (lexemes source) := by
  cases scanned : lexemes source with
  | ok ls =>
    have scans := scansOfSpells (lexemesIff.mp scanned)
    rw [← List.append_nil source.toList] at scans
    have tiles := tilesOfScans scans
    rwa [List.append_nil] at tiles
  | error fault =>
    obtain ⟨before, c, after, ls, same, scans, strange, rfl⟩ := strangeOfLexemes _ scanned
    rw [same] at scans
    obtain ⟨_, parts, spells⟩ := spellsOfScans scans
    obtain rfl := List.append_cancel_right parts
    refine ⟨before, c, after, ls, same, strange, ?_, lexemesIff.mpr ?_, ?_⟩
    · rw [same]
      exact tilesOfScans scans
    · rwa [String.toList_ofList]
    · rw [Nat.zero_add]
      rfl

example : lexemes "a::b::1" = .error (.invalidType (.strangeCharacter "a::b::1" ':' 4)) := by rfl

end WordAbi.TypeExpr
