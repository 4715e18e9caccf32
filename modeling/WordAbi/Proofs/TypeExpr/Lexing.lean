import WordAbi.Proofs.Outcome
import WordAbi.TypeExpr.Lexeme
/-! The lexemes of a text. They are exactly the ones that spell it from its start to its end with white space
between them, each of its kind and not a part of a longer one of that kind; there is one such sequence or none. -/
namespace WordAbi.TypeExpr
open Outcome

def IsIdent (word : List Char) : Prop :=
  ∃ c rest, word = c :: rest ∧ isIdentStart c = true ∧ ∀ d ∈ rest, isIdentRest d = true

inductive IsPath : List Char → Prop
  | ident {word} : IsIdent word → IsPath word
  | qualified {word path} : IsIdent word → IsPath path → IsPath (word ++ ':' :: ':' :: path)

def IsLexeme : LexemeKind → List Char → Prop
  | .number, word => word ≠ [] ∧ ∀ c ∈ word, Text.isDecimalDigit c = true
  | .path, word => IsPath word
  | .mark, word => ∃ c, word = [c] ∧ isMark c = true

def Longest (kind : LexemeKind) (word rest : List Char) : Prop :=
  ∀ more after, rest = more ++ after → IsLexeme kind (word ++ more) → more = []

/-- The characters from the position on are those of the lexemes, with white space between them. -/
inductive Spells : (position : Nat) → List Char → List Lexeme → Prop
  | done {position} : Spells position [] []
  | blank {position c rest ls} : Text.isBlank c = true → Spells (position + 1) rest ls →
      Spells position (c :: rest) ls
  | lexeme {position kind word rest ls} : IsLexeme kind word → Longest kind word rest →
      Spells (position + word.length) rest ls → Spells position (word ++ rest) (⟨kind, word, position⟩ :: ls)

inductive Continues : List Char → Prop
  | done : Continues []
  | rest {c cs} : isIdentRest c = true → Continues cs → Continues (c :: cs)
  | scope {c cs} : isIdentStart c = true → Continues cs → Continues (':' :: ':' :: c :: cs)

theorem identRestOfStart {c : Char} (start : isIdentStart c = true) : isIdentRest c = true := by
  simp [isIdentRest, start]

theorem continuesAfter {word cs : List Char} (inside : ∀ c ∈ word, isIdentRest c = true)
    (continues : Continues cs) : Continues (word ++ cs) := by
  induction word with
  | nil => exact continues
  | cons c word ih =>
    obtain ⟨first, later⟩ := List.forall_mem_cons.mp inside
    exact .rest first (ih later)

theorem pathOfContinues {cs : List Char} (continues : Continues cs) :
    ∀ word, IsIdent word → IsPath (word ++ cs) := by
  induction continues with
  | done =>
    intro word ident
    rw [List.append_nil]
    exact .ident ident
  | @rest c cs inside _ ih =>
    rintro _ ⟨first, word, rfl, start, all⟩
    have longer : IsIdent (first :: (word ++ [c])) := by
      refine ⟨first, _, rfl, start, fun d member => ?_⟩
      rcases List.mem_append.mp member with before | last
      · exact all d before
      · rw [List.mem_singleton.mp last]
        exact inside
    simpa using ih _ longer
  | @scope c cs start _ ih =>
    intro word ident
    have qualified := ih [c] ⟨c, [], rfl, start, by simp⟩
    exact .qualified ident qualified

theorem continuesOfPath {path : List Char} (isPath : IsPath path) :
    ∃ c cs, path = c :: cs ∧ isIdentStart c = true ∧ Continues cs := by
  induction isPath with
  | ident ident =>
    obtain ⟨c, rest, rfl, start, all⟩ := ident
    have continues := continuesAfter all .done
    rw [List.append_nil] at continues
    exact ⟨c, rest, rfl, start, continues⟩
  | qualified ident _ ih =>
    obtain ⟨c, rest, rfl, start, all⟩ := ident
    obtain ⟨d, ds, rfl, scopeStart, continues⟩ := ih
    exact ⟨c, _, rfl, start, continuesAfter all (.scope scopeStart continues)⟩

theorem isPathIff {c : Char} {cs : List Char} :
    IsPath (c :: cs) ↔ isIdentStart c = true ∧ Continues cs := by
  constructor
  · intro isPath
    obtain ⟨_, _, same, start, continues⟩ := continuesOfPath isPath
    cases same
    exact ⟨start, continues⟩
  · rintro ⟨start, continues⟩
    exact pathOfContinues continues [c] ⟨c, [], rfl, start, by simp⟩

theorem colonNotRest : isIdentRest ':' = false := by decide

theorem continuesTake (cs : List Char) : Continues (cs.take (pathWidth cs)) := by
  fun_induction pathWidth cs with
  | case1 c rest start ih => exact .scope start ih
  | case2 => exact .done
  | case3 c rest _ inside ih => exact .rest inside ih
  | case4 => exact .done
  | case5 => exact .done

theorem pathWidthRest {c : Char} {cs : List Char} (inside : isIdentRest c = true) :
    pathWidth (c :: cs) = pathWidth cs + 1 := by
  have other : c ≠ ':' := by
    rintro rfl
    rw [colonNotRest] at inside
    contradiction
  rw [pathWidth.eq_2 _ _ (by rintro _ _ rfl; contradiction), if_pos inside]

theorem pathWidthMost {taken : List Char} (continues : Continues taken) :
    ∀ after, taken.length ≤ pathWidth (taken ++ after) := by
  induction continues with
  | done => exact fun _ => Nat.zero_le _
  | rest inside _ ih =>
    intro after
    have := ih after
    rw [List.cons_append, pathWidthRest inside, List.length_cons]
    omega
  | scope start _ ih =>
    intro after
    have := ih after
    simp only [List.cons_append, pathWidth, if_pos start, List.length_cons]
    omega

theorem digitsTake (cs : List Char) : ∀ c ∈ cs.take (digitWidth cs), Text.isDecimalDigit c = true := by
  induction cs with
  | nil => simp
  | cons c cs ih =>
    rw [digitWidth]
    split
    · rename_i digit
      exact List.forall_mem_cons.mpr ⟨digit, ih⟩
    · simp

theorem digitWidthMost {taken : List Char} (digits : ∀ c ∈ taken, Text.isDecimalDigit c = true)
    (after : List Char) : taken.length ≤ digitWidth (taken ++ after) := by
  induction taken with
  | nil => exact Nat.zero_le _
  | cons c taken ih =>
    obtain ⟨digit, digits⟩ := List.forall_mem_cons.mp digits
    have := ih digits
    rw [List.cons_append, digitWidth, if_pos digit, List.length_cons]
    omega

theorem digitPlaces {c : Char} (digit : Text.isDecimalDigit c = true) :
    (0x30 ≤ c.toNat ∧ c.toNat < 0x3A) ∨ (0x660 ≤ c.toNat ∧ c.toNat < 0x109A) ∨
      (0x17E0 ≤ c.toNat ∧ c.toNat < 0x1C5A) ∨ 0xA620 ≤ c.toNat := by
  obtain ⟨_, found⟩ := Text.isDecimalDigitIff.mp digit
  obtain ⟨first, found, _⟩ := Option.map_eq_some_iff.mp found
  have within := List.find?_some found
  simp only [Bool.and_eq_true, decide_eq_true_eq] at within
  have zeros : ∀ first ∈ Text.zeroDigits, first = 0x30 ∨ (0x660 ≤ first ∧ first ≤ 0x1090) ∨
      (0x17E0 ≤ first ∧ first ≤ 0x1C50) ∨ 0xA620 ≤ first := by decide
  have := zeros first (List.mem_of_find?_eq_some found)
  omega

theorem startNotDigit {c : Char} (start : isIdentStart c = true) : Text.isDecimalDigit c = false := by
  rw [Bool.eq_false_iff]
  intro digit
  have := digitPlaces digit
  simp only [isIdentStart, Bool.or_eq_true, Bool.and_eq_true, decide_eq_true_eq, beq_iff_eq] at start
  omega

theorem markPlaces {c : Char} (mark : isMark c = true) :
    c.toNat = 91 ∨ c.toNat = 93 ∨ c.toNat = 40 ∨ c.toNat = 41 ∨ c.toNat = 59 ∨ c.toNat = 44 := by
  simp only [isMark, List.contains_eq_mem, List.mem_cons, List.not_mem_nil, or_false,
    decide_eq_true_eq] at mark
  rcases mark with rfl | rfl | rfl | rfl | rfl | rfl <;> decide

theorem markNotOther {c : Char} (mark : isMark c = true) :
    Text.isDecimalDigit c = false ∧ isIdentStart c = false := by
  have place := markPlaces mark
  refine ⟨Bool.eq_false_iff.mpr fun digit => ?_, Bool.eq_false_iff.mpr fun start => ?_⟩
  · have := digitPlaces digit
    omega
  · simp only [isIdentStart, Bool.or_eq_true, Bool.and_eq_true, decide_eq_true_eq, beq_iff_eq] at start
    omega

theorem scanBlank {c : Char} (blank : Text.isBlank c = true) (rest : List Char) : scan c rest = none := by
  simp only [Text.isBlank, Bool.or_eq_true, Bool.and_eq_true, decide_eq_true_eq, beq_iff_eq] at blank
  have digit : ¬ Text.isDecimalDigit c = true := fun digit => by
    have := digitPlaces digit
    omega
  have start : ¬ isIdentStart c = true := fun start => by
    simp only [isIdentStart, Bool.or_eq_true, Bool.and_eq_true, decide_eq_true_eq, beq_iff_eq] at start
    omega
  have mark : ¬ isMark c = true := fun mark => by
    have := markPlaces mark
    omega
  rw [scan, if_neg digit, if_neg start, if_neg mark]

theorem scanLe {c : Char} {rest : List Char} {kind : LexemeKind} {extra : Nat}
    (found : scan c rest = some (kind, extra)) : extra ≤ rest.length := by
  unfold scan at found
  split at found
  · cases found
    exact digitWidthLe rest
  · split at found
    · cases found
      exact pathWidthLe rest
    · split at found
      · cases found
        exact Nat.zero_le _
      · cases found

theorem scanOk {c : Char} {rest : List Char} {kind : LexemeKind} {extra : Nat}
    (found : scan c rest = some (kind, extra)) :
    IsLexeme kind (c :: rest.take extra) ∧ Longest kind (c :: rest.take extra) (rest.drop extra) := by
  have whole : ∀ {more after}, rest.drop extra = more ++ after →
      rest.take extra ++ more ++ after = rest := by
    intro more after same
    rw [List.append_assoc, ← same, List.take_append_drop]
  have length {more after : List Char} (same : rest.drop extra = more ++ after)
      (most : (rest.take extra ++ more).length ≤ extra) : more = [] := by
    have := congrArg List.length same
    simp only [List.length_append, List.length_take, List.length_drop] at this most
    exact List.eq_nil_of_length_eq_zero (by omega)
  unfold scan at found
  split at found
  · rename_i digit
    cases found
    refine ⟨⟨by simp, List.forall_mem_cons.mpr ⟨digit, digitsTake rest⟩⟩, fun more after same longer => ?_⟩
    have most := digitWidthMost (List.forall_mem_cons.mp longer.2).2 after
    rw [List.append_eq, whole same] at most
    exact length same most
  · split at found
    · rename_i start
      cases found
      refine ⟨isPathIff.mpr ⟨start, continuesTake rest⟩, fun more after same longer => ?_⟩
      have most := pathWidthMost (isPathIff.mp longer).2 after
      rw [List.append_eq, whole same] at most
      exact length same most
    · split at found
      · rename_i mark
        cases found
        refine ⟨⟨c, by simp, mark⟩, fun more after _ longer => ?_⟩
        obtain ⟨_, same, _⟩ := longer
        simpa using (List.cons.inj same).2
      · cases found

theorem widthOfLongest {kind : LexemeKind} {c : Char} {cs rest : List Char} {width : Nat}
    (reaches : cs.length ≤ width) (inside : width ≤ (cs ++ rest).length)
    (lexeme : IsLexeme kind (c :: (cs ++ rest).take width)) (longest : Longest kind (c :: cs) rest) :
    width = cs.length := by
  rw [List.take_append, List.take_of_length_le reaches] at lexeme
  have none := longest _ _ (List.take_append_drop _ rest).symm lexeme
  have := congrArg List.length none
  simp only [List.length_take, List.length_nil, List.length_append] at this inside
  omega

theorem scanOfLexeme {kind : LexemeKind} {word rest : List Char} (lexeme : IsLexeme kind word)
    (longest : Longest kind word rest) :
    ∃ c cs, word = c :: cs ∧ scan c (cs ++ rest) = some (kind, cs.length) := by
  cases kind with
  | number =>
    obtain ⟨filled, digits⟩ := lexeme
    obtain ⟨c, cs, rfl⟩ := List.exists_cons_of_ne_nil filled
    obtain ⟨digit, digits⟩ := List.forall_mem_cons.mp digits
    have longer : IsLexeme .number (c :: (cs ++ rest).take (digitWidth (cs ++ rest))) :=
      ⟨by simp, List.forall_mem_cons.mpr ⟨digit, digitsTake _⟩⟩
    have width := widthOfLongest (digitWidthMost digits rest) (digitWidthLe _) longer longest
    exact ⟨c, cs, rfl, by rw [scan, if_pos digit, width]⟩
  | path =>
    obtain ⟨c, cs, rfl, start, continues⟩ := continuesOfPath lexeme
    have longer : IsLexeme .path (c :: (cs ++ rest).take (pathWidth (cs ++ rest))) :=
      isPathIff.mpr ⟨start, continuesTake _⟩
    have width := widthOfLongest (pathWidthMost continues rest) (pathWidthLe _) longer longest
    refine ⟨c, cs, rfl, ?_⟩
    rw [scan, if_neg (by simp [startNotDigit start]), if_pos start, width]
  | mark =>
    obtain ⟨c, rfl, mark⟩ := lexeme
    obtain ⟨digit, start⟩ := markNotOther mark
    refine ⟨c, [], rfl, ?_⟩
    rw [scan, if_neg (by simp [digit]), if_neg (by simp [start]), if_pos mark]
    rfl

theorem lexemesSkip (source : String) (skip position : Nat) (cs : List Char) :
    lexemesFrom source skip position cs = lexemesFrom source 0 (position + skip) (cs.drop skip) := by
  induction skip generalizing position cs with
  | zero => rfl
  | succ skip ih =>
    cases cs with
    | nil => simp [lexemesFrom]
    | cons c cs =>
      rw [lexemesFrom, ih, List.drop_succ_cons]
      congr 1
      omega

theorem spellsOfLexemes {source : String} : (cs : List Char) → ∀ {position : Nat} {ls : List Lexeme},
    lexemesFrom source 0 position cs = .ok ls → Spells position cs ls
  | [], _, _, read => by
    cases read
    exact .done
  | c :: rest, position, _, read => by
    unfold lexemesFrom at read
    split at read
    · rename_i kind extra found
      obtain ⟨more, later, last⟩ := bindOk.mp read
      cases last
      obtain ⟨lexeme, longest⟩ := scanOk found
      rw [lexemesSkip] at later
      have spells := spellsOfLexemes (rest.drop extra) later
      have width : position + (c :: rest.take extra).length = position + 1 + extra := by
        rw [List.length_cons, List.length_take, Nat.min_eq_left (scanLe found)]
        omega
      have whole := Spells.lexeme lexeme longest (width ▸ spells)
      rwa [List.cons_append, List.take_append_drop] at whole
    · split at read
      · rename_i blank
        exact .blank blank (spellsOfLexemes rest read)
      · cases read
termination_by cs => cs.length

theorem lexemesOfSpells {source : String} {position : Nat} {cs : List Char} {ls : List Lexeme}
    (spells : Spells position cs ls) : lexemesFrom source 0 position cs = .ok ls := by
  induction spells with
  | done => rfl
  | blank blank _ ih => rw [lexemesFrom, scanBlank blank, if_pos blank, ih]
  | @lexeme position kind word rest ls lexeme longest _ ih =>
    obtain ⟨c, cs, rfl, found⟩ := scanOfLexeme lexeme longest
    rw [List.cons_append, lexemesFrom, found]
    refine bindOk.mpr ⟨ls, ?_, by simp⟩
    rw [lexemesSkip, List.drop_left, ← ih, List.length_cons]
    congr 1
    omega

theorem lexemesIff {source : String} {ls : List Lexeme} :
    lexemes source = .ok ls ↔ Spells 0 source.toList ls :=
  ⟨spellsOfLexemes source.toList, lexemesOfSpells⟩

theorem spellsUnique {position : Nat} {cs : List Char} {ls others : List Lexeme} (one : Spells position cs ls)
    (other : Spells position cs others) : ls = others :=
  Except.ok.inj ((@lexemesOfSpells "" _ _ _ one).symm.trans (lexemesOfSpells other))

theorem longestEnd (kind : LexemeKind) (word : List Char) : Longest kind word [] :=
  fun _ _ same _ => (List.append_eq_nil_iff.mp same.symm).1

theorem kindUnique {kind other : LexemeKind} {word : List Char} (one : IsLexeme kind word)
    (two : IsLexeme other word) : kind = other := by
  obtain ⟨c, cs, begins, found⟩ := scanOfLexeme one (longestEnd kind word)
  obtain ⟨_, _, same, again⟩ := scanOfLexeme two (longestEnd other word)
  cases begins
  cases same
  rw [found] at again
  cases again
  rfl

theorem lexemesOfKind {position : Nat} {cs : List Char} {ls : List Lexeme} (spells : Spells position cs ls) :
    ∀ l ∈ ls, IsLexeme l.kind l.chars := by
  induction spells with
  | done => simp
  | blank _ _ ih => exact ih
  | lexeme lexeme _ _ ih => exact List.forall_mem_cons.mpr ⟨lexeme, ih⟩

end WordAbi.TypeExpr
