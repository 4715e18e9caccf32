import WordAbi.Proofs.TypeExpr.Printing
/-! Numbers of more digits than the host reads. Main statement: a text that the grammar has is read as on a host
that reads numbers of any length, unless one of its numbers has too many digits; then the host fails at it. -/
namespace WordAbi.TypeExpr
open Outcome

variable [Host] {source : String} {stack : List Frame} {state : State} {l : Lexeme} {expr : TypeExpr}

theorem expectNumberLimited (source : String) (l : Lexeme) (next : Nat → Reading) :
    expectNumber source l next = @expectNumber .unlimited source l next ∨
      expectNumber source l next = .error (.misuse .badValue) ∧ l.Overlong := by
  by_cases number : l.kind = .number
  · by_cases reads : Host.Reads l.chars
    · exact .inl (by simp [expectNumber, number, reads, Host.unlimitedReads])
    · exact .inr ⟨by simp [expectNumber, number, reads], number, reads⟩
  · exact .inl (by simp [expectNumber, number])

theorem advanceLimited (source : String) (stack : List Frame) (state : State) (l : Lexeme) :
    advance source stack state l = @advance .unlimited source stack state l ∨
      advance source stack state l = .error (.misuse .badValue) ∧ l.Overlong := by
  cases state
  case strLength => exact expectNumberLimited source l fun length => (stack, .strClose length)
  case arrayLength element => exact expectNumberLimited source l fun length => (stack, .arrayClose element length)
  all_goals exact .inl rfl

theorem runLimited (source : String) (reading : Reading) (ls : List Lexeme) :
    run source reading ls = @run .unlimited source reading ls ∨
      run source reading ls = .error (.misuse .badValue) ∧ ∃ l ∈ ls, l.Overlong := by
  induction ls generalizing reading with
  | nil => exact .inl rfl
  | cons l rest ih =>
    simp only [run]
    obtain same | ⟨fails, overlong⟩ := advanceLimited source reading.1 reading.2 l
    · rw [same]
      cases @advance .unlimited source reading.1 reading.2 l with
      | error fault => exact .inl rfl
      | ok next =>
        obtain same | ⟨fails, long, member, overlong⟩ := ih next
        · exact .inl same
        · exact .inr ⟨fails, long, List.mem_cons_of_mem l member, overlong⟩
    · rw [fails]
      exact .inr ⟨rfl, l, List.mem_cons_self, overlong⟩

theorem ofTextLimited (source : String) :
    ofText source = @ofText .unlimited source ∨
      ofText source = .error (.misuse .badValue) ∧ Overlong (.str source) := by
  unfold ofText
  split
  · exact .inl rfl
  · cases read : lexemes source with
    | error fault => exact .inl rfl
    | ok ls =>
      obtain same | ⟨fails, long⟩ := runLimited source ([], .type) ls
      · exact .inl same
      · exact .inr ⟨fails, source, ls, rfl, read, long⟩

theorem ofTextUnlimited {source : String} {expr : TypeExpr} (read : ofText source = .ok expr) :
    @ofText .unlimited source = .ok expr := by
  obtain same | ⟨fails, _⟩ := ofTextLimited source
  · exact same.symm.trans read
  · cases fails.symm.trans read

omit [Host] in
theorem numberIsNot (lexeme : IsLexeme .number l.chars) {text : String} {c : Char} {cs : List Char}
    (chars : text.toList = c :: cs) (other : Text.isDecimalDigit c = false) : l.is text = false := by
  rw [Bool.eq_false_iff]
  intro same
  have digit := lexeme.2 c (by rw [isIff.mp same, chars]; exact List.mem_cons_self)
  rw [other] at digit
  cases digit

theorem expectNumberReads {next : Nat → Reading} {reading : Reading} (number : l.kind = .number)
    (step : expectNumber source l next = .ok reading) : Host.Reads l.chars := by
  rw [expectNumber, if_neg (not_not_intro number)] at step
  split at step
  · assumption
  · cases step

theorem advanceReads (number : l.kind = .number) (lexeme : IsLexeme .number l.chars) {next : Reading}
    (step : advance source stack state l = .ok next) : Host.Reads l.chars := by
  have mark {text : String} {c : Char} (chars : text.toList = [c]) (other : Text.isDecimalDigit c = false) :
      l.is text = false := numberIsNot lexeme chars other
  have opens := mark (show "(".toList = ['('] from rfl) (by decide)
  have bracket := mark (show "[".toList = ['['] from rfl) (by decide)
  have closes := mark (show ")".toList = [')'] from rfl) (by decide)
  have ends := mark (show "]".toList = [']'] from rfl) (by decide)
  have comma := mark (show ",".toList = [','] from rfl) (by decide)
  have half := mark (show ";".toList = [';'] from rfl) (by decide)
  have untyped := numberIsNot lexeme (show "untyped".toList = 'u' :: _ from rfl) (by decide)
  have pointer := numberIsNot lexeme (show "ptr".toList = 'p' :: _ from rfl) (by decide)
  have noType {stack : List Frame} : takeType source stack l ≠ .ok next := by
    simp [takeType, opens, bracket, number]
  have notAfter {expr : TypeExpr} : takeAfter source stack expr l ≠ .ok next := by
    unfold takeAfter
    split <;> simp [expectText, closes, comma, half]
  cases state
  case strLength | arrayLength =>
    rw [advance] at step
    exact expectNumberReads number step
  case type => exact absurd step noType
  case firstElement =>
    rw [advance, if_neg (by simp [closes])] at step
    exact absurd step noType
  case afterStr =>
    rw [advance, if_neg (by simp [bracket])] at step
    exact absurd step notAfter
  case complete => exact absurd step notAfter
  case customName | genericName => simp [advance, expectKind, number] at step
  case strClose | arrayClose => simp [advance, expectText, ends] at step
  case untyped => simp [advance, expectText, untyped] at step
  case pointer => simp [advance, expectText, pointer] at step

theorem runReads {reading : Reading} {ls : List Lexeme} (lexemes : ∀ l ∈ ls, IsLexeme l.kind l.chars)
    (ran : run source reading ls = .ok expr) : ∀ l ∈ ls, ¬ l.Overlong := by
  induction ls generalizing reading with
  | nil => exact List.forall_mem_nil _
  | cons l rest ih =>
    obtain ⟨first, later⟩ := List.forall_mem_cons.mp lexemes
    rw [run, bindOk] at ran
    obtain ⟨next, step, ran⟩ := ran
    refine List.forall_mem_cons.mpr ⟨?_, ih later ran⟩
    rintro ⟨number, unread⟩
    rw [number] at first
    exact unread (advanceReads number first step)

theorem notOverlongOfRead (read : ofText source = .ok expr) : ¬ Overlong (.str source) := by
  rintro ⟨_, ls, same, spelled, l, member, overlong⟩
  cases same
  unfold ofText at read
  split at read
  · cases read
  · rw [spelled] at read
    exact runReads (lexemesOfKind (lexemesIff.mp spelled)) read l member overlong

theorem writtenRead (written : Written IsPath source expr) :
    (ofText source = .ok expr ∧ ¬ Overlong (.str source)) ∨
      (ofText source = .error (.misuse .badValue) ∧ Overlong (.str source)) := by
  obtain same | failed := ofTextLimited source
  · rw [ofTextIff.mpr written] at same
    exact .inl ⟨same, notOverlongOfRead same⟩
  · exact .inr failed

theorem overlongStr {digits : List Char} (filled : digits ≠ [])
    (decimal : ∀ c ∈ digits, Text.isDecimalDigit c = true) (long : ¬ Host.Reads digits) {source : String}
    (chars : source.toList = "str".toList ++ '[' :: (digits ++ [']'])) :
    ofText source = .error (.misuse .badValue) := by
  have mark {c : Char} (mark : isMark c = true) : IsLexeme .mark [c] := ⟨c, rfl, mark⟩
  have number : IsLexeme .number digits := ⟨filled, decimal⟩
  have closes : ∀ position, Spells position [']'] [⟨.mark, [']'], position⟩] := fun _ =>
    .lexeme (mark (by decide)) (longestEnd .mark [']']) .done
  have sized : ∀ position, Spells position (digits ++ [']'])
      [⟨.number, digits, position⟩, ⟨.mark, [']'], position + digits.length⟩] := fun _ =>
    .lexeme number (longestNumber (by simpa using markApart (show isMark ']' = true by decide))) (closes _)
  have spells : Spells 0 source.toList [⟨.path, "str".toList, 0⟩, ⟨.mark, ['['], 3⟩, ⟨.number, digits, 4⟩,
      ⟨.mark, [']'], 4 + digits.length⟩] := by
    rw [chars]
    refine .lexeme (pathOfIdentText (by decide)) (longestWord ?_)
      (.lexeme (mark (by decide)) (longestMark '[') (sized 4))
    simpa using markApart (show isMark '[' = true by decide)
  have written : Written IsPath source (.str (Text.digitsValue digits)) :=
    ⟨_, spells, .str rfl (isIff.mpr rfl) (isIff.mpr rfl) rfl (isIff.mpr rfl)⟩
  have overlong : Overlong (.str source) :=
    ⟨source, _, rfl, lexemesIff.mpr spells, ⟨.number, digits, 4⟩, by simp, rfl, long⟩
  obtain ⟨_, short⟩ | ⟨failed, _⟩ := writtenRead written
  · exact absurd overlong short
  · exact failed

end WordAbi.TypeExpr
