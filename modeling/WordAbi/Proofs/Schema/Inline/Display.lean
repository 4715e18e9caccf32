import WordAbi.Proofs.Decoder.Soundness
import WordAbi.Proofs.ParamType.Equality
import WordAbi.Proofs.Schema.Inline.Recall
import WordAbi.Proofs.TypeExpr.Printing
/-! Types written as they are displayed. Main statement: a node with nothing but the text of a type of
primitives, strings and arrays has that very type, if no length in it is negative. -/
namespace WordAbi
open TypeExpr (Denoted IsPath Parted Piece Spaced keywordPieces)

attribute [local instance] Host.unlimited

namespace ParamType

def isElementary : ParamType → Bool
  | primitive _ => true
  | string _ => true
  | array element _ => isElementary element
  | _ => false

inductive Displayed : ParamType → TypeExpr → Prop
  | primitive (p : Primitive) : Displayed (.primitive p) (.keyword p.keyword)
  | string (n : Nat) : Displayed (.string n) (.str n)
  | array {element expr} (n : Nat) : Displayed element expr → Displayed (.array element n) (.array expr n)

theorem displayedOfCounted : (type : ParamType) → type.isElementary = true → type.isCounted = true →
    ∃ expr, type.Displayed expr
  | .primitive p, _, _ => ⟨_, .primitive p⟩
  | .string length, _, counted => by
    simp only [isCounted, decide_eq_true_eq] at counted
    obtain ⟨n, rfl⟩ := Int.eq_ofNat_of_zero_le counted
    exact ⟨_, .string n⟩
  | .array element length, elementary, counted => by
    simp only [isCounted, Bool.and_eq_true, decide_eq_true_eq] at counted
    obtain ⟨n, rfl⟩ := Int.eq_ofNat_of_zero_le counted.1
    obtain ⟨expr, displayed⟩ := displayedOfCounted element elementary counted.2
    exact ⟨_, .array n displayed⟩

variable {type twin : ParamType} {expr : TypeExpr}

theorem displayedOnly (displayed : type.Displayed expr) (same : twin.shape = type.shape) : twin = type := by
  induction displayed generalizing twin with
  | primitive | string =>
    cases twin <;> cases same
    rfl
  | array n _ ih =>
    cases twin with
    | array other length =>
      rw [shape, shape, array.injEq] at same
      rw [ih same.1, same.2]
    | _ => cases same

theorem denotedOfDisplayed (displayed : type.Displayed expr) : expr.Denoted := by
  induction displayed with
  | primitive p =>
    cases p with
    | unit => exact .inl rfl
    | _ => exact .inr (.inr ⟨TypeExpr.pathOfIdentText (by decide), by decide⟩)
  | string => exact trivial
  | array n _ ih => exact ih

theorem intCharsNat (n : Nat) : Decimal.intChars n = Decimal.natChars n := by
  rw [Decimal.intChars, if_neg (by omega)]
  rfl

theorem spacedOfPrimitive (p : Primitive) {pieces : List Piece} {rest : List Char}
    (parted : Parted pieces rest) (spaced : Spaced pieces rest) :
    Spaced (keywordPieces p.keyword ++ pieces) (p.keyword.toList ++ rest) := by
  cases p with
  | unit => exact .mark (.mark spaced)
  | _ => exact .word parted spaced

theorem spacedOfDisplayed (displayed : type.Displayed expr) {pieces : List Piece} {rest : List Char}
    (parted : Parted pieces rest) (spaced : Spaced pieces rest) :
    Spaced (expr.pieces ++ pieces) (type.nameChars ++ rest) := by
  induction displayed generalizing pieces rest with
  | primitive p => exact spacedOfPrimitive p parted spaced
  | string n =>
    have bracketed : Spaced (.mark '[' :: .number n :: .mark ']' :: pieces)
        ('[' :: (Decimal.natChars n ++ ']' :: rest)) := .mark (TypeExpr.spacedNumber n .mark (.mark spaced))
    have whole := @Spaced.word "str" _ _ .mark bracketed
    rw [nameChars, intCharsNat]
    simpa [TypeExpr.pieces] using whole
  | @array element expr n _ ih =>
    have after : Spaced (.mark ';' :: .number n :: .mark ']' :: pieces)
        (';' :: ' ' :: (Decimal.natChars n ++ ']' :: rest)) :=
      .mark (.blank (by decide) (TypeExpr.spacedNumber n .mark (.mark spaced)))
    have whole := @Spaced.mark '[' _ _ (ih .mark after)
    rw [nameChars, intCharsNat]
    simpa [TypeExpr.pieces] using whole

theorem ofTextDisplayed (displayed : type.Displayed expr) : TypeExpr.ofText type.typeName = .ok expr := by
  refine TypeExpr.ofTextPieces.mpr ⟨denotedOfDisplayed displayed, ?_⟩
  have spaced := spacedOfDisplayed displayed .ends .done
  rwa [List.append_nil, List.append_nil, ← @String.toList_ofList type.nameChars] at spaced

theorem minusOfUncounted : (type : ParamType) → type.isElementary = true → type.isCounted = false →
    '-' ∈ type.nameChars
  | .primitive _, _, uncounted => by cases uncounted
  | .string length, _, uncounted => by
    simp only [isCounted, decide_eq_false_iff_not] at uncounted
    simp [nameChars, Decimal.intChars, if_pos (Int.not_le.mp uncounted)]
  | .array element length, elementary, uncounted => by
    simp only [isCounted, Bool.and_eq_false_iff, decide_eq_false_iff_not] at uncounted
    rcases uncounted with negative | uncounted
    · simp [nameChars, Decimal.intChars, if_pos (Int.not_le.mp negative)]
    · have inside := minusOfUncounted element elementary uncounted
      simp [nameChars, inside]

end ParamType

namespace TypeExpr

theorem minusUnspelled {position : Nat} {cs : List Char} {ls : List Lexeme} (spells : Spells position cs ls) :
    '-' ∉ cs := by
  induction spells with
  | done => exact List.not_mem_nil
  | @blank _ c _ _ blank _ ih =>
    refine List.not_mem_cons_of_ne_of_not_mem ?_ ih
    rintro rfl
    exact absurd blank (by decide)
  | @lexeme _ kind word _ _ lexeme _ _ ih =>
    rw [List.mem_append]
    refine not_or_intro (fun member => ?_) ih
    cases kind with
    | number => exact absurd (lexeme.2 _ member) (by decide)
    | path =>
      rcases charsOfPath lexeme _ member with inside | colon
      · exact absurd inside (by decide)
      · exact absurd colon (by decide)
    | mark =>
      obtain ⟨c, rfl, mark⟩ := lexeme
      rw [← List.mem_singleton.mp member] at mark
      exact absurd mark (by decide)

theorem invalidOfMinus {source : String} (minus : '-' ∈ source.toList) :
    ∃ cause, ofText source = .error (.invalidType cause) := by
  cases read : ofText source with
  | ok expr =>
    obtain ⟨_, spells, _⟩ := ofTextIff.mp read
    exact absurd minus (minusUnspelled spells)
  | error fault =>
    obtain ⟨cause, rfl⟩ := unlimitedFaults read
    exact ⟨cause, rfl⟩

end TypeExpr

namespace Site
open Resolving (Runs)

variable {κ ι : Type} {memory : Memory κ} {name : ι → String} {work : ι → Resolving κ ParamType}
  {source : String} {items : Option (List ι)} {arguments : List ParamType}
  {stand : String → Except Fault ParamType} {expr : TypeExpr} {type : ParamType}

theorem keywordDisplayed (source : String) (p : Primitive) :
    ParamType.ofKeyword source p.keyword = .ok (.primitive p) := by
  rw [ParamType.ofKeyword, Primitive.ofKeywordKeyword]

theorem standaloneDisplayed (displayed : type.Displayed expr) (site : Site (Except Fault)) :
    site.standalone expr = .ok type := by
  induction displayed with
  | primitive p =>
    rw [standalone, keywordDisplayed]
    rfl
  | string n => rfl
  | array n _ ih =>
    rw [standalone, ih]
    rfl

theorem settledDisplayed (displayed : type.Displayed expr) (empty : items.getD [] = []) :
    (settled name [] source items arguments stand).build expr = .ok type := by
  cases displayed with
  | primitive p =>
    rw [build, keywordDisplayed]
    rfl
  | string n => rfl
  | array n displayed =>
    have element := standaloneDisplayed displayed (settled name [] source items arguments stand)
    obtain _ | _ | _ := items
    · rw [build, element]
      rfl
    · rw [build, element]
      rfl
    · cases empty

theorem runsDisplayed (displayed : type.Displayed expr) (empty : items.getD [] = []) :
    Runs ((working name work source items arguments stand).build expr) memory type memory := by
  have built := @settledDisplayed _ name source items arguments stand _ _ displayed empty
  cases asked : asks arguments expr with
  | true => exact (runsAsked asked).mpr ((assemblesNone empty).mpr ⟨built, rfl⟩)
  | false => exact (runsUnasked asked []).mpr ⟨built, rfl⟩

end Site

namespace Property
open Resolving (Runs runsGuarded)

variable {limit : Int} {room : Nat} {memory : Memory Key} {type : ParamType} {expr : TypeExpr} {key : Key}

theorem knownDisplayed (displayed : type.Displayed expr) (reads : TypeExpr.ofText key.source = .ok expr)
    (plain : expr.Plain) (empty : key.components.getD [] = []) (told : key.Told)
    (keeps : memory.Keeps meaningAccount.known) {twin : ParamType}
    (found : memory.find? Key.same key = some twin) : twin = type := by
  obtain ⟨other, member, same⟩ := Memory.memOfFind found
  obtain ⟨toldToo, known⟩ := keeps other twin member
  have means := meaningAccount.shared toldToo told known same
  have settles : key.Settles (fun p bindings => p.Means bindings.shapes) expr type :=
    ⟨[], by rw [empty]; exact .nil, Site.settledDisplayed displayed empty⟩
  have own := meaningAccount.settled told reads plain settles
  exact ParamType.displayedOnly displayed (Option.some.inj (means.symm.trans own))

theorem guardedDisplayed (displayed : type.Displayed expr) (reads : TypeExpr.ofText key.source = .ok expr)
    (plain : expr.Plain) (empty : key.components.getD [] = []) (told : key.Told)
    (keeps : memory.Keeps meaningAccount.known) (idle : memory.opened = []) {source : String} :
    ∃ later, Runs (Resolving.guarded Key.same limit source key (workFor limit (room + 1) key expr)) memory type
      later := by
  cases found : memory.find? Key.same key with
  | some twin =>
    rw [knownDisplayed displayed reads plain empty told keeps found] at found
    exact ⟨_, runsGuarded.mpr (.inl ⟨found, rfl⟩)⟩
  | none =>
    have new : memory.opened.any (Key.same · key) = false := by rw [idle, List.any_nil]
    exact ⟨_, runsGuarded.mpr (.inr ⟨found, new, _, _, rfl, Site.runsDisplayed displayed empty, rfl⟩)⟩

section

variable {history : List (Property × Bindings String)} {components arguments : Option (List Property)}
  {parameters : Option (List String)} {name : String} {bindings : Bindings String}

theorem runsOfDisplayed (deep : 1 ≤ limit) (texts : ∀ step ∈ history, step.1.Textual)
    (onces : ∀ step ∈ history, (Table.keys step.2).Nodup) (displayed : type.Displayed expr)
    (empty : components.getD [] = []) (unapplied : arguments.getD [] = []) (unbound : parameters.getD [] = [])
    (once : (Table.keys bindings).Nodup) :
    ∃ later, Runs (resolve limit (mk name (.str type.typeName) components arguments parameters) bindings)
      (memoryAfter limit history) type later := by
  have reads : TypeExpr.ofDatum (.str type.typeName) = .ok expr := ParamType.ofTextDisplayed displayed
  have plain : expr.Plain := by
    intro word
    cases displayed <;> simp
  have textual : OptionTextual components := by
    obtain _ | _ | _ := components
    · exact trivial
    · exact trivial
    · cases empty
  have told : (ownKey type.typeName components parameters [] bindings).Told :=
    @toldOwn (.str type.typeName) _ _ _ textual once []
  have keeps : (memoryAfter limit history).Keeps meaningAccount.known :=
    meaningAccount.keepsAfter fun step member => ⟨texts step member, onces step member⟩
  obtain ⟨room, more⟩ : ∃ room, limit.toNat = room + 1 := ⟨limit.toNat - 1, by omega⟩
  have found := @guardedDisplayed limit room (memoryAfter limit history) type expr
    (ownKey type.typeName components parameters [] bindings) displayed reads plain empty told keeps
    (keptAfter limit texts onces).opened type.typeName
  rw [← more] at found
  obtain ⟨later, found⟩ := found
  refine ⟨later, runsIn.mpr (.inr ⟨expr, [], _, reads, plain, ?_, fun some => absurd unbound some,
    optionHasKeyOfTextual components textual, found⟩)⟩
  rw [unapplied]
  exact Site.runsResolveAllNil.mpr ⟨rfl, rfl⟩

theorem refusesUncounted (elementary : type.isElementary = true) (uncounted : type.isCounted = false) :
    ∃ cause, (resolve limit (mk name (.str type.typeName) components arguments parameters) bindings memory).1 =
      .error (.invalidType cause) := by
  have minus := ParamType.minusOfUncounted type elementary uncounted
  rw [← @String.toList_ofList type.nameChars] at minus
  obtain ⟨cause, invalid⟩ := TypeExpr.invalidOfMinus minus
  have reads : TypeExpr.ofDatum (.str type.typeName) = .error (.invalidType cause) := invalid
  refine ⟨cause, ?_⟩
  rw [resolve, resolveInEq, reads]
  rfl

end

/-- A node with nothing but the text of a type of primitives, strings and arrays has that type, whatever the
resolver was asked for before, if no length in the type is negative; otherwise the text is no type. The host
is one that reads numbers of any length. -/
theorem resolveDisplayed {limit : Int} (deep : 1 ≤ limit) {history : List (Property × Bindings String)}
    (texts : ∀ step ∈ history, step.1.Textual) (onces : ∀ step ∈ history, (Table.keys step.2).Nodup)
    {type : ParamType} (elementary : type.isElementary = true) {components arguments : Option (List Property)}
    {parameters : Option (List String)} (alone : components.getD [] = [] ∧ arguments.getD [] = [] ∧
      parameters.getD [] = []) (name : String) {bindings : Bindings String} (once : (Table.keys bindings).Nodup) :
    let node := mk name (.str type.typeName) components arguments parameters
    let outcome := (resolve limit node bindings (memoryAfter limit history)).1
    (type.isCounted = true → outcome = .ok type) ∧
      (type.isCounted = false → ∃ cause, outcome = .error (.invalidType cause)) := by
  intro node outcome
  obtain ⟨empty, unapplied, unbound⟩ := alone
  refine ⟨fun counted => ?_, refusesUncounted elementary⟩
  obtain ⟨expr, displayed⟩ := ParamType.displayedOfCounted type elementary counted
  obtain ⟨later, runs⟩ := runsOfDisplayed deep texts onces displayed empty unapplied unbound once
  exact congrArg Prod.fst runs

theorem resolveDisplayedNested :
    let type := ParamType.array (.array (.string 0) 3) 0
    let node := fun text => mk "" (.str text) none none none
    let history := [(node "[str[0]; 3", []), (node "[[str[0];3];0]", [])]
    type.typeName = "[[str[0]; 3]; 0]" ∧
      (resolve 1 (node type.typeName) [] (memoryAfter 1 history)).1 = .ok type := by
  intro type node history
  have texts : ∀ step ∈ history, step.1.Textual := by
    simp [history, node, Textual, OptionTextual]
  have onces : ∀ step ∈ history, (Table.keys step.2).Nodup := by
    simp [history, Table.keys]
  have resolved := (@resolveDisplayed 1 (by decide) history texts onces type (by decide) none none none
    ⟨rfl, rfl, rfl⟩ "" [] List.nodup_nil).1 (by decide)
  exact ⟨by decide, resolved⟩

theorem negativeLengthUnread :
    let type := ParamType.string (-1)
    let outcome := (resolve 1 (mk "" (.str type.typeName) none none none) [] (memoryAfter 1 [])).1
    type.isElementary = true ∧ type.typeName = "str[-1]" ∧ outcome ≠ .ok type := by
  decide +kernel

end Property

end WordAbi
