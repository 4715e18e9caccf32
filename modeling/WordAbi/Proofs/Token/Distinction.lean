import WordAbi.Native.Display
import WordAbi.Proofs.ParamType.Equality
import WordAbi.Proofs.Schema.Inline.Labels
import WordAbi.Proofs.Token.Datum
/-! What native values tell of tokens. Two values of a type whose members have names of their own are the
same token when their native values are equal, the entries of structs taken in any order; so no member and
no variant is lost, in a value of any type that a resolver finds. -/
namespace WordAbi

namespace Native

variable {ε : Type} {embedded : ε → ε → Bool}

theorem nameOfEntry {names : List String} {values : List (Native ε)} {entry : Native ε × Native ε}
    (member : entry ∈ entriesOf names values) : ∃ name ∈ names, entry.1 = .str name := by
  obtain ⟨name, own, same⟩ := List.mem_map.mp (List.of_mem_zip member).1
  exact ⟨name, own, same.symm⟩

theorem sameNamed {names : List String} (distinct : names.Nodup) {values others : List (Native ε)}
    {all : List (Native ε × Native ε)} (aligned : values.length = names.length)
    (counted : others.length = names.length)
    (own : ∀ entry ∈ all, ∀ name ∈ names, entry.1 = .str name → entry ∈ entriesOf names others)
    (alike : same.sameEntries embedded (entriesOf names values) all = true) :
    same.sameItems embedded values others = true := by
  induction names generalizing values others with
  | nil =>
    rw [List.length_eq_zero_iff.mp aligned, List.length_eq_zero_iff.mp counted]
    rfl
  | cons name names ih =>
    match values, others, aligned, counted with
    | value :: values, other :: others, aligned, counted =>
      obtain ⟨new, distinct⟩ := List.nodup_cons.mp distinct
      change (all.any (fun entry => same embedded (.str name) entry.1 && same embedded value entry.2) &&
        same.sameEntries embedded (entriesOf names values) all) = true at alike
      simp only [Bool.and_eq_true, List.any_eq_true] at alike
      obtain ⟨⟨entry, member, named, here⟩, later⟩ := alike
      have there : same embedded value other = true := by
        rcases List.mem_cons.mp (own entry member name List.mem_cons_self (textOfSame named)) with rfl | inside
        · exact here
        · obtain ⟨word, among, same⟩ := nameOfEntry inside
          rw [same, sameText] at named
          exact absurd (named ▸ among) new
      have further : ∀ entry ∈ all, ∀ word ∈ names, entry.1 = .str word → entry ∈ entriesOf names others := by
        intro entry member word among same
        rcases List.mem_cons.mp (own entry member word (List.mem_cons_of_mem _ among) same) with rfl | inside
        · cases same
          exact absurd among new
        · exact inside
      have rest := ih distinct (by simpa using aligned) (by simpa using counted) further later
      simp only [same.sameItems, there, rest, Bool.and_self]

end Native

namespace Token
open Outcome

def Tells (type : ParamType) (token other : Token) : Prop :=
  ∀ {value native : Datum}, toDatum (some type) token = .ok value → toDatum (some type) other = .ok native →
    Datum.same value native = true → token = other

def TellsAll (types : List ParamType) (tokens others : List Token) : Prop :=
  ∀ {values natives : List Datum}, toDataZip (types.map some) tokens = .ok values →
    toDataZip (types.map some) others = .ok natives →
    Native.same.sameItems (fun e _ => e.elim) values natives = true → tokens = others

theorem tellsScalar {p : Primitive} {token other : Token} (value : IsScalarValue p token)
    (another : IsScalarValue p other) : Tells (.primitive p) token other := by
  intro _ _ stands stand same
  cases p with
  | unit => exact value.trans another.symm
  | bool =>
    obtain ⟨b, rfl⟩ := value
    obtain ⟨c, rfl⟩ := another
    cases stands
    cases stand
    cases b <;> cases c <;> first | rfl | cases same
  | b256 =>
    obtain ⟨bs, rfl, _⟩ := value
    obtain ⟨cs, rfl, _⟩ := another
    cases stands
    cases stand
    simp only [Datum.same, Native.same, beq_iff_eq] at same
    rw [same]
  | _ =>
    obtain ⟨n, rfl, _⟩ := value
    obtain ⟨m, rfl, _⟩ := another
    cases stands
    cases stand
    simp only [Datum.same, Native.same, Native.sameNumber, Native.wholeNumber?, beq_iff_eq] at same
    rw [same]

theorem tellsString {length : Int} {token other : Token} (value : IsValue (.string length) token)
    (another : IsValue (.string length) other) : Tells (.string length) token other := by
  intro _ _ stands stand same
  obtain ⟨text, rfl, ascii, count⟩ := value
  obtain ⟨word, rfl, pure, size⟩ := another
  simp only [toDatum, checkedTextOk.mpr ⟨ascii, count, rfl⟩, checkedTextOk.mpr ⟨pure, size, rfl⟩] at stands stand
  cases stands
  cases stand
  simp only [Datum.same, Native.same, beq_iff_eq] at same
  rw [same]

theorem tellsEach {element : ParamType} {items others : List Token}
    (each : ∀ item ∈ items, ∀ other ∈ others, Tells element item other) {values natives : List Datum}
    (stands : toDataEach (some element) items = .ok values)
    (stand : toDataEach (some element) others = .ok natives)
    (same : Native.same.sameItems (fun e _ => e.elim) values natives = true) : items = others := by
  induction items generalizing others values natives with
  | nil =>
    cases stands
    cases others with
    | nil => rfl
    | cons other others =>
      obtain ⟨native, _, stand⟩ := bindOk.mp stand
      obtain ⟨natives, _, last⟩ := bindOk.mp stand
      cases last
      cases same
  | cons item items ih =>
    obtain ⟨value, here, stands⟩ := bindOk.mp stands
    obtain ⟨values, later, last⟩ := bindOk.mp stands
    cases last
    cases others with
    | nil =>
      cases stand
      cases same
    | cons other others =>
      obtain ⟨native, there, stand⟩ := bindOk.mp stand
      obtain ⟨natives, rest, last⟩ := bindOk.mp stand
      cases last
      simp only [Native.same.sameItems, Bool.and_eq_true] at same
      rw [each item List.mem_cons_self other List.mem_cons_self here there same.1,
        ih (fun i one o two => each i (List.mem_cons_of_mem _ one) o (List.mem_cons_of_mem _ two)) later rest
          same.2]

theorem lengthOfAreValues {types : List ParamType} {tokens : List Token} (values : AreValues types tokens) :
    tokens.length = types.length := by
  induction types generalizing tokens with
  | nil =>
    cases values
    rfl
  | cons type types ih =>
    obtain ⟨token, rest, rfl, _, later⟩ := values
    simp [ih later]

theorem lengthOfDataZip {types : List ParamType} {tokens : List Token} {values : List Datum}
    (aligned : tokens.length = types.length) (stand : toDataZip (types.map some) tokens = .ok values) :
    values.length = types.length := by
  induction types generalizing tokens values with
  | nil =>
    obtain rfl := List.length_eq_zero_iff.mp aligned
    cases stand
    rfl
  | cons type types ih =>
    match tokens, aligned with
    | token :: tokens, aligned =>
      obtain ⟨value, _, stand⟩ := bindOk.mp stand
      obtain ⟨values, later, last⟩ := bindOk.mp stand
      cases last
      simp [ih (by simpa using aligned) later]

theorem tellsAllNil : TellsAll [] [] [] := fun _ _ _ => rfl

theorem tellsAllCons {type : ParamType} {types : List ParamType} {token other : Token}
    {tokens others : List Token} (first : Tells type token other) (rest : TellsAll types tokens others) :
    TellsAll (type :: types) (token :: tokens) (other :: others) := by
  intro _ _ stands stand same
  obtain ⟨value, here, stands⟩ := bindOk.mp stands
  obtain ⟨values, later, last⟩ := bindOk.mp stands
  cases last
  obtain ⟨native, there, stand⟩ := bindOk.mp stand
  obtain ⟨natives, after, last⟩ := bindOk.mp stand
  cases last
  simp only [Native.same.sameItems, Bool.and_eq_true] at same
  rw [first here there same.1, rest later after same.2]

theorem tellsRepeated {type element : ParamType} {kind : SequenceKind} {items others : List Token}
    (reads : ∀ items, toDatum (some type) (.sequence kind items) =
      (toDataEach (some element) items).map .list)
    (each : ∀ item ∈ items, ∀ other ∈ others, Tells element item other) :
    Tells type (.sequence kind items) (.sequence kind others) := by
  intro _ _ stands stand same
  rw [reads] at stands stand
  obtain ⟨values, parts, rfl⟩ := mapOk.mp stands
  obtain ⟨natives, pieces, rfl⟩ := mapOk.mp stand
  rw [tellsEach each parts pieces same]

theorem tellsTuple {elements : List ParamType} {items others : List Token}
    (all : TellsAll elements items others) :
    Tells (.tuple elements) (.sequence .tuple items) (.sequence .tuple others) := by
  intro _ _ stands stand same
  obtain ⟨values, parts, rfl⟩ := mapOk.mp stands
  obtain ⟨natives, pieces, rfl⟩ := mapOk.mp stand
  rw [all parts pieces same]

theorem sameOfNamed {names : List String} (distinct : names.Nodup) {values natives : List Datum}
    (aligned : names.isEmpty = true ∨ values.length = names.length ∧ natives.length = names.length)
    (same : Datum.same (named names values) (named names natives) = true) :
    Native.same.sameItems (fun e _ => e.elim) values natives = true := by
  unfold named at same
  split at same
  · exact same
  · rename_i given
    obtain ⟨aligned, counted⟩ := aligned.resolve_left given
    rw [← Native.entriesOf, ← Native.entriesOf, Native.ofEntriesNamed distinct,
      Native.ofEntriesNamed distinct] at same
    simp only [Datum.same, Native.same, Bool.and_eq_true] at same
    exact Native.sameNamed distinct aligned counted (fun _ member _ _ _ => member) same.2

theorem tellsStruct {fields generics : List ParamType} {name : String} {names : List String}
    {items others : List Token} (labelled : names.isEmpty = true ∨ names.length = fields.length)
    (distinct : names.Nodup) (count : items.length = fields.length) (counted : others.length = fields.length)
    (all : TellsAll fields items others) :
    Tells (.struct fields generics name names) (.sequence .struct items) (.sequence .struct others) := by
  intro _ _ stands stand same
  obtain ⟨values, parts, rfl⟩ := mapOk.mp stands
  obtain ⟨natives, pieces, rfl⟩ := mapOk.mp stand
  have aligned : names.isEmpty = true ∨ values.length = names.length ∧ natives.length = names.length := by
    refine labelled.imp_right fun whole => ?_
    rw [whole]
    exact ⟨lengthOfDataZip count parts, lengthOfDataZip counted pieces⟩
  rw [all parts pieces (sameOfNamed distinct aligned same)]

theorem tellsEnum {variants generics : List ParamType} {name : String} {names : List String}
    {index place : Nat} {inner another : ParamType} {payload content : Token} (distinct : names.Nodup)
    (there : variants[index]? = some inner) (elsewhere : variants[place]? = some another)
    (chosen : index = place → Tells inner payload content) :
    Tells (.enum variants generics name names) (.enum index payload ⟨variants, names⟩)
      (.enum place content ⟨variants, names⟩) := by
  intro _ _ stands stand same
  rw [toDatumEnum names payload there] at stands
  rw [toDatumEnum names content elsewhere] at stand
  obtain ⟨datum, here, rfl⟩ := mapOk.mp stands
  obtain ⟨native, beside, rfl⟩ := mapOk.mp stand
  unfold variantDatum at same
  have alike : index = place ∧ Datum.same datum native = true := by
    cases label : names[index]? with
    | some word =>
      cases tag : names[place]? with
      | none =>
        rw [label, tag] at same
        cases same
      | some mark =>
        rw [label, tag] at same
        simp only [Datum.same, Native.same, Native.same.sameEntries, Bool.and_eq_true, List.any_cons,
          List.any_nil, Bool.or_false, beq_iff_eq, and_true, List.length_cons, true_and] at same
        obtain ⟨rfl, same⟩ := same
        have inside := (List.getElem?_eq_some_iff.mp label).1
        exact ⟨(List.getElem?_inj inside distinct).mp (label.trans tag.symm), same⟩
    | none =>
      cases tag : names[place]? with
      | some mark =>
        rw [label, tag] at same
        cases same
      | none =>
        rw [label, tag] at same
        simp only [Datum.same, Native.same, Native.same.sameItems, Native.sameNumber, Native.wholeNumber?,
          Bool.and_eq_true, beq_iff_eq, Bool.and_true, Int.natCast_inj] at same
        exact same
  obtain ⟨rfl, alike⟩ := alike
  rw [there] at elsewhere
  cases elsewhere
  rw [chosen rfl here beside alike]

mutual

theorem tellsOfValues : (type : ParamType) → type.isLabelled = true → type.isDistinct = true →
    ∀ {token other : Token}, IsValue type token → IsValue type other → Tells type token other
  | .primitive _, _, _, _, _, value, another => tellsScalar value another
  | .string _, _, _, _, _, value, another => tellsString value another
  | .array element _, labelled, distinct, _, _, value, another => by
    obtain ⟨items, rfl, _, _, values⟩ := value
    obtain ⟨others, rfl, _, _, natives⟩ := another
    exact tellsRepeated (fun _ => rfl) fun item member other among =>
      tellsOfValues element labelled distinct (values item member) (natives other among)
  | .vector element, labelled, distinct, _, _, value, another => by
    obtain ⟨items, rfl, _, values⟩ := value
    obtain ⟨others, rfl, _, natives⟩ := another
    exact tellsRepeated (fun _ => rfl) fun item member other among =>
      tellsOfValues element labelled distinct (values item member) (natives other among)
  | .tuple elements, labelled, distinct, _, _, value, another => by
    obtain ⟨items, rfl, values⟩ := value
    obtain ⟨others, rfl, natives⟩ := another
    exact tellsTuple (tellsAllOfValues elements labelled distinct values natives)
  | .struct fields _ _ names, labelled, distinct, _, _, value, another => by
    obtain ⟨items, rfl, values⟩ := value
    obtain ⟨others, rfl, natives⟩ := another
    simp only [ParamType.isLabelled, Bool.and_eq_true, Bool.or_eq_true, beq_iff_eq] at labelled
    simp only [ParamType.isDistinct, Bool.and_eq_true, decide_eq_true_eq] at distinct
    exact tellsStruct labelled.1 distinct.1 (lengthOfAreValues values) (lengthOfAreValues natives)
      (tellsAllOfValues fields labelled.2 distinct.2 values natives)
  | .enum variants _ _ names, labelled, distinct, _, _, value, another => by
    obtain ⟨index, payload, rfl, _, _, value⟩ := value
    obtain ⟨place, content, rfl, _, _, another⟩ := another
    simp only [ParamType.isLabelled, Bool.and_eq_true] at labelled
    simp only [ParamType.isDistinct, Bool.and_eq_true, decide_eq_true_eq] at distinct
    obtain ⟨inner, there, _⟩ := restoresVariant variants labelled.2 distinct.2 value
    obtain ⟨_, elsewhere, _⟩ := restoresVariant variants labelled.2 distinct.2 another
    refine tellsEnum distinct.1 there elsewhere fun same => ?_
    rw [← same] at another
    exact tellsVariant variants labelled.2 distinct.2 there value another
  | .unspecified, _, _, _, _, value, _ => value.elim

theorem tellsAllOfValues : (types : List ParamType) → ParamType.allLabelled types = true →
    ParamType.allDistinct types = true → ∀ {tokens others : List Token}, AreValues types tokens →
    AreValues types others → TellsAll types tokens others
  | [], _, _, _, _, values, natives => by
    obtain rfl := values
    obtain rfl := natives
    exact tellsAllNil
  | type :: types, labelled, distinct, _, _, values, natives => by
    obtain ⟨token, tokens, rfl, value, values⟩ := values
    obtain ⟨other, others, rfl, another, natives⟩ := natives
    simp only [ParamType.allLabelled, Bool.and_eq_true] at labelled
    simp only [ParamType.allDistinct, Bool.and_eq_true] at distinct
    exact tellsAllCons (tellsOfValues type labelled.1 distinct.1 value another)
      (tellsAllOfValues types labelled.2 distinct.2 values natives)

theorem tellsVariant : (types : List ParamType) → ParamType.allLabelled types = true →
    ParamType.allDistinct types = true → ∀ {index : Nat} {inner : ParamType} {token other : Token},
    types[index]? = some inner → IsVariantValue types index token → IsVariantValue types index other →
    Tells inner token other
  | [], _, _, _, _, _, _, _, value, _ => value.elim
  | type :: _, labelled, distinct, 0, _, _, _, there, value, another => by
    cases there
    simp only [ParamType.allLabelled, Bool.and_eq_true] at labelled
    simp only [ParamType.allDistinct, Bool.and_eq_true] at distinct
    exact tellsOfValues type labelled.1 distinct.1 value another
  | _ :: types, labelled, distinct, index + 1, _, _, _, there, value, another => by
    simp only [ParamType.allLabelled, Bool.and_eq_true] at labelled
    simp only [ParamType.allDistinct, Bool.and_eq_true] at distinct
    exact tellsVariant types labelled.2 distinct.2 (by simpa using there) value another

end

end Token

open Token

section

variable [Host]

/-- Types that a resolver finds after any other work: of an inline node under types that say what values they
have, or of an application of declared types. -/
inductive Resolved : ParamType → Prop
  | inline {limit history p bindings type} : (∀ step ∈ history, Property.Supplied step.2) →
      Property.Supplied bindings →
      (Property.resolve limit p bindings (Property.memoryAfter limit history)).1 = .ok type → Resolved type
  | declared {declarations limit history a type} :
      (Declarations.resolve (Declarations.ofList declarations) limit a
        (Declarations.memoryAfter (Declarations.ofList declarations) limit history)).1 = .ok type →
      Resolved type

theorem wholeOfResolved {type : ParamType} (resolved : Resolved type) : type.Whole := by
  cases resolved with
  | inline known supplied resolved => exact Property.wholeOfResolve known supplied resolved
  | declared resolved => exact Declarations.wholeOfResolve (Declarations.indexedOfList _) resolved

/-- Different values of a resolved type whose structs and enums have different names for their members stand
for native values that are not equal. -/
theorem dataApart {type : ParamType} (resolved : Resolved type) (distinct : type.isDistinct = true)
    {token other : Token} (value : IsValue type token) (another : IsValue type other)
    (different : token ≠ other) :
    ∃ datum native, toDatum (some type) token = .ok datum ∧ toDatum (some type) other = .ok native ∧
      Datum.same datum native = false := by
  have labelled := (wholeOfResolved resolved).labelled
  obtain ⟨datum, restores⟩ := restoresOfValue type labelled distinct value
  obtain ⟨native, restored⟩ := restoresOfValue type labelled distinct another
  refine ⟨datum, native, restores.stands, restored.stands, ?_⟩
  rw [Bool.eq_false_iff]
  exact fun same =>
    different (tellsOfValues type labelled distinct value another restores.stands restored.stands same)

end

theorem wordValue {n : Nat} (small : n < Bytes.capacity 8) : IsValue (.primitive .u64) (.number .u64 n) := by
  refine ⟨n, rfl, by omega, ?_⟩
  exact Int.ofNat_lt.mpr small

theorem dataApartChoices :
    let declarations : List TypeDeclaration :=
      [⟨0, .str "u64", none, []⟩,
        ⟨1, .str "enum Choice", some [.mk "left" 0 [], .mk "right" 0 []], []⟩,
        ⟨2, .str "struct Entry", some [.mk "key" 0 [], .mk "choice" 1 []], []⟩,
        ⟨3, .str "[_; 1]", some [.mk "__array_element" 2 []], []⟩]
    let choice : ParamType := .enum [.primitive .u64, .primitive .u64] [] "Choice" ["left", "right"]
    let type : ParamType :=
      .array (.struct [.primitive .u64, choice] [] "Entry" ["key", "choice"]) 1
    let entry (index : Nat) : Token := .sequence .array [.sequence .struct
      [.number .u64 1, .enum index (.number .u64 7) ⟨[.primitive .u64, .primitive .u64], ["left", "right"]⟩]]
    (Declarations.resolve (Declarations.ofList declarations) 4 (.mk "" 3 [])
        (Declarations.memoryAfter (Declarations.ofList declarations) 4 [])).1 = .ok type ∧
      type.isDistinct = true ∧ IsValue type (entry 0) ∧ IsValue type (entry 1) ∧
      entry 0 ≠ entry 1 ∧
      ∃ datum native, toDatum (some type) (entry 0) = .ok datum ∧ toDatum (some type) (entry 1) = .ok native ∧
        Datum.same datum native = false := by
  intro declarations choice type entry
  have found : (Declarations.resolve (Declarations.ofList declarations) 4 (.mk "" 3 [])
      (Declarations.memoryAfter (Declarations.ofList declarations) 4 [])).1 = .ok type := by decide +kernel
  have distinct : type.isDistinct = true := rfl
  have value (index : Nat) (inside : index < 2) : IsValue type (entry index) := by
    refine ⟨_, rfl, rfl, rfl, List.forall_mem_singleton.mpr ?_⟩
    refine ⟨_, rfl, _, _, rfl, wordValue (by decide), _, _, rfl, ⟨index, _, rfl, ?_, rfl, ?_⟩, rfl⟩
    · simp only [Word.max]
      omega
    · match index, inside with
      | 0, _ => exact wordValue (by decide)
      | 1, _ => exact wordValue (by decide)
  have different : entry 0 ≠ entry 1 := by
    intro same
    simp [entry] at same
  exact ⟨found, distinct, value 0 (by decide), value 1 (by decide), different,
    dataApart (.declared found) distinct (value 0 (by decide)) (value 1 (by decide)) different⟩

theorem namesakesLost :
    let word : Property := .mk "" (.str "u64") none none none
    let pair : ParamType := .struct [.primitive .u64, .primitive .u64] [] "Pair" ["", ""]
    let both (first : Nat) : Token := .sequence .struct [.number .u64 first, .number .u64 2]
    let declarations : List TypeDeclaration :=
      [⟨0, .str "u64", none, []⟩, ⟨1, .str "enum Choice", some [.mk "same" 0 [], .mk "same" 0 []], []⟩]
    let choice : ParamType := .enum [.primitive .u64, .primitive .u64] [] "Choice" ["same", "same"]
    let one (index : Nat) : Token :=
      .enum index (.number .u64 7) ⟨[.primitive .u64, .primitive .u64], ["same", "same"]⟩
    (Property.resolve 4 (.mk "" (.str "struct Pair") (some [word, word]) none none) [] Memory.empty).1 =
        .ok pair ∧
      IsValue pair (both 1) ∧ IsValue pair (both 3) ∧ both 1 ≠ both 3 ∧
      toDatum (some pair) (both 1) = .ok (.dict [(.str "", .int 2)]) ∧
      toDatum (some pair) (both 3) = .ok (.dict [(.str "", .int 2)]) ∧
      (Declarations.resolve (Declarations.ofList declarations) 4 (.mk "" 1 []) Memory.empty).1 =
        .ok choice ∧
      IsValue choice (one 0) ∧ IsValue choice (one 1) ∧ one 0 ≠ one 1 ∧
      toDatum (some choice) (one 0) = .ok (.dict [(.str "same", .int 7)]) ∧
      toDatum (some choice) (one 1) = .ok (.dict [(.str "same", .int 7)]) := by
  intro word pair both declarations choice one
  have value (n : Nat) (small : n < Bytes.capacity 8) : IsValue pair (both n) :=
    ⟨_, rfl, _, _, rfl, wordValue small, _, _, rfl, wordValue (by decide), rfl⟩
  have first : IsValue choice (one 0) := ⟨0, _, rfl, by decide, rfl, wordValue (by decide)⟩
  have second : IsValue choice (one 1) := ⟨1, _, rfl, by decide, rfl, wordValue (by decide)⟩
  have apart : both 1 ≠ both 3 := by
    intro same
    simp [both, number] at same
  have other : one 0 ≠ one 1 := by
    intro same
    simp [one] at same
  exact ⟨by decide +kernel, value 1 (by decide), value 3 (by decide), apart, rfl, rfl, by decide +kernel,
    first, second, other, rfl, rfl⟩

end WordAbi
