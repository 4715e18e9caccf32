import WordAbi.Proofs.Schema.Flat.Recall
import WordAbi.Proofs.Token.Written
/-! Types of declared types say what values they have: no part of them is unspecified, and a struct or an
enum has a name for each of its members. -/
namespace WordAbi

open List (Forall₂)

namespace ParamType

structure Whole (type : ParamType) : Prop where
  specified : type.isSpecified = true
  labelled : type.isLabelled = true

theorem wholeOfEach {types : List ParamType} (each : ∀ type ∈ types, type.Whole) :
    allSpecified types = true ∧ allLabelled types = true := by
  induction types with
  | nil => exact ⟨rfl, rfl⟩
  | cons type types ih =>
    obtain ⟨here, later⟩ := List.forall_mem_cons.mp each
    simp [allSpecified, allLabelled, here.specified, here.labelled, ih later]

theorem wholeCustom {kind : CustomKind} {types generics : List ParamType} {name : String} {names : List String}
    (each : ∀ type ∈ types, type.Whole) (labels : names.length = types.length) :
    (kind.type types generics name names).Whole := by
  obtain ⟨specified, labelled⟩ := wholeOfEach each
  cases kind
  · exact ⟨specified, by simp [CustomKind.type, isLabelled, labels, labelled]⟩
  · exact ⟨specified, by simp [CustomKind.type, isLabelled, labels, labelled]⟩

theorem wholeOfKeyword {source word : String} {type : ParamType} (found : ofKeyword source word = .ok type) :
    type.Whole := by
  unfold ofKeyword at found
  split at found
  · cases found
    exact ⟨rfl, rfl⟩
  · split at found <;> cases found

end ParamType

namespace Site
open ParamType (Whole wholeOfEach wholeCustom wholeOfKeyword)

section

variable {ι : Type} {name : ι → String} {source : String} {items : Option (List ι)}
  {arguments types : List ParamType} {stand : String → Except Fault ParamType} {type : ParamType}

theorem wholeOfStandalone {site : Site (Except Fault)}
    (stands : ∀ word found, site.substitute word = .ok found → found.Whole) : (expr : TypeExpr) →
    ∀ {type}, site.standalone expr = .ok type → type.Whole
  | .keyword word, _, built => wholeOfKeyword ((liftExcept _).symm.trans built)
  | .str _, _, built => by
    cases built
    exact ⟨rfl, rfl⟩
  | .array element _, _, built => by
    obtain ⟨inner, first, last⟩ := Outcome.bindOk.mp built
    cases last
    have whole := wholeOfStandalone stands element first
    exact ⟨whole.specified, whole.labelled⟩
  | .generic word, _, built => stands word _ built
  | .tuple _, _, built => nomatch built
  | .custom _ _, _, built => nomatch built

theorem wholeOfWritten {site : Site (Except Fault)}
    (stands : ∀ word found, site.substitute word = .ok found → found.Whole) {element : TypeExpr} {length : Nat}
    (built : (site.standalone element >>= fun type => pure (.array type length)) = .ok type) : type.Whole := by
  obtain ⟨inner, first, last⟩ := Outcome.bindOk.mp built
  cases last
  have whole := wholeOfStandalone stands element first
  exact ⟨whole.specified, whole.labelled⟩

theorem wholeOfArray {element : TypeExpr} {length : Nat}
    (stands : ∀ word found, stand word = .ok found → found.Whole) (each : ∀ type ∈ types, type.Whole)
    (aligned : types.length = (items.getD []).length)
    (built : (settled name (types.map .ok) source items arguments stand).build (.array element length) = .ok type) :
    type.Whole := by
  match items, types, aligned with
  | none, _, _ => exact wholeOfWritten stands built
  | some [], _, _ => exact wholeOfWritten stands built
  | some [item], [inner], _ =>
    cases built
    have whole := each inner List.mem_cons_self
    exact ⟨whole.specified, whole.labelled⟩
  | some (_ :: _ :: _), _ :: _ :: _, _ => cases built

theorem wholeOfTuple {elements : List TypeExpr} (each : ∀ type ∈ types, type.Whole)
    (aligned : types.length = (items.getD []).length)
    (built : (settled name (types.map .ok) source items arguments stand).build (.tuple elements) = .ok type) :
    type.Whole := by
  match items, aligned with
  | none, _ => cases built
  | some is, aligned =>
    rw [Option.getD_some] at aligned
    rw [settledTuple aligned] at built
    split at built
    · cases built
      obtain ⟨specified, labelled⟩ := ParamType.wholeOfEach each
      exact ⟨specified, labelled⟩
    · cases built

theorem wholeOfCustom {kind : CustomKind} {word : String} (asked : asks arguments (.custom kind word) = true)
    (each : ∀ type ∈ types, type.Whole) (aligned : types.length = (items.getD []).length)
    (built : (settled name (types.map .ok) source items arguments stand).build (.custom kind word) = .ok type) :
    type.Whole := by
  have vector : ∀ answers, (settled name answers source items arguments stand).vectorElement? kind word =
      none := fun _ => vectorNone _ asked
  match items, aligned with
  | none, _ =>
    rw [build, custom, vector] at built
    cases built
  | some [], _ =>
    rw [build, custom, vector] at built
    cases built
  | some (first :: rest), aligned =>
    rw [customOk vector (besideAny aligned)] at built
    cases built
    exact ParamType.wholeCustom each (by simpa using aligned.symm)

theorem memOfVector {m : Type → Type} {site : Site m} {kind : CustomKind} {word : String} {element : ParamType}
    (vector : site.vectorElement? kind word = some element) : element ∈ site.arguments := by
  unfold vectorElement? at vector
  split at vector
  · rename_i only
    split at vector <;> cases vector
    rw [only]
    exact List.mem_singleton_self _
  · cases vector

theorem wholeOfSettles {expr : TypeExpr} (stands : ∀ word found, stand word = .ok found → found.Whole)
    (applied : ∀ argument ∈ arguments, argument.Whole)
    (settles : Settles name (fun _ found => found.Whole) source items arguments stand expr type) :
    type.Whole := by
  cases asked : asks arguments expr with
  | false =>
    obtain ⟨answers, _, built⟩ := settles
    cases expr with
    | keyword word => exact wholeOfKeyword ((liftExcept _).symm.trans built)
    | str _ =>
      cases built
      exact ⟨rfl, rfl⟩
    | generic word => exact stands word _ built
    | custom kind word =>
      obtain ⟨element, vector⟩ := vectorSome (settled name answers source items arguments stand) asked
      rw [build, custom, vector] at built
      cases built
      have whole := applied element (memOfVector vector)
      exact ⟨whole.specified, whole.labelled⟩
    | _ => cases asked
  | true =>
    obtain ⟨types, theirs, built⟩ := settlesTypes settles asked
    have each : ∀ type ∈ types, type.Whole := by
      intro type member
      obtain ⟨_, _, whole⟩ := Outcome.pairOfMem theirs.flip type member
      exact whole
    cases expr with
    | array element length => exact wholeOfArray stands each theirs.length_eq.symm built
    | tuple elements => exact wholeOfTuple each theirs.length_eq.symm built
    | custom kind word => exact wholeOfCustom asked each theirs.length_eq.symm built
    | _ => cases asked

end

end Site

namespace Declarations
open ParamType (Whole)
open Resolving (Ensures Runs ensuresRuns)

variable {table : Declarations} {bindings : Bindings Int}

structure Supplied (bindings : Bindings Int) : Prop where
  once : (Table.keys bindings).Nodup
  whole : ∀ {id type}, Table.get? bindings id = some type → type.Whole

theorem suppliedNone : Supplied [] := ⟨List.nodup_nil, fun absurd => nomatch absurd⟩

theorem suppliedExtend (supplied : Supplied bindings) {types : List ParamType}
    (each : ∀ type ∈ types, type.Whole) (parameters : List Int) :
    Supplied (bindings.extend parameters types) := by
  refine ⟨Bindings.nodupExtend supplied.once, fun {id type} found => ?_⟩
  rcases Table.valueOfGet found with before | ⟨⟨_, _⟩, member, rfl⟩
  · exact supplied.whole before
  · exact each _ (List.of_mem_zip member).2

theorem wholeOfSubstitute (supplied : Supplied bindings) {source word : String} {type : ParamType}
    (found : substitute table source word bindings = .ok type) : type.Whole := by
  obtain ⟨id, _, member, _, _⟩ := substituteOk found
  exact supplied.whole (Table.getOfMem supplied.once member)

variable [Host]

def wholeAccount (table : Declarations) : Account table where
  allows _ bindings := Supplied bindings
  of _ bindings type := Supplied bindings → type.Whole
  meets key := Supplied key.bindings ∧ ∀ argument ∈ key.arguments, argument.Whole
  found _ type := type.Whole
  bound _ found supplied := supplied.whole found
  argument supplied _ _ _ _ := supplied
  applied := by
    intro name id applied d expr types bindings supplied _ _ each _
    have whole : ∀ type ∈ types, type.Whole := by
      intro type member
      obtain ⟨_, _, whole⟩ := Outcome.pairOfMem each.flip type member
      exact whole supplied
    exact ⟨⟨suppliedExtend supplied whole _, whole⟩, fun type whole _ => whole⟩
  component meets _ _ _ _ := meets.1
  settled := by
    intro d expr key type meets _ _ settles
    have theirs := Site.settlesOf (fun _ _ whole => whole meets.1) settles
    exact Site.wholeOfSettles (fun word found => wholeOfSubstitute meets.1) meets.2 theirs
  shared _ _ whole _ := whole

theorem wholeOfResolve (indexed : Indexed table) {limit : Int} {history : List TypeApplication}
    {a : TypeApplication} {type : ParamType}
    (resolved : (resolve table limit a (memoryAfter table limit history)).1 = .ok type) : type.Whole :=
  (wholeAccount table).ofResolve indexed (fun _ _ => suppliedNone) suppliedNone resolved suppliedNone

theorem wholeOfResolveAll (indexed : Indexed table) {limit : Int} {history as : List TypeApplication}
    {types : List ParamType} {later : Memory Key}
    (resolved : Runs (resolveAll table limit as) (memoryAfter table limit history) types later) :
    ∀ type ∈ types, type.Whole := by
  have ensures : Ensures (wholeAccount table).known
      (Site.resolveAll (as.map fun a => (a.name, resolve table limit a)))
      (Forall₂ (fun _ type => Supplied [] → type.Whole) as) :=
    Site.ensuresResolveAll as fun a _ => (wholeAccount table).ensuresIn indexed limit limit.toNat suppliedNone
  have keeps : (memoryAfter table limit history).Keeps (wholeAccount table).known :=
    (wholeAccount table).keepsAfter indexed fun _ _ => suppliedNone
  rw [resolveAllEq] at resolved
  intro type member
  obtain ⟨_, _, whole⟩ := Outcome.pairOfMem (ensuresRuns ensures keeps resolved).2.flip type member
  exact whole suppliedNone

end Declarations

end WordAbi
