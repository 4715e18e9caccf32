import Mathlib.Data.List.Forall2
import WordAbi.Proofs.Schema.Work
/-! A node is built from the results of its components just as it is from the work for them. -/
namespace WordAbi

open List (Forall₂)

def CustomKind.type : CustomKind → List ParamType → List ParamType → String → List String → ParamType
  | struct => .struct
  | enum => .enum

def TypeExpr.Plain (expr : TypeExpr) : Prop := ∀ word, expr ≠ .generic word

namespace Site

open Resolving (Ensures ensuresPure ensuresThrow ensuresBind ensuresLift Reaches reachesPure reachesBind)

variable {κ ι : Type} {known : κ → ParamType → Prop}

def asks (arguments : List ParamType) : TypeExpr → Bool
  | .array _ _ => true
  | .tuple _ => true
  | .custom .struct word => lastSegment word ≠ "Vec" ∨ arguments.length ≠ 1
  | .custom .enum _ => true
  | _ => false

theorem asksOfLength (expr : TypeExpr) {arguments others : List ParamType}
    (length : arguments.length = others.length) : asks arguments expr = asks others expr := by
  cases expr with
  | custom kind word => cases kind <;> simp [asks, length]
  | _ => rfl

def working (name : ι → String) (work : ι → Resolving κ ParamType) (source : String)
    (items : Option (List ι)) (arguments : List ParamType) (stand : String → Except Fault ParamType) :
    Site (Resolving κ) :=
  ⟨source, items.map (·.map fun item => (name item, work item)), arguments, fun n => lift (stand n)⟩

def settled (name : ι → String) (answers : List (Except Fault ParamType)) (source : String)
    (items : Option (List ι)) (arguments : List ParamType) (stand : String → Except Fault ParamType) :
    Site (Except Fault) :=
  ⟨source, items.map fun is => (is.zip answers).map fun entry => (name entry.1, entry.2), arguments,
    stand⟩

def Answers (of : ι → ParamType → Prop) (item : ι) (answer : Except Fault ParamType) : Prop :=
  ∀ type, answer = .ok type → of item type

/-- The type is one that the node has when its components have results that are theirs. -/
def Settles (name : ι → String) (of : ι → ParamType → Prop) (source : String) (items : Option (List ι))
    (arguments : List ParamType) (stand : String → Except Fault ParamType) (expr : TypeExpr)
    (type : ParamType) : Prop :=
  ∃ answers, Forall₂ (Answers of) (items.getD []) answers ∧
    (settled name answers source items arguments stand).build expr = .ok type

def unused (items : List ι) : List (Except Fault ParamType) :=
  items.map fun _ => .error (.misuse .missingMember)

theorem answersUnused (of : ι → ParamType → Prop) (items : List ι) :
    Forall₂ (Answers of) items (unused items) := by
  rw [unused, List.forall₂_map_right_iff, List.forall₂_same]
  intro item _ type absurd
  cases absurd

theorem answersOk {of : ι → ParamType → Prop} {items : List ι} {types : List ParamType}
    (each : Forall₂ of items types) : Forall₂ (Answers of) items (types.map .ok) := by
  rw [List.forall₂_map_right_iff]
  refine each.imp fun item type holds other same => ?_
  cases same
  exact holds

theorem liftExcept {α : Type} (outcome : Except Fault α) :
    (lift outcome : Except Fault α) = outcome := by
  cases outcome <;> rfl

theorem liftBind {α β : Type} (outcome : Except Fault α) (next : α → Except Fault β) :
    (lift (outcome >>= next) : Resolving κ β) = lift outcome >>= fun a => lift (next a) := by
  cases outcome <;> rfl

theorem standaloneLift {site : Site (Resolving κ)} (other : Site (Except Fault))
    (source : site.source = other.source)
    (substitute : ∀ name, site.substitute name = lift (other.substitute name)) :
    (expr : TypeExpr) → site.standalone expr = lift (other.standalone expr)
  | .keyword word => by rw [standalone, standalone, source, liftExcept]
  | .str _ => rfl
  | .array element _ => by
    rw [standalone, standalone, liftBind, standaloneLift other source substitute element]
    rfl
  | .generic name => substitute name
  | .tuple _ => by
    rw [standalone, standalone, source]
    rfl
  | .custom _ _ => by
    rw [standalone, standalone, source]
    rfl

theorem resolveAllOk (name : ι → String) {of : ι → ParamType → Prop} {items : List ι}
    {types : List ParamType} (each : Forall₂ of items types) :
    resolveAll ((items.zip (types.map Except.ok)).map fun entry => (name entry.1, entry.2)) =
      (.ok types : Except Fault (List ParamType)) := by
  induction each with
  | nil => rfl
  | cons first rest ih =>
    simp only [List.map_cons, List.zip_cons_cons, resolveAll, ih]
    rfl

theorem ensuresResolveAll {name : ι → String} {work : ι → Resolving κ ParamType}
    {of : ι → ParamType → Prop} (items : List ι)
    (each : ∀ item ∈ items, Ensures known (work item) (of item)) :
    Ensures known (resolveAll (items.map fun item => (name item, work item))) (Forall₂ of items) := by
  induction items with
  | nil => exact ensuresPure .nil
  | cons item items ih =>
    refine ensuresBind (each item List.mem_cons_self) fun type first => ?_
    refine ensuresBind (ih fun i member => each i (List.mem_cons_of_mem item member)) fun types rest => ?_
    exact ensuresPure (.cons first rest)

theorem typesOfResolveAll {entries : List (String × Except Fault ParamType)} {types : List ParamType}
    (all : resolveAll entries = .ok types) : entries.map (·.2) = types.map .ok := by
  induction entries generalizing types with
  | nil =>
    cases all
    rfl
  | cons entry rest ih =>
    rw [resolveAll, Outcome.bindOk] at all
    obtain ⟨type, first, all⟩ := all
    obtain ⟨others, rest, last⟩ := Outcome.bindOk.mp all
    cases last
    rw [List.map_cons, List.map_cons, first, ih rest]

theorem answersOfResolveAll (name : ι → String) {is : List ι}
    {answers : List (Except Fault ParamType)} {types : List ParamType} (length : answers.length = is.length)
    (all : resolveAll ((is.zip answers).map fun entry => (name entry.1, entry.2)) = .ok types) :
    answers = types.map .ok := by
  have same := typesOfResolveAll all
  rw [List.map_map] at same
  rw [← same]
  exact (List.map_snd_zip (by omega)).symm

theorem namesOfAnswers (name : ι → String) {of : ι → ParamType → Prop} {items : List ι}
    {types : List ParamType} (each : Forall₂ of items types) :
    ((items.zip (types.map (Except.ok : ParamType → Except Fault ParamType))).map
      fun entry => (name entry.1, entry.2)).map (·.1) = items.map name := by
  induction each with
  | nil => rfl
  | cons first rest ih => simpa using ih

theorem namesOfWork (name : ι → String) (work : ι → Resolving κ ParamType) (items : List ι) :
    (items.map fun item => (name item, work item)).map (·.1) = items.map name := by
  rw [List.map_map]
  rfl

section

variable {name : ι → String} {work : ι → Resolving κ ParamType} {of : ι → ParamType → Prop}
  {source : String} {items : Option (List ι)} {arguments : List ParamType}
  {stand : String → Except Fault ParamType} {expr : TypeExpr}

theorem vectorOfAsks {m : Type → Type} (site : Site m) (kind : CustomKind) (word : String) :
    (site.vectorElement? kind word).isSome = !asks site.arguments (.custom kind word) := by
  obtain ⟨_, _, arguments, _⟩ := site
  cases kind with
  | enum => rfl
  | struct =>
    match arguments with
    | [] => simp [vectorElement?, asks]
    | [element] => by_cases vec : lastSegment word = "Vec" <;> simp [vectorElement?, asks, vec]
    | first :: second :: rest => simp [vectorElement?, asks]

theorem vectorNone {m : Type → Type} (site : Site m) {kind : CustomKind} {word : String}
    (asked : asks site.arguments (.custom kind word) = true) : site.vectorElement? kind word = none := by
  have isVector := vectorOfAsks site kind word
  rw [asked, Bool.not_true, Option.isSome_eq_false_iff, Option.isNone_iff_eq_none] at isVector
  exact isVector

theorem vectorSome {m : Type → Type} (site : Site m) {kind : CustomKind} {word : String}
    (unasked : asks site.arguments (.custom kind word) = false) :
    ∃ element, site.vectorElement? kind word = some element := by
  have isVector := vectorOfAsks site kind word
  rw [unasked, Bool.not_false, Option.isSome_iff_exists] at isVector
  exact isVector

theorem arrayUnasked (items : Option (List ι)) (element : TypeExpr) (length : Nat) :
    ((working name work source items arguments stand).standalone element >>= fun type =>
        pure (.array type length)) =
      lift ((settled name [] source items arguments stand).standalone element >>= fun type =>
        pure (ParamType.array type length)) := by
  rw [standaloneLift (settled name [] source items arguments stand) rfl fun _ => rfl, liftBind]
  rfl

theorem customOk {kind : CustomKind} {word : String} {first : ι} {rest : List ι} {types : List ParamType}
    (vector : ∀ answers, (settled name answers source (some (first :: rest)) arguments
      stand).vectorElement? kind word = none)
    (each : Forall₂ of (first :: rest) types) :
    (settled name (types.map .ok) source (some (first :: rest)) arguments stand).build
        (.custom kind word) =
      .ok (kind.type types arguments word ((first :: rest).map name)) := by
  have names := namesOfAnswers name each
  have all := resolveAllOk name each
  cases each with
  | cons _ _ =>
    rw [build, custom, vector]
    simp only [settled, Option.map_some, List.map_cons, List.zip_cons_cons] at all names ⊢
    rw [all, names]
    cases kind <;> rfl

theorem settledUnasked (unasked : asks arguments expr = false)
    (answers others : List (Except Fault ParamType)) :
    (settled name answers source items arguments stand).build expr =
      (settled name others source items arguments stand).build expr := by
  cases expr with
  | keyword _ => rfl
  | str _ => rfl
  | generic _ => rfl
  | array _ _ => cases unasked
  | tuple _ => cases unasked
  | custom kind word =>
    obtain ⟨element, vector⟩ := vectorSome (settled name answers source items arguments stand) unasked
    have same : (settled name others source items arguments stand).vectorElement? kind word =
        some element := vector
    rw [build, build, custom, custom, vector, same]

theorem buildUnasked (unasked : asks arguments expr = false) (answers : List (Except Fault ParamType)) :
    (working name work source items arguments stand).build expr =
      lift ((settled name answers source items arguments stand).build expr) := by
  cases expr with
  | keyword word =>
    rw [build, build, liftExcept]
    rfl
  | str _ => rfl
  | generic _ => rfl
  | array _ _ => cases unasked
  | tuple _ => cases unasked
  | custom kind word =>
    obtain ⟨element, vector⟩ := vectorSome (working name work source items arguments stand) unasked
    have same : (settled name answers source items arguments stand).vectorElement? kind word =
        some element := vector
    rw [build, build, custom, custom, vector, same]
    rfl

theorem ensuresLifted {answers : List (Except Fault ParamType)}
    (each : Forall₂ (Answers of) (items.getD []) answers)
    (same : (working name work source items arguments stand).build expr =
      lift ((settled name answers source items arguments stand).build expr)) :
    Ensures known ((working name work source items arguments stand).build expr)
      (Settles name of source items arguments stand expr) := by
  rw [same]
  exact ensuresLift fun type built => ⟨answers, each, built⟩

theorem ensuresArray {element : TypeExpr} {length : Nat}
    (each : ∀ item ∈ items.getD [], Ensures known (work item) (of item)) :
    Ensures known ((working name work source items arguments stand).build (.array element length))
      (Settles name of source items arguments stand (.array element length)) := by
  match items, each with
  | none, _ => exact ensuresLifted .nil (arrayUnasked none element length)
  | some [], _ => exact ensuresLifted .nil (arrayUnasked (some []) element length)
  | some [item], each =>
    refine ensuresBind (each item List.mem_cons_self) fun type holds => ensuresPure ?_
    have one : Forall₂ of [item] [type] := .cons holds .nil
    exact ⟨_, answersOk one, rfl⟩
  | some (first :: second :: rest), _ => exact ensuresThrow

theorem ensuresTuple {elements : List TypeExpr}
    (each : ∀ item ∈ items.getD [], Ensures known (work item) (of item)) :
    Ensures known ((working name work source items arguments stand).build (.tuple elements))
      (Settles name of source items arguments stand (.tuple elements)) := by
  match items, each with
  | none, _ => exact ensuresThrow
  | some is, each =>
    simp only [build, working, Option.map_some]
    split
    · rename_i count
      refine ensuresBind (ensuresResolveAll is each) fun types holds => ensuresPure ?_
      refine ⟨_, answersOk holds, ?_⟩
      simp only [build, settled, Option.map_some, resolveAllOk name holds]
      rw [if_pos (by simpa [← holds.length_eq] using count)]
      rfl
    · exact ensuresThrow

theorem ensuresCustom {kind : CustomKind} {word : String}
    (asked : asks arguments (.custom kind word) = true)
    (each : ∀ item ∈ items.getD [], Ensures known (work item) (of item)) :
    Ensures known ((working name work source items arguments stand).build (.custom kind word))
      (Settles name of source items arguments stand (.custom kind word)) := by
  have vector := vectorNone (working name work source items arguments stand) asked
  match items, each with
  | none, _ =>
    rw [build, custom, vector]
    exact ensuresThrow
  | some [], _ =>
    rw [build, custom, vector]
    exact ensuresThrow
  | some (first :: rest), each =>
    rw [build, custom, vector]
    refine ensuresBind (ensuresResolveAll (first :: rest) each) fun types holds => ?_
    have unasked : ∀ answers, (settled name answers source (some (first :: rest)) arguments
        stand).vectorElement? kind word = none := fun _ => vector
    have built := customOk unasked holds
    rw [← namesOfWork name work] at built
    cases kind with
    | struct => exact ensuresPure ⟨_, answersOk holds, built⟩
    | enum => exact ensuresPure ⟨_, answersOk holds, built⟩

variable (name source stand) in
theorem ensuresBuild (each : asks arguments expr = true →
      ∀ item ∈ items.getD [], Ensures known (work item) (of item)) :
    Ensures known ((working name work source items arguments stand).build expr)
      (Settles name of source items arguments stand expr) := by
  cases asked : asks arguments expr with
  | false => exact ensuresLifted (answersUnused of _) (buildUnasked asked _)
  | true =>
    cases expr with
    | array element length => exact ensuresArray (each asked)
    | tuple elements => exact ensuresTuple (each asked)
    | custom kind word => exact ensuresCustom asked (each asked)
    | _ => cases asked

theorem settledAsked {answers : List (Except Fault ParamType)} {type : ParamType}
    (asked : asks arguments expr = true) (aligned : answers.length = (items.getD []).length)
    (built : (settled name answers source items arguments stand).build expr = .ok type) :
    ∃ types : List ParamType, answers = types.map .ok := by
  cases expr with
  | keyword _ => cases asked
  | str _ => cases asked
  | generic _ => cases asked
  | array element length =>
    match items, answers, aligned with
    | none, [], _ => exact ⟨[], rfl⟩
    | some [], [], _ => exact ⟨[], rfl⟩
    | some [item], [answer], _ =>
      obtain ⟨inner, first, _⟩ := Outcome.bindOk.mp built
      exact ⟨[inner], congrArg (fun answer => [answer]) first⟩
    | some (_ :: _ :: _), _ :: _ :: _, _ => cases built
  | tuple elements =>
    match items, aligned with
    | none, _ => cases built
    | some is, aligned =>
      simp only [build, settled, Option.map_some] at built
      split at built
      · obtain ⟨types, all, _⟩ := Outcome.bindOk.mp built
        exact ⟨types, answersOfResolveAll name aligned all⟩
      · cases built
  | custom kind word =>
    have vector := vectorNone (settled name answers source items arguments stand) asked
    rw [build, custom, vector] at built
    match items, aligned with
    | none, _ => cases built
    | some [], _ => cases built
    | some (first :: rest), aligned =>
      match answers, aligned with
      | answer :: others, aligned =>
        obtain ⟨types, all, _⟩ := Outcome.bindOk.mp built
        exact ⟨types, answersOfResolveAll name aligned all⟩

theorem settlesTypes {type : ParamType} (settles : Settles name of source items arguments stand expr type)
    (asked : asks arguments expr = true) :
    ∃ types : List ParamType, Forall₂ of (items.getD []) types ∧
      (settled name (types.map .ok) source items arguments stand).build expr = .ok type := by
  obtain ⟨answers, each, built⟩ := settles
  obtain ⟨types, rfl⟩ := settledAsked asked each.length_eq.symm built
  rw [List.forall₂_map_right_iff] at each
  exact ⟨types, each.imp fun item type answers => answers type rfl, built⟩

theorem settlesUnique {type other : ParamType}
    (unique : ∀ item type other, of item type → of item other → type = other)
    (one : Settles name of source items arguments stand expr type)
    (two : Settles name of source items arguments stand expr other) : type = other := by
  cases asked : asks arguments expr with
  | false =>
    obtain ⟨answers, _, built⟩ := one
    obtain ⟨others, _, builtToo⟩ := two
    rw [settledUnasked asked answers others] at built
    exact Except.ok.inj (built.symm.trans builtToo)
  | true =>
    obtain ⟨types, each, built⟩ := settlesTypes one asked
    obtain ⟨others, eachToo, builtToo⟩ := settlesTypes two asked
    have right : Relator.RightUnique of := fun item a b here there => unique item a b here there
    obtain rfl := List.right_unique_forall₂' right each eachToo
    exact Except.ok.inj (built.symm.trans builtToo)

theorem settlesOf {type : ParamType} {further : ι → ParamType → Prop}
    (weaker : ∀ item type, of item type → further item type)
    (settles : Settles name of source items arguments stand expr type) :
    Settles name further source items arguments stand expr type := by
  obtain ⟨answers, each, built⟩ := settles
  exact ⟨answers, each.imp fun item answer answers type same => weaker item type (answers type same), built⟩

section

variable {limit : Int} {opened : List κ} {type : ParamType} {types : List ParamType}

theorem reachesResolveAll {items : List ι}
    (each : Forall₂ (fun item type => Reaches limit opened (work item) type) items types) :
    Reaches limit opened (resolveAll (items.map fun item => (name item, work item))) types := by
  induction each with
  | nil => exact reachesPure []
  | cons first _ ih => exact reachesBind first (reachesBind ih (reachesPure _))

theorem reachesLifted {answers : List (Except Fault ParamType)}
    (same : (working name work source items arguments stand).build expr =
      lift ((settled name answers source items arguments stand).build expr))
    (built : (settled name answers source items arguments stand).build expr = .ok type) :
    Reaches limit opened ((working name work source items arguments stand).build expr) type := by
  rw [same, built]
  exact reachesPure type

theorem reachesArray {element : TypeExpr} {length : Nat}
    (each : Forall₂ (fun item type => Reaches limit opened (work item) type) (items.getD []) types)
    (built : (settled name (types.map .ok) source items arguments stand).build (.array element length) =
      .ok type) :
    Reaches limit opened ((working name work source items arguments stand).build (.array element length))
      type := by
  match items, types, each with
  | none, [], _ => exact reachesLifted (arrayUnasked none element length) built
  | some [], [], _ => exact reachesLifted (arrayUnasked (some []) element length) built
  | some [item], [inner], .cons first _ =>
    cases built
    exact reachesBind first (reachesPure _)
  | some (_ :: _ :: _), _ :: _ :: _, _ => cases built

theorem reachesTuple {elements : List TypeExpr}
    (each : Forall₂ (fun item type => Reaches limit opened (work item) type) (items.getD []) types)
    (built : (settled name (types.map .ok) source items arguments stand).build (.tuple elements) =
      .ok type) :
    Reaches limit opened ((working name work source items arguments stand).build (.tuple elements))
      type := by
  match items, each with
  | none, _ => cases built
  | some is, each =>
    have all := resolveAllOk name each
    simp only [Option.getD_some] at all
    simp only [build, settled, Option.map_some, all] at built
    simp only [build, working, Option.map_some]
    split at built
    · rename_i count
      rw [if_pos (by simpa [← each.length_eq] using count)]
      cases built
      exact reachesBind (reachesResolveAll each) (reachesPure _)
    · cases built

theorem reachesCustom {kind : CustomKind} {word : String}
    (asked : asks arguments (.custom kind word) = true)
    (each : Forall₂ (fun item type => Reaches limit opened (work item) type) (items.getD []) types)
    (built : (settled name (types.map .ok) source items arguments stand).build (.custom kind word) =
      .ok type) :
    Reaches limit opened ((working name work source items arguments stand).build (.custom kind word))
      type := by
  have vector := vectorNone (working name work source items arguments stand) asked
  have unasked : ∀ answers, (settled name answers source items arguments stand).vectorElement? kind word =
      none := fun _ => vector
  match items, each with
  | none, _ =>
    rw [build, custom, unasked] at built
    cases built
  | some [], _ =>
    rw [build, custom, unasked] at built
    cases built
  | some (first :: rest), each =>
    rw [customOk unasked each] at built
    cases built
    rw [build, custom, vector, ← namesOfWork name work]
    refine reachesBind (reachesResolveAll each) ?_
    cases kind <;> exact reachesPure _

theorem reachesOfEach {of : ι → ParamType → Prop} {items : List ι}
    (each : ∀ item ∈ items, ∀ type, of item type → Reaches limit opened (work item) type)
    (theirs : Forall₂ of items types) :
    Forall₂ (fun item type => Reaches limit opened (work item) type) items types := by
  induction theirs with
  | nil => exact .nil
  | cons first _ ih =>
    obtain ⟨here, rest⟩ := List.forall_mem_cons.mp each
    exact .cons (here _ first) (ih rest)

theorem reachesBuild {of : ι → ParamType → Prop} (settles : Settles name of source items arguments stand expr type)
    (each : ∀ item ∈ items.getD [], ∀ type, of item type → Reaches limit opened (work item) type) :
    Reaches limit opened ((working name work source items arguments stand).build expr) type := by
  cases asked : asks arguments expr with
  | false =>
    obtain ⟨answers, _, built⟩ := settles
    exact reachesLifted (buildUnasked asked answers) built
  | true =>
    obtain ⟨types, answers, built⟩ := settlesTypes settles asked
    have reaches := reachesOfEach each answers
    cases expr with
    | array element length => exact reachesArray reaches built
    | tuple elements => exact reachesTuple reaches built
    | custom kind word => exact reachesCustom asked reaches built
    | _ => cases asked

end

end

end Site

end WordAbi
