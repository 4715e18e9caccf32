import WordAbi.Proofs.Schema.Shape
/-! Work that finds something: from which memory to which. What a chain of work, a guarded key and a node
find is found by their parts, one after another. -/
namespace WordAbi

namespace Memory

variable {κ : Type}

def hit (memory : Memory κ) : Memory κ := { memory with hits := memory.hits + 1 }

def begun (memory : Memory κ) (key : κ) : Memory κ := { memory with opened := key :: memory.opened }

def ended (memory : Memory κ) : Memory κ := { memory with opened := memory.opened.tail }

def learnt (memory : Memory κ) (key : κ) (type : ParamType) : Memory κ :=
  { memory with known := (key, type) :: memory.known }

end Memory

namespace Resolving

variable {κ α β : Type} {memory later : Memory κ}

def Runs (work : Resolving κ α) (memory : Memory κ) (a : α) (later : Memory κ) : Prop :=
  work memory = (.ok a, later)

theorem ensuresRuns {known : κ → ParamType → Prop} {work : Resolving κ α} {result : α → Prop} {a : α}
    (ensures : Ensures known work result) (keeps : memory.Keeps known) (runs : Runs work memory a later) :
    later.Keeps known ∧ result a := by
  have kept := ensures memory keeps
  rw [runs] at kept
  exact ⟨kept.1, kept.2 a rfl⟩

theorem runsPure {a b : α} : Runs (pure a) memory b later ↔ a = b ∧ memory = later := by
  constructor
  · intro runs
    cases runs
    exact ⟨rfl, rfl⟩
  · rintro ⟨rfl, rfl⟩
    rfl

theorem runsThrow {fault : Fault} {a : α} : ¬ Runs (throw fault) memory a later :=
  fun absurd => nomatch absurd

theorem runsBind {work : Resolving κ α} {next : α → Resolving κ β} {b : β} :
    Runs (work >>= next) memory b later ↔
      ∃ a between, Runs work memory a between ∧ Runs (next a) between b later := by
  rw [Runs, bindRun]
  constructor
  · intro runs
    split at runs
    · rename_i a found
      exact ⟨a, _, Prod.ext found rfl, runs⟩
    · cases runs
  · rintro ⟨a, between, first, rest⟩
    rw [first]
    exact rest

theorem runsLift {outcome : Except Fault α} {a : α} :
    Runs (Site.lift outcome) memory a later ↔ outcome = .ok a ∧ memory = later := by
  cases outcome with
  | ok b => rw [Site.lift, runsPure, Except.ok.injEq]
  | error fault => exact ⟨fun runs => absurd runs runsThrow, fun absurd => nomatch absurd.1⟩

theorem runsGet {next : Memory κ → Resolving κ β} {b : β} :
    Runs (get >>= next) memory b later ↔ Runs (next memory) memory b later := by
  rw [Runs, bindRun]
  rfl

theorem runsSet {given : Memory κ} {next : PUnit → Resolving κ β} {b : β} :
    Runs (set given >>= next) memory b later ↔ Runs (next ⟨⟩) given b later := by
  rw [Runs, bindRun]
  rfl

theorem runsRemember {key : κ} {type other : ParamType} :
    Runs (remember key type) memory other later ↔ type = other ∧ later = memory.learnt key type := by
  constructor
  · intro runs
    cases runs
    exact ⟨rfl, rfl⟩
  · rintro ⟨rfl, rfl⟩
    rfl

theorem runsInProgress {key : κ} {work : Resolving κ ParamType} {type : ParamType} :
    Runs (inProgress key work) memory type later ↔
      ∃ between, Runs work (memory.begun key) type between ∧ later = between.ended := by
  constructor
  · intro runs
    obtain ⟨found, rfl⟩ := Prod.ext_iff.mp runs
    exact ⟨(work (memory.begun key)).2, Prod.ext found rfl, rfl⟩
  · rintro ⟨between, runs, rfl⟩
    rw [Runs, inProgress]
    change ((work (memory.begun key)).1, (work (memory.begun key)).2.ended) = _
    rw [runs]

theorem runsWorked {same : κ → κ → Bool} {limit : Int} {source : String} {key : κ}
    {work : Option (Resolving κ ParamType)} {type : ParamType} :
    Runs (worked same limit source key work) memory type later ↔
      memory.opened.any (same · key) = false ∧ ∃ found between, work = some found ∧
        Runs found (memory.begun key) type between ∧ later = between.ended := by
  unfold worked
  rw [runsGet]
  cases memory.opened.any (same · key) with
  | true => exact ⟨fun runs => absurd runs runsThrow, fun absurd => nomatch absurd.1⟩
  | false =>
    cases work with
    | none => exact ⟨fun runs => absurd runs runsThrow, fun ⟨_, _, _, absurd, _⟩ => nomatch absurd⟩
    | some work => simp [runsInProgress]

theorem runsGuarded {same : κ → κ → Bool} {limit : Int} {source : String} {key : κ}
    {work : Option (Resolving κ ParamType)} {type : ParamType} :
    Runs (guarded same limit source key work) memory type later ↔
      (memory.find? same key = some type ∧ later = memory.hit) ∨
      (memory.find? same key = none ∧ memory.opened.any (same · key) = false ∧
        ∃ found between, work = some found ∧ Runs found (memory.begun key) type between ∧
          later = between.ended.learnt key type) := by
  rw [guarded, runsGet]
  cases known : memory.find? same key with
  | some found =>
    simp only [runsSet, runsPure, Option.some.injEq, reduceCtorEq, false_and, or_false]
    exact and_congr_right fun _ => eq_comm
  | none =>
    simp only [runsBind, runsWorked, runsRemember, reduceCtorEq, false_and, false_or, true_and]
    constructor
    · rintro ⟨_, _, ⟨new, found, between, given, runs, rfl⟩, rfl, rfl⟩
      exact ⟨new, found, between, given, runs, rfl⟩
    · rintro ⟨new, found, between, given, runs, rfl⟩
      exact ⟨type, _, ⟨new, found, between, given, runs, rfl⟩, rfl, rfl⟩

end Resolving

namespace Site

open Resolving (Runs runsPure runsThrow runsBind runsLift)

variable {κ ι : Type} {memory later : Memory κ} {name : ι → String} {work : ι → Resolving κ ParamType}
  {source : String} {items : Option (List ι)} {arguments : List ParamType}
  {stand : String → Except Fault ParamType} {expr : TypeExpr} {type : ParamType}

theorem runsResolveAllNil {types : List ParamType} :
    Runs (resolveAll ([] : List (String × Resolving κ ParamType))) memory types later ↔
      types = [] ∧ memory = later := by
  rw [resolveAll, runsPure, eq_comm]

theorem runsResolveAllCons {entry : String × Resolving κ ParamType}
    {rest : List (String × Resolving κ ParamType)} {types : List ParamType} :
    Runs (resolveAll (entry :: rest)) memory types later ↔
      ∃ type between others, Runs entry.2 memory type between ∧
        Runs (resolveAll rest) between others later ∧ types = type :: others := by
  simp only [resolveAll, runsBind, runsPure]
  constructor
  · rintro ⟨type, between, first, others, _, rest, rfl, rfl⟩
    exact ⟨type, between, others, first, rest, rfl⟩
  · rintro ⟨type, between, others, first, rest, rfl⟩
    exact ⟨type, between, first, others, later, rest, rfl, rfl⟩

theorem lengthOfRuns {is : List ι} {types : List ParamType}
    (runs : Runs (resolveAll (is.map fun item => (name item, work item))) memory types later) :
    types.length = is.length := by
  induction is generalizing memory types with
  | nil => rw [(runsResolveAllNil.mp runs).1, List.length_nil, List.length_nil]
  | cons item is ih =>
    obtain ⟨_, _, others, _, rest, rfl⟩ := runsResolveAllCons.mp runs
    rw [List.length_cons, List.length_cons, ih rest]

def Assembles (name : ι → String) (work : ι → Resolving κ ParamType) (source : String)
    (items : Option (List ι)) (arguments : List ParamType) (stand : String → Except Fault ParamType)
    (expr : TypeExpr) (memory : Memory κ) (type : ParamType) (later : Memory κ) : Prop :=
  ∃ types, Runs (resolveAll ((items.getD []).map fun item => (name item, work item))) memory types later ∧
    (settled name (types.map .ok) source items arguments stand).build expr = .ok type

theorem assemblesNone (none : items.getD [] = []) :
    Assembles name work source items arguments stand expr memory type later ↔
      (settled name [] source items arguments stand).build expr = .ok type ∧ memory = later := by
  rw [Assembles, none, List.map_nil]
  constructor
  · intro ⟨types, runs, built⟩
    obtain ⟨rfl, rfl⟩ := runsResolveAllNil.mp runs
    exact ⟨built, rfl⟩
  · intro ⟨built, same⟩
    exact ⟨[], runsResolveAllNil.mpr ⟨rfl, same⟩, built⟩

theorem assemblesRefused {fault : Fault}
    (refused : ∀ types : List ParamType, types.length = (items.getD []).length →
      (settled name (types.map .ok) source items arguments stand).build expr ≠ .ok type) :
    Runs (throw fault) memory type later ↔
      Assembles name work source items arguments stand expr memory type later := by
  constructor
  · intro runs
    exact absurd runs runsThrow
  · intro assembles
    obtain ⟨types, runs, built⟩ := assembles
    exact absurd built (refused types (lengthOfRuns runs))

theorem assemblesOk {is : List ι} {form : List ParamType → ParamType}
    (formed : ∀ types : List ParamType, types.length = is.length →
      (settled name (types.map .ok) source (some is) arguments stand).build expr = .ok (form types)) :
    Runs (resolveAll (is.map fun item => (name item, work item)) >>= fun types => pure (form types))
        memory type later ↔
      Assembles name work source (some is) arguments stand expr memory type later := by
  simp only [runsBind, runsPure]
  constructor
  · intro runs
    obtain ⟨types, between, runs, found, same⟩ := runs
    subst found same
    exact ⟨types, runs, formed types (lengthOfRuns runs)⟩
  · intro assembles
    obtain ⟨types, runs, built⟩ := assembles
    rw [formed types (lengthOfRuns runs)] at built
    exact ⟨types, later, runs, Except.ok.inj built, rfl⟩

theorem runsArray {element : TypeExpr} {length : Nat} :
    Runs ((working name work source items arguments stand).build (.array element length)) memory type
        later ↔
      Assembles name work source items arguments stand (.array element length) memory type later := by
  match items with
  | none =>
    rw [assemblesNone rfl, ← runsLift]
    exact Eq.to_iff (congrArg (Runs · memory type later) (arrayUnasked none element length))
  | some [] =>
    rw [assemblesNone rfl, ← runsLift]
    exact Eq.to_iff (congrArg (Runs · memory type later) (arrayUnasked (some []) element length))
  | some [item] =>
    have run : (working name work source (some [item]) arguments stand).build (.array element length) =
        work item >>= fun type => pure (.array type length) := rfl
    rw [run, runsBind]
    constructor
    · intro ⟨inner, between, runs, last⟩
      obtain ⟨rfl, rfl⟩ := runsPure.mp last
      have rest := (@runsResolveAllNil κ between between []).mpr ⟨rfl, rfl⟩
      exact ⟨[inner], runsResolveAllCons.mpr ⟨inner, between, [], runs, rest, rfl⟩, rfl⟩
    · intro ⟨types, runs, built⟩
      obtain ⟨inner, between, others, first, rest, rfl⟩ := runsResolveAllCons.mp runs
      obtain ⟨rfl, rfl⟩ := runsResolveAllNil.mp rest
      cases built
      exact ⟨inner, between, first, runsPure.mpr ⟨rfl, rfl⟩⟩
  | some (first :: second :: rest) =>
    refine assemblesRefused fun types aligned built => ?_
    match types, aligned with
    | _ :: _ :: _, _ => cases built

theorem buildTuple {is : List ι} {elements : List TypeExpr} :
    (working name work source (some is) arguments stand).build (.tuple elements) =
      if is.length = elements.length then
        resolveAll (is.map fun item => (name item, work item)) >>= fun types => pure (.tuple types)
      else throw (.invalidType (.tupleComponents source elements.length is.length)) := by
  simp only [build, working, Option.map_some, List.length_map]

theorem settledTuple {is : List ι} {elements : List TypeExpr} {types : List ParamType}
    (aligned : types.length = is.length) :
    (settled name (types.map .ok) source (some is) arguments stand).build (.tuple elements) =
      if is.length = elements.length then .ok (.tuple types)
      else .error (.invalidType (.tupleComponents source elements.length is.length)) := by
  simp only [build, settled, Option.map_some, resolveAllOk name (besideAny aligned), List.length_map,
    List.length_zip, aligned, Nat.min_self]
  rfl

theorem runsTuple {elements : List TypeExpr} :
    Runs ((working name work source items arguments stand).build (.tuple elements)) memory type later ↔
      Assembles name work source items arguments stand (.tuple elements) memory type later := by
  cases items with
  | none =>
    refine assemblesRefused fun _ _ built => ?_
    cases built
  | some is =>
    rw [buildTuple]
    by_cases count : is.length = elements.length
    · rw [if_pos count]
      exact assemblesOk fun types aligned => by rw [settledTuple aligned, if_pos count]
    · rw [if_neg count]
      refine assemblesRefused fun types aligned built => ?_
      rw [Option.getD_some] at aligned
      rw [settledTuple aligned, if_neg count] at built
      cases built

theorem customRefused {kind : CustomKind} {word : String} (asked : asks arguments (.custom kind word) = true)
    (empty : items = none ∨ items = some []) :
    (working name work source items arguments stand).build (.custom kind word) =
      throw (.invalidType (.noComponents source)) := by
  have vector := vectorNone (working name work source items arguments stand) asked
  rw [build, custom, vector]
  rcases empty with rfl | rfl <;> rfl

theorem settledRefused {kind : CustomKind} {word : String} (asked : asks arguments (.custom kind word) = true)
    (empty : items = none ∨ items = some []) (answers : List (Except Fault ParamType)) :
    (settled name answers source items arguments stand).build (.custom kind word) =
      .error (.invalidType (.noComponents source)) := by
  have vector := vectorNone (settled name answers source items arguments stand) asked
  rw [build, custom, vector]
  rcases empty with rfl | rfl <;> rfl

theorem buildCustom {kind : CustomKind} {word : String} {first : ι} {rest : List ι}
    (asked : asks arguments (.custom kind word) = true) :
    (working name work source (some (first :: rest)) arguments stand).build (.custom kind word) =
      resolveAll ((first :: rest).map fun item => (name item, work item)) >>= fun types =>
        pure (kind.type types arguments word ((first :: rest).map name)) := by
  have vector := vectorNone (working name work source (some (first :: rest)) arguments stand) asked
  rw [build, custom, vector, ← namesOfWork name work]
  cases kind <;> rfl

theorem runsCustom {kind : CustomKind} {word : String} (asked : asks arguments (.custom kind word) = true) :
    Runs ((working name work source items arguments stand).build (.custom kind word)) memory type
        later ↔
      Assembles name work source items arguments stand (.custom kind word) memory type later := by
  have empty (none : items = none ∨ items = some []) :
      Runs ((working name work source items arguments stand).build (.custom kind word)) memory type
          later ↔
        Assembles name work source items arguments stand (.custom kind word) memory type later := by
    rw [customRefused asked none]
    refine assemblesRefused fun types _ built => ?_
    rw [settledRefused asked none] at built
    cases built
  obtain _ | _ | ⟨first, rest⟩ := items
  · exact empty (.inl rfl)
  · exact empty (.inr rfl)
  · have vector : ∀ answers, (settled name answers source (some (first :: rest)) arguments
        stand).vectorElement? kind word = none := fun answers => vectorNone _ asked
    rw [buildCustom asked]
    exact assemblesOk fun types aligned => customOk vector (besideAny aligned)

theorem runsAsked (asked : asks arguments expr = true) :
    Runs ((working name work source items arguments stand).build expr) memory type later ↔
      Assembles name work source items arguments stand expr memory type later := by
  cases expr with
  | array element length => exact runsArray
  | tuple elements => exact runsTuple
  | custom kind word => exact runsCustom asked
  | _ => cases asked

theorem runsUnasked (unasked : asks arguments expr = false) (answers : List (Except Fault ParamType)) :
    Runs ((working name work source items arguments stand).build expr) memory type later ↔
      (settled name answers source items arguments stand).build expr = .ok type ∧ memory = later := by
  rw [buildUnasked unasked answers, runsLift]

end Site

end WordAbi
