import WordAbi.Proofs.Schema.Faults
import WordAbi.Proofs.Schema.Runs
/-! How work goes, whether or not it finds something: on memories of some sort two pieces of work do the
same, leave a memory of that sort, and end with no other faults than ones that are to blame. A guarded key
and a node go as the work for their parts does. -/
namespace WordAbi

open List (Forall₂)
open Outcome (Faults faultsOk faultsError)

namespace Resolving

variable {κ α β : Type} {inv inner : Memory κ → Prop} {blame more : Fault → Prop}

structure Agree (inv : Memory κ → Prop) (blame : Fault → Prop) (work twin : Resolving κ α) : Prop where
  same : ∀ memory, inv memory → work memory = twin memory
  keeps : ∀ memory, inv memory → inv (work memory).2
  faults : ∀ memory, inv memory → Faults blame (work memory).1

def Upholds (inv : Memory κ → Prop) (blame : Fault → Prop) (work : Resolving κ α) : Prop :=
  Agree inv blame work work

theorem upholdsTwin {work twin : Resolving κ α} (agree : Agree inv blame work twin) :
    Upholds inv blame twin := by
  refine ⟨fun _ _ => rfl, fun memory holds => ?_, fun memory holds => ?_⟩
  · rw [← agree.same memory holds]
    exact agree.keeps memory holds
  · rw [← agree.same memory holds]
    exact agree.faults memory holds

theorem keepsRuns {work : Resolving κ α} {memory later : Memory κ} {a : α} (upholds : Upholds inv blame work)
    (holds : inv memory) (runs : Runs work memory a later) : inv later := by
  have kept := upholds.keeps memory holds
  rw [runs] at kept
  exact kept

theorem agreePure (a : α) : Agree inv blame (pure a) (pure a) :=
  ⟨fun _ _ => rfl, fun _ holds => holds, fun _ _ => faultsOk a⟩

theorem agreeThrow {fault : Fault} (blamed : blame fault) :
    Agree inv blame (throw fault : Resolving κ α) (throw fault) :=
  ⟨fun _ _ => rfl, fun _ holds => holds, fun _ _ => faultsError blamed⟩

theorem agreeBind {work twin : Resolving κ α} {next further : α → Resolving κ β}
    (first : Agree inv blame work twin)
    (rest : ∀ a, (∃ memory later, inv memory ∧ Runs work memory a later) →
      Agree inv blame (next a) (further a)) :
    Agree inv blame (work >>= next) (twin >>= further) := by
  have run : ∀ memory, inv memory → (work >>= next) memory = (twin >>= further) memory ∧
      inv ((work >>= next) memory).2 ∧ Faults blame ((work >>= next) memory).1 := by
    intro memory holds
    have kept := first.keeps memory holds
    have faults := first.faults memory holds
    rw [bindRun, bindRun, ← first.same memory holds]
    cases outcome : (work memory).1 with
    | ok a =>
      have after := rest a ⟨memory, (work memory).2, holds, Prod.ext outcome rfl⟩
      exact ⟨after.same _ kept, after.keeps _ kept, after.faults _ kept⟩
    | error fault => exact ⟨rfl, kept, faultsError (faults fault outcome)⟩
  exact ⟨fun memory holds => (run memory holds).1, fun memory holds => (run memory holds).2.1,
    fun memory holds => (run memory holds).2.2⟩

theorem agreeLift {outcome : Except Fault α} (faults : Faults blame outcome) :
    Agree inv blame (Site.lift outcome) (Site.lift outcome) := by
  cases outcome with
  | ok a => exact agreePure a
  | error fault => exact agreeThrow (faults fault rfl)

theorem agreeLiftBind {outcome : Except Fault α} {next further : α → Resolving κ β}
    (faults : Faults blame outcome) (rest : ∀ a, outcome = .ok a → Agree inv blame (next a) (further a)) :
    Agree inv blame (Site.lift outcome >>= next) (Site.lift outcome >>= further) :=
  agreeBind (agreeLift faults) fun a ⟨_, _, _, runs⟩ => rest a (runsLift.mp runs).1

theorem agreeMono {work twin : Resolving κ α} (agree : Agree inv blame work twin)
    (le : ∀ fault, blame fault → more fault) : Agree inv more work twin :=
  ⟨agree.same, agree.keeps, fun memory holds fault failed => le fault (agree.faults memory holds fault failed)⟩

section

variable {same : κ → κ → Bool} {limit : Int} {source : String} {key : κ} {memory : Memory κ}

theorem guardedRun (work : Option (Resolving κ ParamType)) :
    guarded same limit source key work memory =
      (match memory.find? same key with
      | some type => (.ok type, memory.hit)
      | none => (worked same limit source key work >>= remember key) memory) := by
  have run : guarded same limit source key work memory = (match memory.find? same key with
      | some type => do
        set memory.hit
        pure type
      | none => worked same limit source key work >>= remember key : Resolving κ ParamType) memory := rfl
  rw [run]
  cases memory.find? same key <;> rfl

theorem workedRun (work : Option (Resolving κ ParamType)) :
    worked same limit source key work memory =
      if memory.opened.any (same · key) then (.error (.invalidType (.recursive source)), memory)
      else match work with
        | none => (.error (.unsupported (.resolutionDepth limit source)), memory)
        | some work => ((work (memory.begun key)).1, (work (memory.begun key)).2.ended) := by
  have run : worked same limit source key work memory =
      (if memory.opened.any (same · key) then throw (.invalidType (.recursive source))
        else match work with
          | none => throw (.unsupported (.resolutionDepth limit source))
          | some work => inProgress key work : Resolving κ ParamType) memory := rfl
  rw [run]
  cases memory.opened.any (same · key) <;> cases work <;> rfl

theorem agreeGuarded {works twins : Option (Resolving κ ParamType)}
    (hit : ∀ memory, inv memory → inv memory.hit)
    (again : ∀ memory, inv memory → memory.opened.any (same · key) = true →
      blame (.invalidType (.recursive source)))
    (deep : works = none → blame (.unsupported (.resolutionDepth limit source)))
    (begun : ∀ memory, inv memory → memory.find? same key = none →
      memory.opened.any (same · key) = false → inner (memory.begun key))
    (each : ∀ memory, inv memory → memory.opened.any (same · key) = false →
      Option.Rel (Agree inner blame) works twins)
    (ended : ∀ memory, inner memory → inv memory.ended)
    (learnt : ∀ work before type later, works = some work → inner before → inner later →
      Runs work before type later → inv (later.ended.learnt key type)) :
    Agree inv blame (guarded same limit source key works) (guarded same limit source key twins) := by
  have run : ∀ memory, inv memory →
      guarded same limit source key works memory = guarded same limit source key twins memory ∧
      inv (guarded same limit source key works memory).2 ∧
      Faults blame (guarded same limit source key works memory).1 := by
    intro memory holds
    rw [guardedRun, guardedRun]
    cases missing : memory.find? same key with
    | some type => exact ⟨rfl, hit memory holds, faultsOk type⟩
    | none =>
      dsimp only
      rw [bindRun, bindRun, workedRun, workedRun]
      cases new : memory.opened.any (same · key) with
      | true => exact ⟨rfl, holds, faultsError (again memory holds new)⟩
      | false =>
        cases each memory holds new with
        | none => exact ⟨rfl, holds, faultsError (deep rfl)⟩
        | @some work twin agree =>
          have inside := begun memory holds missing new
          have kept := agree.keeps _ inside
          have faults := agree.faults _ inside
          simp only [Bool.false_eq_true, if_false]
          rw [← agree.same _ inside]
          cases outcome : (work (memory.begun key)).1 with
          | error fault => exact ⟨rfl, ended _ kept, faultsError (faults fault outcome)⟩
          | ok type =>
            have runs : Runs work (memory.begun key) type (work (memory.begun key)).2 := Prod.ext outcome rfl
            exact ⟨rfl, learnt work _ type _ rfl inside kept runs, faultsOk type⟩
  exact ⟨fun memory holds => (run memory holds).1, fun memory holds => (run memory holds).2.1,
    fun memory holds => (run memory holds).2.2⟩

theorem agreeOpened {opened : List κ} {works twins : Option (Resolving κ ParamType)}
    (again : ∀ other ∈ opened, same other key = true → blame (.invalidType (.recursive source)))
    (deep : works = none → blame (.unsupported (.resolutionDepth limit source)))
    (each : (∀ other ∈ opened, same other key = false) →
      Option.Rel (Agree (·.opened = key :: opened) blame) works twins) :
    Agree (·.opened = opened) blame (guarded same limit source key works)
      (guarded same limit source key twins) := by
  have worked : ∀ memory : Memory κ, memory.opened = opened → memory.opened.any (same · key) = false →
      Option.Rel (Agree (·.opened = key :: opened) blame) works twins := by
    rintro memory rfl new
    exact each fun other member => Bool.eq_false_iff.mpr (List.any_eq_false.mp new other member)
  refine agreeGuarded (fun _ holds => holds) ?_ deep ?_ worked ?_ ?_
  · rintro memory rfl present
    obtain ⟨other, member, like⟩ := List.any_eq_true.mp present
    exact again other member like
  · rintro memory rfl _ _
    rfl
  · exact fun memory holds => congrArg List.tail holds
  · exact fun _ _ _ later _ _ holds _ => congrArg List.tail holds

end

end Resolving

namespace Site

open Resolving (Agree Upholds agreePure agreeThrow agreeBind agreeLift)

variable {κ ι : Type} {inv : Memory κ → Prop} {blame : Fault → Prop} {name : ι → String}
  {work twin : ι → Resolving κ ParamType} {source : String} {items : Option (List ι)}
  {arguments : List ParamType} {stand : String → Except Fault ParamType} {expr : TypeExpr}

theorem agreeResolveAll (is : List ι) (each : ∀ item ∈ is, Agree inv blame (work item) (twin item)) :
    Agree inv blame (resolveAll (is.map fun item => (name item, work item)))
      (resolveAll (is.map fun item => (name item, twin item))) := by
  induction is with
  | nil => exact agreePure []
  | cons item is ih =>
    obtain ⟨first, rest⟩ := List.forall_mem_cons.mp each
    exact agreeBind first fun type _ => agreeBind (ih rest) fun types _ => agreePure (type :: types)

inductive Composed (κ : Type) (name : ι → String) (source : String) (items : Option (List ι))
    (arguments : List ParamType) (stand : String → Except Fault ParamType) (expr : TypeExpr) : Prop
  | refuses (fault : Fault) (own : fault.OfNode)
      (works : ∀ work : ι → Resolving κ ParamType,
        (working name work source items arguments stand).build expr = throw fault)
      (settles : ∀ types : List ParamType, types.length = (items.getD []).length →
        (settled name (types.map .ok) source items arguments stand).build expr = .error fault)
  | forms (form : List ParamType → ParamType)
      (works : ∀ work : ι → Resolving κ ParamType,
        (working name work source items arguments stand).build expr =
          resolveAll ((items.getD []).map fun item => (name item, work item)) >>= fun types =>
            pure (form types))

theorem composedWritten (stands : ∀ word, Faults Fault.OfNode (stand word)) {element : TypeExpr} {length : Nat}
    (empty : items = none ∨ items = some []) :
    Composed κ name source items arguments stand (.array element length) := by
  have faults := faultsStandalone (settled name [] source items arguments stand) stands element
  have works : ∀ work : ι → Resolving κ ParamType,
      (working name work source items arguments stand).build (.array element length) =
        lift ((settled name [] source items arguments stand).standalone element >>= fun type =>
          pure (.array type length)) := by
    rcases empty with rfl | rfl
    · exact fun work => arrayUnasked none element length
    · exact fun work => arrayUnasked (some []) element length
  have settles : ∀ types : List ParamType,
      (settled name (types.map .ok) source items arguments stand).build (.array element length) =
        (settled name [] source items arguments stand).standalone element >>= fun type =>
          pure (.array type length) := by
    rcases empty with rfl | rfl
    · exact fun _ => rfl
    · exact fun _ => rfl
  have none : items.getD [] = [] := by
    rcases empty with rfl | rfl <;> rfl
  cases outcome : (settled name [] source items arguments stand).standalone element with
  | ok type =>
    rw [outcome] at works
    refine .forms (fun _ => .array type length) fun work => (works work).trans ?_
    rw [none]
    rfl
  | error fault =>
    rw [outcome] at works settles
    exact .refuses fault (faults fault outcome) works fun types _ => settles types

theorem composedArray (stands : ∀ word, Faults Fault.OfNode (stand word)) {element : TypeExpr} {length : Nat} :
    Composed κ name source items arguments stand (.array element length) := by
  obtain _ | _ | ⟨item, _ | ⟨second, rest⟩⟩ := items
  · exact composedWritten stands (.inl rfl)
  · exact composedWritten stands (.inr rfl)
  · refine .forms (fun types => .array (types.headD (.tuple [])) length) fun work => ?_
    simp [build, working, resolveAll]
  · refine .refuses (.invalidType (.arrayComponents source (rest.length + 2))) trivial (fun work => ?_) ?_
    · simp only [build, working, Option.map_some, List.map_cons, List.length_cons, List.length_map]
    · intro types aligned
      obtain _ | ⟨first, _ | ⟨next, types⟩⟩ := types
      · cases aligned
      · cases aligned
      · have count : types.length = rest.length := Nat.succ.inj (Nat.succ.inj aligned)
        simp only [build, settled, Option.map_some, List.map_cons, List.zip_cons_cons, List.length_cons,
          List.length_map, List.length_zip, count, Nat.min_self]
        rfl

theorem composedTuple {elements : List TypeExpr} :
    Composed κ name source items arguments stand (.tuple elements) := by
  cases items with
  | none => exact .refuses (.invariant (.tupleComponents source)) trivial (fun _ => rfl) fun _ _ => rfl
  | some is =>
    by_cases count : is.length = elements.length
    · refine .forms .tuple fun work => ?_
      rw [buildTuple, if_pos count, Option.getD_some]
    · refine .refuses (.invalidType (.tupleComponents source elements.length is.length)) trivial
        (fun work => ?_) fun types aligned => ?_
      · rw [buildTuple, if_neg count]
      · rw [Option.getD_some] at aligned
        rw [settledTuple aligned, if_neg count]

theorem composedCustom {kind : CustomKind} {word : String} (asked : asks arguments (.custom kind word) = true) :
    Composed κ name source items arguments stand (.custom kind word) := by
  have empty (none : items = none ∨ items = some []) :
      Composed κ name source items arguments stand (.custom kind word) :=
    .refuses (.invalidType (.noComponents source)) trivial (fun _ => customRefused asked none)
      fun types _ => settledRefused asked none _
  obtain _ | _ | ⟨first, rest⟩ := items
  · exact empty (.inl rfl)
  · exact empty (.inr rfl)
  · exact .forms (fun types => kind.type types arguments word ((first :: rest).map name))
      fun _ => buildCustom asked

theorem composed (stands : ∀ word, Faults Fault.OfNode (stand word)) (asked : asks arguments expr = true) :
    Composed κ name source items arguments stand expr := by
  cases expr with
  | array element length => exact composedArray stands
  | tuple elements => exact composedTuple
  | custom kind word => exact composedCustom asked
  | _ => cases asked

theorem agreeBuild (own : ∀ fault, fault.OfNode → blame fault)
    (stands : ∀ word, Faults Fault.OfNode (stand word))
    (each : asks arguments expr = true → ∀ item ∈ items.getD [], Agree inv blame (work item) (twin item)) :
    Agree inv blame ((working name work source items arguments stand).build expr)
      ((working name twin source items arguments stand).build expr) := by
  cases asked : asks arguments expr with
  | false =>
    have faults := faultsUnasked (settled name [] source items arguments stand) stands asked
    rw [buildUnasked asked [], buildUnasked asked []]
    exact agreeLift fun fault failed => own fault (faults fault failed)
  | true =>
    cases composed stands asked with
    | refuses fault ofNode works _ =>
      rw [works work, works twin]
      exact agreeThrow (own fault ofNode)
    | forms form works =>
      rw [works work, works twin]
      exact agreeBind (agreeResolveAll (items.getD []) (each asked)) fun types _ => agreePure (form types)

theorem upholdsBuild {of : ι → ParamType → Prop} {others : List ParamType}
    {meant : String → Except Fault ParamType} {type : ParamType}
    (settles : Settles name of source items arguments stand expr type)
    (alike : Forall₂ ParamType.Alike arguments others) (stands : ∀ word, Follows (stand word) (meant word))
    (own : ∀ word, Faults Fault.OfNode (meant word))
    (each : asks arguments expr = true → ∀ item ∈ items.getD [], Upholds inv blame (work item)) :
    Upholds inv blame ((working name work source items others meant).build expr) := by
  have asks := asksOfLength expr alike.length_eq
  cases asked : Site.asks arguments expr with
  | false =>
    obtain ⟨answers, _, built⟩ := settles
    obtain ⟨twin, builtToo, _⟩ := unaskedFollows asked stands alike answers [] type built
    rw [Upholds, buildUnasked (asks.symm.trans asked) [], builtToo]
    exact agreeLift (faultsOk twin)
  | true =>
    obtain ⟨types, answers, built⟩ := settlesTypes settles asked
    have aligned := answers.length_eq.symm
    obtain ⟨twin, builtToo, _⟩ :=
      settledFollows stands alike (List.forall₂_same.mpr fun _ _ => rfl) aligned type built
    cases composed own (asks.symm.trans asked) with
    | refuses fault _ _ refused =>
      rw [refused types aligned] at builtToo
      cases builtToo
    | forms form works =>
      rw [Upholds, works work]
      exact agreeBind (agreeResolveAll (items.getD []) (each asked)) fun types _ => agreePure (form types)

end Site

end WordAbi
