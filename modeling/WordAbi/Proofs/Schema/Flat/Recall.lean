import Mathlib.Data.List.Find
import WordAbi.Proofs.Schema.Flat.Termination
/-! A resolver of declared types forgets nothing. Main statement: what it has found for an application it
finds again, with the same names throughout and from what it knows alone, whatever it was asked for in
between and whether or not it found that. -/
namespace WordAbi

open Resolving (Agree Upholds Runs agreeGuarded keepsRuns runsPure runsBind runsLift runsThrow runsGuarded)

theorem Resolving.upholdsAnd {κ α : Type} {inv : Memory κ → Prop} {blame : Fault → Prop} {work : Resolving κ α}
    {fixed : Prop} (upholds : Upholds inv blame work) : Upholds (fun memory => inv memory ∧ fixed) blame work :=
  ⟨fun _ _ => rfl, fun memory holds => ⟨upholds.keeps memory holds.1, holds.2⟩,
    fun memory holds => upholds.faults memory holds.1⟩

namespace Declarations

variable {table : Declarations} {limit : Int} {room : Nat} {bindings : Bindings Int}
  {start memory later : Memory Key} {key other : Key} {type : ParamType}

def Key.outline (key : Key) : Int × List ParamType × (Int → Option ParamType) :=
  (key.typeId, ParamType.shapes key.arguments, key.bindings.shapes)

def Key.Once (key : Key) : Prop := (Table.keys key.bindings).Nodup

theorem sameIffOutline (once : key.Once) (onceToo : other.Once) :
    key.same other = true ↔ key.outline = other.outline := by
  simp only [Key.same, Key.outline, Prod.mk.injEq, Bool.and_eq_true, beq_iff_eq, and_assoc,
    ParamType.sameListIff, Bindings.sameIffShapes once onceToo]

def Keyed (memory : Memory Key) : Prop := memory.Keeps fun key _ => key.Once

theorem findOfSame (keyed : Keyed memory) (once : key.Once) (onceToo : other.Once)
    (same : key.same other = true) : memory.find? Key.same key = memory.find? Key.same other := by
  have alike := (sameIffOutline once onceToo).mp same
  have each : ∀ entry ∈ memory.known, entry.1.same key = entry.1.same other := by
    intro entry member
    have own := keyed entry.1 entry.2 member
    rw [Bool.eq_iff_iff, sameIffOutline own once, sameIffOutline own onceToo, alike]
  rw [Memory.find?, Memory.find?, List.find?_congr each]

theorem findLearnt : (memory.ended.learnt other type).find? Key.same key =
    if other.same key then some type else memory.find? Key.same key := by
  simp only [Memory.find?, Memory.learnt, Memory.ended, List.find?_cons]
  cases other.same key <;> rfl

structure Recalls (start memory : Memory Key) : Prop where
  keyed : Keyed memory
  found : ∀ {key type}, key.Once → start.find? Key.same key = some type → memory.find? Key.same key = some type

theorem recallsRefl (keyed : Keyed memory) : Recalls memory memory := ⟨keyed, fun _ found => found⟩

theorem recallsTrans (one : Recalls start memory) (two : Recalls memory later) : Recalls start later :=
  ⟨two.keyed, fun once found => two.found once (one.found once found)⟩

theorem recallsLearnt (keyed : Keyed start) (recalls : Recalls start memory) (once : key.Once)
    (new : start.find? Key.same key = none) : Recalls start (memory.ended.learnt key type) := by
  refine ⟨fun other found member => ?_, fun {other found} onceToo there => ?_⟩
  · rcases List.mem_cons.mp member with same | member
    · cases same
      exact once
    · exact recalls.keyed other found member
  · rw [findLearnt]
    split
    · rename_i same
      rw [← findOfSame keyed once onceToo same, new] at there
      cases there
    · exact recalls.found onceToo there

theorem upholdsKey (keyed : Keyed start) (once : key.Once) {source : String}
    {works : Option (Resolving Key ParamType)}
    (each : ∀ work, works = some work → Upholds (Recalls start) (fun _ => True) work) :
    Upholds (Recalls start) (fun _ => True) (Resolving.guarded Key.same limit source key works) := by
  -- a key is worked on only when it was not known at the start
  have inside : ∀ memory, Recalls start memory → memory.opened.any (Key.same · key) = false →
      Option.Rel (Agree (fun memory => Recalls start memory ∧ start.find? Key.same key = none) fun _ => True)
        works works := by
    intro _ _ _
    cases given : works with
    | none => exact .none
    | some work => exact .some (Resolving.upholdsAnd (each work given))
  refine agreeGuarded ?_ (fun _ _ _ => trivial) (fun _ => trivial) ?_ inside ?_ ?_
  · exact fun memory recalls => ⟨recalls.keyed, recalls.found⟩
  · refine fun memory recalls missing _ => ⟨⟨recalls.keyed, recalls.found⟩, ?_⟩
    refine Option.eq_none_iff_forall_ne_some.mpr fun type found => ?_
    rw [recalls.found once found] at missing
    cases missing
  · exact fun memory holds => ⟨holds.1.keyed, holds.1.found⟩
  · exact fun _ _ _ _ _ _ holds _ => recallsLearnt keyed holds.1 once holds.2

theorem findGuarded {source : String} {work : Option (Resolving Key ParamType)} (once : key.Once)
    (runs : Runs (Resolving.guarded Key.same limit source key work) memory type later) :
    later.find? Key.same key = some type := by
  rcases runsGuarded.mp runs with ⟨found, rfl⟩ | ⟨_, _, _, between, _, _, rfl⟩
  · exact found
  · rw [findLearnt, if_pos ((sameIffOutline once once).mpr rfl)]

theorem recallsKnown {last : Memory Key} (recalls : Recalls start memory) (known : last.known = memory.known) :
    Recalls start last := by
  refine ⟨?_, fun once found => ?_⟩
  · rw [Keyed, Memory.Keeps, known]
    exact recalls.keyed
  · rw [Memory.find?, known]
    exact recalls.found once found

theorem onceUnbound : (Table.keys ([] : Bindings Int)).Nodup := List.nodup_nil

variable [Host]

theorem upholdsGuarded (keyed : Keyed start) (once : key.Once) {d : TypeDeclaration} {expr : TypeExpr}
    (below : ∀ less, room = less + 1 → ∀ c, Upholds (Recalls start) (fun _ => True)
      (resolverIn table (Resolving.guarded Key.same limit) less c key.bindings)) :
    Upholds (Recalls start) (fun _ => True) (Resolving.guarded Key.same limit d.typeField.display key
      (workFor table (Resolving.guarded Key.same limit) room d key expr)) := by
  refine upholdsKey keyed once fun work given => ?_
  obtain ⟨resolver, deeper, rfl⟩ := Option.map_eq_some_iff.mp given
  cases room with
  | zero => cases deeper
  | succ less =>
    cases deeper
    exact Site.agreeBuild (fun _ _ => trivial) (fun word => faultsSubstitute table _ word _)
      fun _ c _ => below less rfl c

theorem upholdsRecalls (keyed : Keyed start) (once : (Table.keys bindings).Nodup) (a : TypeApplication) :
    Upholds (Recalls start) (fun _ => True)
      (resolverIn table (Resolving.guarded Key.same limit) room a bindings) := by
  induction room, a using TypeApplication.inductionInRoom generalizing bindings with
  | node room name id applied arguments below =>
    rw [resolverInNode]
    refine agreeNode (fun _ _ => trivial) (fun _ _ _ => trivial) (fun a member => arguments a member once)
      fun d expr types _ _ _ _ => ?_
    have inner : (ownKey d types bindings).Once := Bindings.nodupExtend once
    exact upholdsGuarded keyed inner fun less same c => below less same c inner

theorem recallsAll (keyed : Keyed memory) (once : (Table.keys bindings).Nodup) {as : List TypeApplication}
    {types : List ParamType}
    (runs : Runs (Site.resolveAll (as.map fun a => (a.name,
      resolverIn table (Resolving.guarded Key.same limit) room a bindings))) memory types later) :
    Recalls memory later :=
  keepsRuns (Site.agreeResolveAll as fun a _ => upholdsRecalls keyed once a) (recallsRefl keyed) runs

theorem runsBound {guard : Guard} {name : String} {id : Int} {applied : List TypeApplication} {d : TypeDeclaration}
    {word : String} (node : Node table id d (.generic word)) (indexed : Indexed table)
    (bound : Table.get? bindings id = some type) :
    Runs (resolverIn table guard room (.mk name id applied) bindings) memory type memory := by
  rw [resolverInNode, Declarations.node]
  refine runsBind.mpr ⟨d, memory, runsLift.mpr ⟨node.found, rfl⟩, ?_⟩
  refine runsBind.mpr ⟨_, memory, runsLift.mpr ⟨node.reads, rfl⟩, ?_⟩
  dsimp only
  rw [indexed id d node.found, bound]
  exact runsPure.mpr ⟨rfl, rfl⟩

theorem runsApplied {guard : Guard} {name : String} {id : Int} {applied : List TypeApplication}
    {d : TypeDeclaration} {expr : TypeExpr} {types : List ParamType} {between : Memory Key}
    (node : Node table id d expr) (plain : expr.Plain)
    (arguments : Runs (Site.resolveAll (applied.map fun a => (a.name, resolverIn table guard room a bindings)))
      memory types between)
    (arity : d.typeParameters.length = types.length)
    (runs : Runs (guard d.typeField.display (ownKey d types bindings)
      (workFor table guard room d (ownKey d types bindings) expr)) between type later) :
    Runs (resolverIn table guard room (.mk name id applied) bindings) memory type later := by
  rw [resolverInNode, Declarations.node]
  refine runsBind.mpr ⟨d, memory, runsLift.mpr ⟨node.found, rfl⟩, ?_⟩
  refine runsBind.mpr ⟨expr, memory, runsLift.mpr ⟨node.reads, rfl⟩, ?_⟩
  dsimp only
  split
  · exact absurd rfl (plain _)
  · refine runsBind.mpr ⟨types, between, arguments, ?_⟩
    rw [if_neg (not_not_intro arity)]
    exact runs

def Again {α : Type} (work : Resolving Key α) (start : Memory Key) (a : α) : Prop :=
  ∃ last, Runs work start a last ∧ last.known = start.known

def Recurs (table : Declarations) (limit : Int) (room : Nat) (bindings : Bindings Int) (a : TypeApplication) :
    Prop :=
  ∀ {memory later start type}, Keyed memory →
    Runs (resolverIn table (Resolving.guarded Key.same limit) room a bindings) memory type later →
    Recalls later start → Again (resolverIn table (Resolving.guarded Key.same limit) room a bindings) start type

theorem againAll (once : (Table.keys bindings).Nodup) {as : List TypeApplication} {types : List ParamType}
    (each : ∀ a ∈ as, Recurs table limit room bindings a) (keyed : Keyed memory)
    (runs : Runs (Site.resolveAll (as.map fun a => (a.name,
      resolverIn table (Resolving.guarded Key.same limit) room a bindings))) memory types later)
    (recalls : Recalls later start) :
    Again (Site.resolveAll (as.map fun a => (a.name,
      resolverIn table (Resolving.guarded Key.same limit) room a bindings))) start types := by
  induction as generalizing memory types start with
  | nil =>
    obtain ⟨rfl, _⟩ := Site.runsResolveAllNil.mp runs
    exact ⟨start, Site.runsResolveAllNil.mpr ⟨rfl, rfl⟩, rfl⟩
  | cons a as ih =>
    obtain ⟨type, between, types, first, rest, rfl⟩ := Site.runsResolveAllCons.mp runs
    obtain ⟨here, others⟩ := List.forall_mem_cons.mp each
    have keyedToo := (keepsRuns (upholdsRecalls keyed once a) (recallsRefl keyed) first).keyed
    obtain ⟨next, again, known⟩ := here keyed first (recallsTrans (recallsAll keyedToo once rest) recalls)
    obtain ⟨last, againToo, knownToo⟩ := ih others keyedToo rest (recallsKnown recalls known)
    exact ⟨last, Site.runsResolveAllCons.mpr ⟨type, next, types, again, againToo, rfl⟩, knownToo.trans known⟩

theorem recurs (indexed : Indexed table) (once : (Table.keys bindings).Nodup) (a : TypeApplication) :
    Recurs table limit room bindings a := by
  induction room, a using TypeApplication.inductionInRoom with
  | node room name id applied each _ =>
    intro memory later start type keyed runs recalls
    rcases runsCases indexed runs with
      ⟨d, word, node, bound, rfl⟩ | ⟨d, expr, types, between, node, plain, arguments, arity, guarded⟩
    · exact ⟨start, runsBound node indexed bound, rfl⟩
    · have inner : (ownKey d types bindings).Once := Bindings.nodupExtend once
      have keyedToo := (recallsAll keyed once arguments).keyed
      have rest : Recalls between later := keepsRuns
        (upholdsGuarded keyedToo inner fun _ _ c => upholdsRecalls keyedToo inner c) (recallsRefl keyedToo) guarded
      obtain ⟨last, again, known⟩ := againAll once each keyed arguments (recallsTrans rest recalls)
      have found := (recallsKnown recalls known).found inner (findGuarded inner guarded)
      exact ⟨last.hit, runsApplied node plain again arity (runsGuarded.mpr (.inl ⟨found, rfl⟩)), known⟩

theorem resolveAllEq (table : Declarations) (limit : Int) (as : List TypeApplication) :
    resolveAll table limit as = Site.resolveAll (as.map fun a => (a.name, resolve table limit a)) := by
  induction as with
  | nil => rfl
  | cons a as ih =>
    rw [resolveAll, ih]
    rfl

def memoryFrom (table : Declarations) (limit : Int) (memory : Memory Key) (asked : List TypeApplication) :
    Memory Key :=
  asked.foldl (fun memory a => (resolve table limit a memory).2) memory

theorem recallsFrom (table : Declarations) (limit : Int) (keyed : Keyed memory) (asked : List TypeApplication) :
    Recalls memory (memoryFrom table limit memory asked) := by
  refine List.foldlRecOn (motive := Recalls memory) asked _ (recallsRefl keyed) fun between recalls a _ => ?_
  exact (upholdsRecalls keyed onceUnbound a).keeps between recalls

theorem keyedAfter (table : Declarations) (limit : Int) (history : List TypeApplication) :
    Keyed (memoryAfter table limit history) :=
  (recallsFrom table limit Memory.keepsEmpty history).keyed

theorem resolveAllAgain (indexed : Indexed table) (keyed : Keyed memory) {as : List TypeApplication}
    {types : List ParamType} (resolved : Runs (resolveAll table limit as) memory types later)
    (asked : List TypeApplication) :
    Again (resolveAll table limit as) (memoryFrom table limit later asked) types := by
  rw [resolveAllEq] at resolved ⊢
  have keyedToo := (recallsAll keyed onceUnbound resolved).keyed
  exact againAll onceUnbound (fun a _ => recurs indexed onceUnbound a) keyed resolved
    (recallsFrom table limit keyedToo asked)

end Declarations

end WordAbi
