import WordAbi.Proofs.Schema.Flat.Recall
import WordAbi.Proofs.Schema.Replay
/-! Resolution of a declared type that is tried again. Main statement: an application that has no type is
refused a second time with the same fault, although the resolver has learnt what it found before the fault. -/
namespace WordAbi.Declarations

open Resolving (Replays Fails replaysPure replaysThrow replaysBind replaysLiftBind replaysGuarded)

section

variable [Host]

def parameter (table : Declarations) (id : Int) : Bool :=
  match find table id with
  | .ok d =>
    match TypeExpr.ofDatum d.typeField with
    | .ok (.generic _) => true
    | _ => false
  | .error _ => false

mutual

/-- How many applications are looked up for one of which the type is known: itself and its arguments, but
nothing for generic parameters. -/
def lookups (table : Declarations) : TypeApplication → Nat
  | .mk _ id applied => if parameter table id then 0 else allLookups table applied + 1

def allLookups (table : Declarations) : List TypeApplication → Nat
  | [] => 0
  | a :: as => lookups table a + allLookups table as

end

theorem allLookupsEq (table : Declarations) (as : List TypeApplication) :
    allLookups table as = (as.map (lookups table)).sum := by
  induction as with
  | nil => rfl
  | cons a as ih => rw [allLookups, ih, List.map_cons, List.sum_cons]

theorem parameterOf {table : Declarations} {id : Int} {d : TypeDeclaration} {expr : TypeExpr}
    (node : Node table id d expr) : parameter table id = true ↔ ∃ word, expr = .generic word := by
  rw [parameter, node.found]
  dsimp only
  rw [node.reads]
  cases expr <;> simp

def recognition : Recognition Key (Int × List ParamType × (Int → Option ParamType)) :=
  ⟨Key.same, Key.Once, Key.outline, sameIffOutline⟩

variable {table : Declarations} {limit : Int} {room : Nat} {bindings : Bindings Int}

theorem replaysKey {key : Key} (once : key.Once) {d : TypeDeclaration} {expr : TypeExpr}
    (below : ∀ less, room = less + 1 → ∀ c, ∃ n,
      Replays recognition n (resolverIn table (Resolving.guarded Key.same limit) less c key.bindings)) :
    Replays recognition 1 (Resolving.guarded Key.same limit d.typeField.display key
      (workFor table (Resolving.guarded Key.same limit) room d key expr)) := by
  refine @replaysGuarded _ _ recognition _ _ _ _ once fun work given => ?_
  obtain ⟨resolver, deeper, rfl⟩ := Option.map_eq_some_iff.mp given
  cases room with
  | zero => cases deeper
  | succ less =>
    cases deeper
    exact Site.replaysBuild (fun word => faultsSubstitute table _ word _) fun _ c _ => below less rfl c

theorem replaysIn (once : (Table.keys bindings).Nodup) (a : TypeApplication) :
    Replays recognition (lookups table a)
      (resolverIn table (Resolving.guarded Key.same limit) room a bindings) := by
  induction room, a using TypeApplication.inductionInRoom generalizing bindings with
  | node room name id applied arguments below =>
    rw [resolverInNode, node]
    refine replaysLiftBind fun d found => replaysLiftBind fun expr reads => ?_
    have declared : Node table id d expr := ⟨found, reads⟩
    dsimp only
    split
    · rename_i word
      rw [lookups, if_pos ((parameterOf declared).mpr ⟨word, rfl⟩)]
      cases Table.get? bindings d.typeId with
      | some type => exact replaysPure type
      | none => exact replaysThrow 0 _
    · rename_i plain
      have looked : parameter table id = false := Bool.eq_false_iff.mpr fun absurd => by
        obtain ⟨word, rfl⟩ := (parameterOf declared).mp absurd
        exact plain word rfl
      rw [lookups, looked, if_neg (by decide), allLookupsEq]
      refine replaysBind (Site.replaysResolveAll (lookups table) applied fun a member => arguments a member once)
        fun types => ?_
      split
      · exact replaysThrow 1 _
      · have inner : (ownKey d types bindings).Once := Bindings.nodupExtend once
        exact replaysKey inner fun less same c => ⟨_, below less same c inner⟩

theorem keptUnder (table : Declarations) (limit : Int) {history : List (TypeApplication × Bindings Int)}
    (once : ∀ step ∈ history, (Table.keys step.2).Nodup) :
    Memory.empty.Kept recognition (memoryUnder table limit history) :=
  Memory.keptAsking (fun step member => replaysIn (once step member) step.1) Memory.tidyEmpty

/-- Whatever a resolver was asked for before: an application that it refuses is refused again with the same
fault when it is asked for at once a second time, and nothing more is learnt from that. -/
theorem resolveRetried (table : Declarations) (limit : Int) {history : List (TypeApplication × Bindings Int)}
    (onces : ∀ step ∈ history, (Table.keys step.2).Nodup) (a : TypeApplication) {bindings : Bindings Int}
    (once : (Table.keys bindings).Nodup) {fault : Fault} :
    let resolve := resolveUnder table limit a bindings
    let first := resolve (memoryUnder table limit history)
    let second := resolve first.2
    first.1 = .error fault →
      second.1 = .error fault ∧ second.2.known = first.2.known ∧ second.2.opened = first.2.opened := by
  intro resolve first second failed
  have tidy := (keptUnder table limit onces).tidy
  have replays : Replays recognition (lookups table a) resolve := replaysIn once a
  have fails : Fails resolve (memoryUnder table limit history) fault first.2 := Prod.ext failed rfl
  obtain ⟨times, relapsed⟩ := replays.relapses tidy fails rfl (replays.keeps tidy).opened
  have same : second = (.error fault, first.2.hitTimes times) := relapsed
  rw [same]
  exact ⟨rfl, rfl, rfl⟩

end

theorem resolveRetriedRecursive :
    let table := ofList [⟨0, .str "u64", none, []⟩, ⟨1, .str "struct Foo", some [.mk "x" 0 []], []⟩,
      ⟨2, .str "struct Bar", some [.mk "foo" 1 [], .mk "bar" 2 []], []⟩]
    let resolve := resolveUnder table 8 (.mk "" 2 []) []
    let first := resolve (memoryUnder table 8 [])
    let second := resolve first.2
    Outcome.Recursive first.1 ∧ first.2.known.length = 2 ∧ second.1 = first.1 ∧ second.2.hits = 1 := by
  intro table resolve first second
  have recursive : Outcome.Recursive first.1 := by
    dsimp only [first, resolve, table]
    decide +kernel
  have learnt : first.2.known.length = 2 ∧ second.2.hits = 1 := by
    dsimp only [second, first, resolve, table]
    decide +kernel
  obtain ⟨source, failed⟩ := recursive
  have again := resolveRetried table 8 (List.forall_mem_nil _) (.mk "" 2 []) onceUnbound failed
  exact ⟨⟨source, failed⟩, learnt.1, again.1.trans failed.symm, learnt.2⟩

end WordAbi.Declarations
