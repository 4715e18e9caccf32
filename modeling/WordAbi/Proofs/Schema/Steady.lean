import WordAbi.Proofs.ParamType.Equality
import WordAbi.Proofs.Schema.Flat.Retry
import WordAbi.Proofs.Schema.Inline.Recall
/-! What resolvers of both sorts keep to however often they are asked, and whether or not they find types.
Main statement: nothing is left in progress, what is remembered stays as it is, and a node with a type is
found again by as many lookups as it has nodes to look up. -/
namespace WordAbi

open Resolving (Runs Replays runsGuarded)

section

variable {κ ω ν : Type} {sense : Recognition κ ω} {ask : ν → Resolving κ ParamType} {lookups : ν → Nat}
  {allowed : ν → Prop} {memory : Memory κ} {steps : List ν}

/-- However a resolver is asked: nothing is left in progress, everything that is known stays known as it is,
and a node with a type has that type again, which is known, and of which nothing is learnt but that it was
looked up. -/
structure Steady (same : κ → κ → Bool) (ask : ν → Resolving κ ParamType) (plain : ν → Prop) (lookups : ν → Nat)
    (history more : List ν) : Prop where
  idle : (Memory.empty.afterAsking ask history).opened = []
  known : (Memory.empty.afterAsking ask history).known <:+ (Memory.empty.afterAsking ask (history ++ more)).known
  found : ∀ key type, (key, type) ∈ (Memory.empty.afterAsking ask history).known →
    (Memory.empty.afterAsking ask (history ++ more)).find? same key = some type
  again : ∀ step type, plain step → (ask step (Memory.empty.afterAsking ask history)).1 = .ok type →
    let later := Memory.empty.afterAsking ask (history ++ step :: more)
    (∃ key, (key, type) ∈ later.known) ∧ ask step later = (.ok type, later.hitTimes (lookups step))

theorem steadyOfReplays (sense : Recognition κ ω)
    (replays : ∀ step, allowed step → Replays sense (lookups step) (ask step))
    {plain : ν → Prop} (remembers : ∀ step, plain step → ∀ memory type later,
      Runs (ask step) memory type later → ∃ key, (key, type) ∈ later.known)
    {history more : List ν} (each : ∀ step ∈ history ++ more, allowed step) :
    Steady sense.same ask (fun step => allowed step ∧ plain step) lookups history more := by
  obtain ⟨before, after⟩ := List.forall_mem_append.mp each
  have tidy : (Memory.empty : Memory κ).Tidy sense := Memory.tidyEmpty
  have kept := Memory.keptAsking (fun step member => replays step (before step member)) tidy
  have keptToo := Memory.keptAsking (fun step member => replays step (after step member)) kept.tidy
  refine ⟨kept.opened, ?_, fun key type member => ?_, fun step type ⟨fine, plain⟩ resolved => ?_⟩
  · rw [Memory.askingAppend]
    exact keptToo.known
  · rw [Memory.askingAppend]
    exact Memory.findOfMem keptToo.tidy (Memory.validKnown kept.tidy member) (keptToo.known.subset member) rfl
  · have runs : Runs (ask step) (Memory.empty.afterAsking ask history) type _ := Prod.ext resolved rfl
    have keptStep := (replays step fine).keeps kept.tidy
    have keptLast := Memory.keptAsking (fun other member => replays other (after other member)) keptStep.tidy
    obtain ⟨key, member⟩ := remembers step plain _ _ _ runs
    rw [Memory.askingAppend]
    exact ⟨⟨key, keptLast.known.subset member⟩,
      (replays step fine).repeats kept.tidy runs (Memory.keptWithin keptStep.tidy keptLast)⟩

end

theorem knownOfGuarded {κ : Type} {same : κ → κ → Bool} {limit : Int} {source : String} {key : κ}
    {works : Option (Resolving κ ParamType)} {memory later : Memory κ} {type : ParamType}
    (runs : Runs (Resolving.guarded same limit source key works) memory type later) :
    ∃ other, (other, type) ∈ later.known := by
  rcases runsGuarded.mp runs with ⟨found, rfl⟩ | ⟨_, _, _, _, _, _, rfl⟩
  · obtain ⟨other, member, _⟩ := Memory.memOfFind found
    exact ⟨other, member⟩
  · exact ⟨key, List.mem_cons_self⟩

section

variable [Host]

theorem Property.knownOfPlain {limit : Int} {room : Nat} {p : Property} {bindings : Bindings String}
    {memory later : Memory Key} {type : ParamType} (plain : isParameter p.typeField = false)
    (runs : Runs (resolveIn limit room p bindings) memory type later) : ∃ key, (key, type) ∈ later.known := by
  obtain ⟨name, typeField, cs, as, ps⟩ := p
  rcases runsIn.mp runs with ⟨word, reads, _⟩ | ⟨_, _, _, _, _, _, _, _, guarded⟩
  · have parameter := (isParameterIff reads).mpr ⟨word, rfl⟩
    exact absurd parameter (Bool.eq_false_iff.mp plain)
  · exact knownOfGuarded guarded

theorem Declarations.knownOfPlain {table : Declarations} (indexed : Indexed table) {limit : Int} {room : Nat}
    {a : TypeApplication} {bindings : Bindings Int} {memory later : Memory Key} {type : ParamType}
    (plain : parameter table a.typeId = false)
    (runs : Runs (resolverIn table (Resolving.guarded Key.same limit) room a bindings) memory type later) :
    ∃ key, (key, type) ∈ later.known := by
  obtain ⟨name, id, applied⟩ := a
  rcases runsCases indexed runs with ⟨_, word, node, _⟩ | ⟨_, _, _, _, _, _, _, _, guarded⟩
  · have declared := (parameterOf node).mpr ⟨word, rfl⟩
    exact absurd declared (Bool.eq_false_iff.mp plain)
  · exact knownOfGuarded guarded

/-- Resolvers of inline nodes and of declared types, asked for anything under any bindings, keep to this; the
nodes that are found again are those that are no generic parameters. -/
theorem resolversSteady (limit : Int) :
    (∀ history more : List (Property × Bindings String),
      (∀ step ∈ history ++ more, step.1.Textual ∧ (Table.keys step.2).Nodup) →
      Steady Property.Key.same (fun step => Property.resolve limit step.1 step.2)
        (fun step => (step.1.Textual ∧ (Table.keys step.2).Nodup) ∧
          Property.isParameter step.1.typeField = false)
        (fun step => step.1.lookups) history more) ∧
    ∀ (declarations : List TypeDeclaration) (history more : List (TypeApplication × Bindings Int)),
      (∀ step ∈ history ++ more, (Table.keys step.2).Nodup) →
      let table := Declarations.ofList declarations
      Steady Declarations.Key.same (fun step => Declarations.resolveUnder table limit step.1 step.2)
        (fun step => (Table.keys step.2).Nodup ∧ Declarations.parameter table step.1.typeId = false)
        (fun step => Declarations.lookups table step.1) history more := by
  refine ⟨fun history more each => ?_, fun declarations history more each => ?_⟩
  · exact steadyOfReplays Property.recognition
      (fun step fine => Property.replayed limit step.1 fine.1 _ fine.2)
      (fun step plain memory type later runs => Property.knownOfPlain plain runs) each
  · exact steadyOfReplays Declarations.recognition
      (fun step once => Declarations.replaysIn once step.1)
      (fun step plain memory type later runs =>
        Declarations.knownOfPlain (Declarations.indexedOfList declarations) plain runs) each

end

theorem resolversSteadyBoxes :
    let plain := fun text => Property.mk "" (.str text) none none none
    let box := fun a => Property.mk "" (.str "struct Box") (some [plain "generic T"]) (some [a]) (some ["T"])
    let resolve := fun step : Property × Bindings String => Property.resolve 8 step.1 step.2
    let history := [(box (plain "str"), [])]
    let later := Memory.empty.afterAsking resolve (history ++ [(box (box (plain "u64")), []), (plain "bool", [])])
    let table := Declarations.ofList [⟨0, .str "u64", none, []⟩, ⟨1, .str "generic T", none, []⟩,
      ⟨2, .str "struct Box", some [.mk "" 1 []], [1]⟩]
    let declared := fun step : TypeApplication × Bindings Int => Declarations.resolveUnder table 8 step.1 step.2
    let nested : TypeApplication × Bindings Int := (.mk "" 2 [.mk "" 2 [.mk "" 0 []]], [])
    let after := Memory.empty.afterAsking declared [nested]
    let boxed := fun type => ParamType.struct [type] [type] "Box" [""]
    let type := boxed (boxed (.primitive .u64))
    resolve (box (box (plain "u64")), []) later = (.ok type, later.hitTimes 3) ∧
      declared nested after = (.ok type, after.hitTimes 3) := by
  intro plain box resolve history later table declared nested after boxed type
  have textual : ∀ step ∈ history ++ [(plain "bool", [])], step.1.Textual ∧ (Table.keys step.2).Nodup := by
    simp [history, box, plain, Property.Textual, Property.OptionTextual, Property.AllTextual, Table.keys]
  have fine : (box (box (plain "u64"))).Textual := by
    simp [box, plain, Property.Textual, Property.OptionTextual, Property.AllTextual]
  have first : (resolve (box (box (plain "u64")), []) (Memory.empty.afterAsking resolve history)).1 = .ok type := by
    dsimp only [resolve, history, box, plain, type, boxed]
    decide +kernel
  have second : (declared nested Memory.empty).1 = .ok type := by
    dsimp only [declared, nested, table, type, boxed]
    decide +kernel
  have inline := ((resolversSteady 8).1 history [(plain "bool", [])] textual).again (box (box (plain "u64")), []) type
    ⟨⟨fine, List.nodup_nil⟩, by rfl⟩ first
  have flat := ((resolversSteady 8).2 _ [] [] (List.forall_mem_nil _)).again nested type
    ⟨List.nodup_nil, by rfl⟩ second
  exact ⟨inline.2, flat.2⟩

namespace Property

section

variable [Host]

mutual

def plainNodes : Property → Nat
  | mk _ typeField _ typeArguments _ =>
    (if isParameter typeField then 0 else 1) + optionPlainNodes typeArguments

def optionPlainNodes : Option (List Property) → Nat
  | none => 0
  | some ps => allPlainNodes ps

def allPlainNodes : List Property → Nat
  | [] => 0
  | p :: ps => plainNodes p + allPlainNodes ps

end

end

theorem argumentOfParameterUnseen :
    let plain := fun text => mk "" (.str text) none none none
    let node := mk "" (.str "struct Foo") (some [plain "u64"])
      (some [mk "" (.str "generic T") none (some [plain "u64"]) none]) none
    let resolve := resolve 8 node [("T", .primitive .bool)]
    let first := resolve Memory.empty
    let second := resolve first.2
    let type := ParamType.struct [.primitive .u64] [.primitive .bool] "Foo" [""]
    isParameter node.typeField = false ∧ node.plainNodes = 2 ∧ first.1 = .ok type ∧ second.1 = .ok type ∧
      second.2.hits = first.2.hits + 1 ∧ second.2.hits ≠ first.2.hits + node.plainNodes := by
  intro plain node resolve first second type
  have nodes : isParameter node.typeField = false ∧ node.plainNodes = 2 := by
    dsimp only [node, plain]
    decide +kernel
  have found : first.1 = .ok type ∧ second.1 = .ok type ∧ second.2.hits = first.2.hits + 1 := by
    dsimp only [second, first, resolve, node, plain, type]
    decide +kernel
  obtain ⟨parameter, count⟩ := nodes
  obtain ⟨one, two, hits⟩ := found
  refine ⟨parameter, count, one, two, hits, ?_⟩
  rw [hits, count]
  omega

end Property

end WordAbi
