import WordAbi.Proofs.ParamType.Equality
import WordAbi.Proofs.Schema.Inline.Attainable
/-! A resolver of inline nodes that is shared finds types of the same shapes as one that is new. What the
shared one knows covers what the new one comes to know, so that where the new one works, the other works
too, or finds the type of something that it knows with all that is below. -/
namespace WordAbi.Property

open Declarations (Extends Within withinAfter withinBegun guardedKnown guardedUnknown)
open List (Forall₂)
open ParamType (Alike)
open Resolving (Runs runsGuarded ensuresRuns keepsRuns)

theorem withinEmpty (size : Nat) : Within size Memory.empty := List.forall_mem_nil _

section

variable [Host]

def knownAccount (known : Kind → Prop) (closed : Closed known) : Account where
  allows p bindings := (p.Textual ∧ (Table.keys bindings).Nodup) ∧ Complete known p bindings.shapes
  of p bindings type := p.Means bindings.shapes type
  meets key := key.Told ∧ known key.kind
  found key type := key.kind.meaning = some type.shape
  bound := meaningAccount.bound
  argument allowed reads plain a member :=
    ⟨meaningAccount.argument allowed.1 reads plain a member,
      fun kind needs => allowed.2 kind (.argument reads plain member needs)⟩
  applied := by
    intro name typeField cs as ps expr types bindings allowed reads plain each arity has
    obtain ⟨told, means⟩ := meaningAccount.applied allowed.1 reads plain each arity has
    refine ⟨⟨told, ?_⟩, means⟩
    rw [kindOwnKey]
    exact allowed.2 _ (.own reads plain each)
  component := by
    intro key expr meets reads asked c member
    refine ⟨meaningAccount.component meets.1 reads asked c member, ?_⟩
    exact closed _ meets.2 expr reads ((Site.asksShapes key.arguments expr).trans asked) c member
  settled meets := meaningAccount.settled meets.1
  shared meets meetsToo := meaningAccount.shared meets.1 meetsToo.1

theorem keepsKnown {known : Kind → Prop} (closed : Closed known) {memory : Memory Key} :
    memory.Keeps (knownAccount known closed).known ↔
      memory.Keeps meaningAccount.known ∧ ∀ kind, memory.Knows kind → known kind := by
  constructor
  · intro keeps
    refine ⟨fun key type member => ?_, ?_⟩
    · obtain ⟨⟨told, _⟩, meaning⟩ := keeps key type member
      exact ⟨told, meaning⟩
    · rintro _ ⟨key, type, member, rfl⟩
      exact (keeps key type member).1.2
  · rintro ⟨keeps, covered⟩ key type member
    obtain ⟨told, meaning⟩ := keeps key type member
    exact ⟨⟨told, covered _ ⟨key, type, member, rfl⟩⟩, meaning⟩

structure Covers (memory ahead : Memory Key) : Prop where
  meanings : memory.Keeps meaningAccount.known
  good : Good ahead
  more : ∀ kind, memory.Knows kind → ahead.Knows kind

variable {limit : Int} {room : Nat} {memory later ahead after : Memory Key} {bindings own : Bindings String}
  {type twin : ParamType} {expr : TypeExpr}

structure Paired (bindings own : Bindings String) : Prop where
  once : (Table.keys bindings).Nodup
  onceToo : (Table.keys own).Nodup
  shapes : bindings.shapes = own.shapes

theorem coversRuns {p : Property} (textual : p.Textual) (paired : Paired bindings own)
    (covers : Covers memory ahead) (within : Within (sizeOf p) ahead)
    (runs : Runs (resolveIn limit room p bindings) memory type later)
    (runsToo : Runs (resolveIn limit room p own) ahead twin after) :
    Covers later after ∧ Extends ahead after ∧ type.Alike twin := by
  have regular := regular limit p textual
  have grown := keepsRuns (regular.upholds room paired.onceToo within) (grownRefl covers.good) runsToo
  have complete := regular.completes paired.onceToo within covers.good runsToo
  rw [← paired.shapes] at complete
  have before := (keepsKnown grown.closed).mpr
    ⟨covers.meanings, fun kind known => grown.extended.more kind (covers.more kind known)⟩
  obtain ⟨kept, means⟩ := ensuresRuns ((knownAccount after.Knows grown.closed).ensuresIn p room bindings
    ⟨⟨textual, paired.once⟩, complete⟩) before runs
  obtain ⟨meanings, more⟩ := (keepsKnown grown.closed).mp kept
  have meansToo := regular.means paired.onceToo covers.good runsToo
  rw [← paired.shapes] at meansToo
  exact ⟨⟨meanings, grown.toGood, more⟩, grown.extended, Option.some.inj (means.symm.trans meansToo)⟩

def FoundAgain (limit : Int) (p : Property) : Prop :=
  ∀ (room : Nat) {bindings own : Bindings String} {memory ahead later : Memory Key} {type : ParamType},
    Paired bindings own → Covers memory ahead → Within (sizeOf p) ahead →
    Runs (resolveIn limit room p bindings) memory type later →
    ∃ twin after, Runs (resolveIn limit room p own) ahead twin after

theorem foundAgainAll {ps : List Property} (again : ∀ p ∈ ps, FoundAgain limit p)
    (textual : ∀ p ∈ ps, p.Textual) (paired : Paired bindings own) (covers : Covers memory ahead)
    (within : ∀ p ∈ ps, Within (sizeOf p) ahead) {types : List ParamType}
    (runs : Runs (Site.resolveAll (ps.map fun p => (p.name, resolveIn limit room p bindings))) memory types
      later) :
    ∃ twins after, Runs (Site.resolveAll (ps.map fun p => (p.name, resolveIn limit room p own))) ahead twins
        after ∧ Covers later after ∧ Extends ahead after ∧ Forall₂ Alike types twins := by
  induction ps generalizing memory ahead types with
  | nil =>
    obtain ⟨rfl, rfl⟩ := Site.runsResolveAllNil.mp runs
    exact ⟨[], ahead, Site.runsResolveAllNil.mpr ⟨rfl, rfl⟩, covers, Declarations.extendsRefl ahead, .nil⟩
  | cons p ps ih =>
    obtain ⟨type, between, types, first, rest, rfl⟩ := Site.runsResolveAllCons.mp runs
    obtain ⟨here, others⟩ := List.forall_mem_cons.mp again
    obtain ⟨isTextual, areTextual⟩ := List.forall_mem_cons.mp textual
    obtain ⟨inside, insides⟩ := List.forall_mem_cons.mp within
    obtain ⟨twin, middle, found⟩ := here room paired covers inside first
    obtain ⟨coversToo, extended, alike⟩ := coversRuns isTextual paired covers inside first found
    obtain ⟨twins, after, foundRest, coversLast, extendedToo, alikes⟩ :=
      ih others areTextual coversToo (fun q member => withinAfter extended (insides q member)) rest
    exact ⟨twin :: twins, after, Site.runsResolveAllCons.mpr ⟨twin, middle, twins, found, foundRest, rfl⟩,
      coversLast, Declarations.extendsTrans extended extendedToo, .cons alike alikes⟩

section

variable {key other : Key} (same : key.kind = other.kind) (told : key.Told) (toldToo : other.Told)
  (again : ∀ c ∈ other.components.getD [], FoundAgain limit c) (covers : Covers memory ahead)

include same told toldToo again covers

theorem foundAgainWork (within : ∀ c ∈ other.components.getD [], Within (sizeOf c) ahead)
    {work : Resolving Key ParamType} (given : workFor limit room key expr = some work)
    (runs : Runs work memory type later) :
    ∃ found twin after, workFor limit room other expr = some found ∧ Runs found ahead twin after := by
  obtain ⟨source, components, arguments, shapes⟩ := alikeOfKind same
  cases room with
  | zero => cases given
  | succ room =>
    cases given
    have stands := standingAlike shapes key.source other.source
    have asks := Site.asksOfLength expr arguments.length_eq
    rw [source, components] at runs
    rw [source] at stands
    cases asked : Site.asks key.arguments expr with
    | true =>
      obtain ⟨types, parts, built⟩ := (Site.runsAsked asked).mp runs
      obtain ⟨twins, after, partsToo, _, _, alikes⟩ := foundAgainAll again
        (textualOfMemOption toldToo.textual) ⟨told.once, toldToo.once, shapes⟩ covers within parts
      obtain ⟨twin, builtToo, _⟩ :=
        Site.settledFollows stands arguments alikes (Site.lengthOfRuns parts) type built
      exact ⟨_, twin, after, rfl, (Site.runsAsked (asks.symm.trans asked)).mpr ⟨twins, partsToo, builtToo⟩⟩
    | false =>
      have built := ((Site.runsUnasked asked []).mp runs).1
      obtain ⟨twin, builtToo, _⟩ := Site.unaskedFollows asked stands arguments [] [] type built
      exact ⟨_, twin, ahead, rfl, (Site.runsUnasked (asks.symm.trans asked) []).mpr ⟨builtToo, rfl⟩⟩

theorem foundAgainKey (within : Within (sizeOf other.components) ahead) {source : String}
    (runs : Runs (Resolving.guarded Key.same limit source key (workFor limit room key expr)) memory type
      later) :
    ∃ twin after, Runs (Resolving.guarded Key.same limit source other (workFor limit room other expr)) ahead
      twin after := by
  by_cases known : ahead.Knows other.kind
  · obtain ⟨twin, runsToo⟩ := guardedKnown covers.good.meanings toldToo known
    exact ⟨twin, ahead.hit, runsToo⟩
  · rcases runsGuarded.mp runs with ⟨hit, _⟩ | ⟨_, _, work, between, given, worked, _⟩
    · have covered := covers.more _ ((Memory.knowsIff covers.meanings told).mpr ⟨type, hit⟩)
      rw [same] at covered
      exact absurd covered known
    · have begun : Covers (memory.begun key) (ahead.begun other) :=
        ⟨covers.meanings, ⟨covers.good.meanings, covers.good.closed⟩, covers.more⟩
      obtain ⟨found, twin, after, givenToo, workedToo⟩ := foundAgainWork same told toldToo again begun
        (withinBegun toldToo.textual within) given worked
      exact ⟨twin, _, guardedUnknown covers.good.meanings toldToo known within givenToo workedToo⟩

end

theorem foundAgainNode {name : String} {typeField : Datum} {cs as : Option (List Property)}
    {ps : Option (List String)} (textual : (mk name typeField cs as ps).Textual)
    (arguments : ∀ a ∈ as.getD [], FoundAgain limit a) (components : ∀ c ∈ cs.getD [], FoundAgain limit c) :
    FoundAgain limit (mk name typeField cs as ps) := by
  intro room bindings own memory ahead later type paired covers within runs
  obtain ⟨inside, below⟩ := withinParts within
  obtain ⟨_, textuals, textualsToo⟩ := textual
  rcases runsIn.mp runs with
    ⟨word, reads, bound, _⟩ | ⟨expr, types, between, reads, plain, parts, arity, has, guarded⟩
  · obtain ⟨twin, there, _⟩ := Bindings.alikeFound (fun key => congrFun paired.shapes key) bound
    exact ⟨twin, ahead, runsIn.mpr (.inl ⟨word, reads, there, rfl⟩)⟩
  · obtain ⟨twins, middle, partsToo, coversToo, extended, alikes⟩ :=
      foundAgainAll arguments (textualOfMemOption textualsToo) paired covers inside parts
    have same : (ownKey typeField.display cs ps types bindings).kind =
        (ownKey typeField.display cs ps twins own).kind := by
      rw [kindOwnKey, kindOwnKey, ownKind, ownKind, paired.shapes, ParamType.shapesOfAlike alikes]
    obtain ⟨twin, after, guardedToo⟩ := foundAgainKey same (toldOwn textuals paired.once types)
      (toldOwn textuals paired.onceToo twins) components coversToo (withinAfter extended below) guarded
    exact ⟨twin, after, runsIn.mpr (.inr ⟨expr, twins, middle, reads, plain, partsToo,
      fun some => (arity some).trans alikes.length_eq, has, guardedToo⟩)⟩

theorem foundAgain (limit : Int) (p : Property) (textual : p.Textual) : FoundAgain limit p :=
  textualInduction foundAgainNode p textual

theorem grownAfter (limit : Int) {history : List (Property × Bindings String)}
    (textual : ∀ step ∈ history, step.1.Textual) (once : ∀ step ∈ history, (Table.keys step.2).Nodup) :
    Grown Memory.empty (memoryAfter limit history) := by
  refine List.foldlRecOn history _ (grownRefl goodEmpty) fun memory grown step member => ?_
  have regular := regular limit step.1 (textual step member)
  exact (regular.upholds limit.toNat (once step member) (withinEmpty _)).keeps memory grown

/-- Nodes have texts for their types, as they are declared to. A resolver that has been given any of them,
each under any bindings, whether or not it found their types, finds the type that a new one finds, up to
names; what it finds the new one finds, too, unless it is nested too deeply; and neither of them takes a
node for recursive. -/
theorem resolveShared {limit : Int} {history : List (Property × Bindings String)} {p : Property}
    {bindings : Bindings String} (texts : ∀ step ∈ history, step.1.Textual)
    (once : ∀ step ∈ history, (Table.keys step.2).Nodup) (textual : p.Textual)
    (nodup : (Table.keys bindings).Nodup) :
    let shared := (resolve limit p bindings (memoryAfter limit history)).1
    let anew := fresh (resolve limit p bindings)
    (∀ type, anew = .ok type → ∃ twin, shared = .ok twin ∧ type.same twin = true) ∧
    (∀ type, shared = .ok type →
      (∃ twin, anew = .ok twin ∧ type.same twin = true) ∨ Outcome.TooDeep limit anew) ∧
    ¬ Outcome.Recursive shared ∧ ¬ Outcome.Recursive anew := by
  have regular := regular limit p textual
  have upholds := regular.upholds limit.toNat nodup (withinEmpty _)
  have after := grownAfter limit texts once
  have empty := grownRefl goodEmpty
  refine ⟨fun type found => ?_, fun type found => ?_, Outcome.notRecursive (upholds.faults _ after),
    Outcome.notRecursive (upholds.faults _ empty)⟩
  · have paired : Paired bindings bindings := ⟨nodup, nodup, rfl⟩
    have covers : Covers Memory.empty (memoryAfter limit history) :=
      ⟨Memory.keepsEmpty, after.toGood, after.extended.more⟩
    have runs : Runs (resolveIn limit limit.toNat p bindings) Memory.empty type _ := Prod.ext found rfl
    have within := withinAfter after.extended (withinEmpty (sizeOf p))
    obtain ⟨twin, later, runsToo⟩ := foundAgain limit p textual limit.toNat paired covers within runs
    obtain ⟨_, _, alike⟩ := coversRuns textual paired covers within runs runsToo
    exact ⟨twin, congrArg Prod.fst runsToo, (ParamType.sameIff type twin).mpr alike⟩
  · have allowed : ∀ step ∈ history, step.1.Textual ∧ (Table.keys step.2).Nodup :=
      fun step member => ⟨texts step member, once step member⟩
    obtain ⟨attainable, means⟩ := (attainableAccount limit).ofResolve allowed ⟨textual, nodup⟩ found
    have attains := attainable limit.toNat rfl nodup (withinEmpty _)
    rcases Outcome.okOrTooDeep (attains.faults _ empty) with ⟨twin, foundToo⟩ | deep
    · have runs : Runs (resolveIn limit limit.toNat p bindings) Memory.empty twin _ := Prod.ext foundToo rfl
      have meansToo := regular.means nodup goodEmpty runs
      have alike : type.Alike twin := Option.some.inj (means.symm.trans meansToo)
      exact .inl ⟨twin, foundToo, (ParamType.sameIff type twin).mpr alike⟩
    · exact .inr deep

end

theorem resolveSharedNamed :
    let plain := fun name text => mk name (.str text) none none none
    let box := fun name => mk name (.str "struct Box") (some [plain "item" "generic T"])
      (some [plain "" "generic U"]) (some ["T"])
    let outer := mk "" (.str "struct Outer") (some [box "box"]) none none
    let named := fun name => ParamType.struct [.primitive .u64] [] name ["part"]
    let under : String → Bindings String := fun name => [("U", named name)]
    let history := [(box "", []), (outer, under "Foo"), (box "", under "Foo")]
    let boxed := fun name => ParamType.struct [named name] [named name] "Box" ["item"]
    let outermost := ParamType.struct [boxed "Foo"] [] "Outer" ["box"]
    let shared := fun p => (resolve 1 p (under "Bar") (memoryAfter 1 history)).1
    let anew := fun p => fresh (resolve 1 p (under "Bar"))
    ((∀ step ∈ history, step.1.Textual) ∧ (∀ step ∈ history, (Table.keys step.2).Nodup) ∧
      (box "").Textual ∧ outer.Textual ∧ (Table.keys (under "Bar")).Nodup) ∧
    (anew (box "") = .ok (boxed "Bar") ∧
      ∃ twin, shared (box "") = .ok twin ∧ (boxed "Bar").same twin = true) ∧
    (shared outer = .ok outermost ∧
      ((∃ twin, anew outer = .ok twin ∧ outermost.same twin = true) ∨ Outcome.TooDeep 1 (anew outer))) ∧
    ¬ Outcome.Recursive (shared outer) ∧ ¬ Outcome.Recursive (anew outer) := by
  intro plain box outer named under history boxed outermost shared anew
  have texts : ∀ step ∈ history, step.1.Textual := by
    simp [history, outer, box, plain, Textual, OptionTextual, AllTextual]
  have once : ∀ step ∈ history, (Table.keys step.2).Nodup := by
    simp [history, under, Table.keys]
  have textual : (box "").Textual := texts (box "", []) List.mem_cons_self
  have textualToo : outer.Textual := texts (outer, under "Foo") (List.mem_cons_of_mem _ List.mem_cons_self)
  have nodup : (Table.keys (under "Bar")).Nodup := List.nodup_singleton "U"
  have found : anew (box "") = .ok (boxed "Bar") := by decide +kernel
  have foundToo : shared outer = .ok outermost := by decide +kernel
  obtain ⟨again, _⟩ := resolveShared texts once textual nodup
  obtain ⟨_, before, recursive⟩ := resolveShared texts once textualToo nodup
  exact ⟨⟨texts, once, textual, textualToo, nodup⟩, ⟨found, again _ found⟩, ⟨foundToo, before _ foundToo⟩,
    recursive⟩

end WordAbi.Property
