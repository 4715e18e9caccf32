import WordAbi.Proofs.Schema.Flat.Meaning
import WordAbi.Proofs.Schema.Runs
/-! A resolver of inline nodes keeps up with one of declared types: where the one finds a type for an
application, the other finds one for the written-out node, with the same room. What the inline resolver
knows covers what the other knows, and all that is needed below it; so it never begins a key that the
other has found. -/
namespace WordAbi

open List (Forall₂)
open ParamType (shapes Alike)
open Resolving (Runs ensuresRuns runsPure runsThrow runsBind runsLift runsGuarded)

namespace Memory

variable {memory : Memory Property.Key} {key : Property.Key} {type : ParamType} {kind : Property.Kind}

theorem knowsLearnt : (memory.ended.learnt key type).Knows kind ↔ kind = key.kind ∨ memory.Knows kind := by
  constructor
  · rintro ⟨other, found, member, rfl⟩
    rcases List.mem_cons.mp member with same | member
    · cases same
      exact .inl rfl
    · exact .inr ⟨other, found, member, rfl⟩
  · rintro (rfl | ⟨other, found, member, rfl⟩)
    · exact ⟨key, type, List.mem_cons_self, rfl⟩
    · exact ⟨other, found, List.mem_cons_of_mem _ member, rfl⟩

end Memory

namespace Property

theorem sizeOfMem {ps : Option (List Property)} {p : Property} (member : p ∈ ps.getD []) :
    sizeOf p < sizeOf ps := by
  cases ps with
  | none => cases member
  | some ps =>
    have less := List.sizeOf_lt_of_mem member
    simp only [Option.getD_some, Option.some.sizeOf_spec] at less ⊢
    omega

theorem runsStanding {memory later : Memory Key} {bindings : Bindings String} {type : ParamType}
    {source word : String} :
    Runs (Site.lift (standing source bindings word)) memory type later ↔
      Table.get? bindings word = some type ∧ memory = later := by
  rw [runsLift, standing]
  cases Table.get? bindings word with
  | some found => simp only [Except.ok.injEq, Option.some.injEq]
  | none => simp only [reduceCtorEq]

end Property

namespace Declarations

section

variable {inline after : Memory Property.Key}

structure Extends (inline after : Memory Property.Key) : Prop where
  opened : after.opened = inline.opened
  more : ∀ kind, inline.Knows kind → after.Knows kind

theorem extendsRefl (inline : Memory Property.Key) : Extends inline inline := ⟨rfl, fun _ known => known⟩

theorem extendsTrans {last : Memory Property.Key} (one : Extends inline after) (two : Extends after last) :
    Extends inline last :=
  ⟨two.opened.trans one.opened, fun kind known => two.more kind (one.more kind known)⟩

def Within (size : Nat) (inline : Memory Property.Key) : Prop :=
  ∀ key ∈ inline.opened, Property.OptionTextual key.components ∧ size < sizeOf key.components

theorem withinMono {less size : Nat} (le : less ≤ size) (within : Within size inline) : Within less inline :=
  fun key opened => ⟨(within key opened).1, Nat.lt_of_le_of_lt le (within key opened).2⟩

theorem withinAfter {size : Nat} (extended : Extends inline after) (within : Within size inline) :
    Within size after := by
  intro key opened
  rw [extended.opened] at opened
  exact within key opened

theorem withinBegun {key : Property.Key} (textual : Property.OptionTextual key.components)
    (within : Within (sizeOf key.components) inline) :
    ∀ c ∈ key.components.getD [], Within (sizeOf c) (inline.begun key) := by
  intro c member other opened
  have less := Property.sizeOfMem member
  rcases List.mem_cons.mp opened with same | opened
  · rw [same]
    exact ⟨textual, less⟩
  · exact withinMono (Nat.le_of_lt less) within other opened

theorem notOpened {key : Property.Key} (within : Within (sizeOf key.components) inline) :
    inline.opened.any (Property.Key.same · key) = false := by
  refine List.any_eq_false.mpr fun other opened same => ?_
  obtain ⟨textual, less⟩ := within other opened
  simp only [Property.Key.same, Bool.and_eq_true] at same
  rw [(Property.optionSameTextual _ _ textual).mp same.1.1.1.2] at less
  exact absurd less (Nat.lt_irrefl _)

end

end Declarations

variable [Host]

namespace Property

variable {limit : Int} {room : Nat} {memory later : Memory Key} {bindings : Bindings String}
  {type : ParamType} {expr : TypeExpr} {name : String} {typeField : Datum}
  {cs as : Option (List Property)} {ps : Option (List String)}

theorem resolveOptionEq (limit : Int) (room : Nat) (ps : Option (List Property))
    (bindings : Bindings String) :
    resolveOption limit room ps bindings =
      Site.resolveAll ((ps.getD []).map fun p => (p.name, resolveIn limit room p bindings)) := by
  cases ps with
  | none => rfl
  | some ps =>
    change resolveList limit room ps bindings = _
    induction ps with
    | nil => rfl
    | cons p ps ih =>
      rw [resolveList, ih]
      rfl

def workFor (limit : Int) (room : Nat) (key : Key) (expr : TypeExpr) : Option (Resolving Key ParamType) :=
  match room with
  | 0 => none
  | room + 1 => some ((Site.working Property.name (fun c => resolveIn limit room c key.bindings) key.source
      key.components key.arguments (standing key.source key.bindings)).build expr)

theorem resolveInEq : resolveIn limit room (mk name typeField cs as ps) bindings = (do
    let expr ← Site.lift (TypeExpr.ofDatum typeField)
    match expr with
    | .generic word => Site.lift (standing typeField.display bindings word)
    | expr => do
      let types ← Site.resolveAll ((as.getD []).map fun a => (a.name, resolveIn limit room a bindings))
      if ps.getD [] ≠ [] ∧ (ps.getD []).length ≠ types.length then
        throw (Fault.invalidType
          (.argumentCount typeField.display (ps.getD []).length types.length none))
      else do
        checkKey cs
        Resolving.guarded Key.same limit typeField.display (ownKey typeField.display cs ps types bindings)
          (workFor limit room (ownKey typeField.display cs ps types bindings) expr)) := by
  have work : ∀ (expr : TypeExpr) (key : Key), workFor limit room key expr = (match room with
      | 0 => none
      | room + 1 => some (Site.build ⟨key.source, suspendOption limit room key.components key.bindings,
          key.arguments, lookup key.source key.bindings⟩ expr)) := by
    intro expr key
    cases room with
    | zero => rfl
    | succ room => rw [workFor, ← siteEq]
  rw [resolveIn]
  refine bind_congr fun expr => ?_
  rw [resolveOptionEq]
  simp only [work]
  cases expr with
  | generic word => exact lookupLift _ _ _
  | _ => cases room <;> rfl

theorem runsIn : Runs (resolveIn limit room (mk name typeField cs as ps) bindings) memory type later ↔
    (∃ word, TypeExpr.ofDatum typeField = .ok (.generic word) ∧ Table.get? bindings word = some type ∧
      memory = later) ∨
    ∃ expr types between, TypeExpr.ofDatum typeField = .ok expr ∧ expr.Plain ∧
      Runs (Site.resolveAll ((as.getD []).map fun a => (a.name, resolveIn limit room a bindings)))
        memory types between ∧
      (ps.getD [] ≠ [] → (ps.getD []).length = types.length) ∧ optionHasKey cs = true ∧
      Runs (Resolving.guarded Key.same limit typeField.display
        (ownKey typeField.display cs ps types bindings)
        (workFor limit room (ownKey typeField.display cs ps types bindings) expr)) between type later := by
  rw [resolveInEq, runsBind]
  constructor
  · rintro ⟨expr, start, first, runs⟩
    obtain ⟨reads, rfl⟩ := runsLift.mp first
    split at runs
    · exact .inl ⟨_, reads, runsStanding.mp runs⟩
    · rename_i plain
      obtain ⟨types, between, arguments, runs⟩ := runsBind.mp runs
      split at runs
      · exact absurd runs runsThrow
      · rename_i arity
        obtain ⟨_, _, check, guarded⟩ := runsBind.mp runs
        unfold checkKey at check
        split at check
        · rename_i has
          obtain ⟨_, rfl⟩ := runsPure.mp check
          exact .inr ⟨expr, types, between, reads, plain, arguments,
            fun some => Decidable.not_not.mp fun other => arity ⟨some, other⟩, has, guarded⟩
        · exact absurd check runsThrow
  · rintro (⟨word, reads, found⟩ | ⟨expr, types, between, reads, plain, arguments, arity, has, guarded⟩)
    · exact ⟨_, memory, runsLift.mpr ⟨reads, rfl⟩, runsStanding.mpr found⟩
    · refine ⟨expr, memory, runsLift.mpr ⟨reads, rfl⟩, ?_⟩
      split
      · exact absurd rfl (plain _)
      · refine runsBind.mpr ⟨types, between, arguments, ?_⟩
        rw [if_neg fun mismatch => mismatch.2 (arity mismatch.1)]
        refine runsBind.mpr ⟨(), between, ?_, guarded⟩
        rw [checkKey, if_pos has]
        exact runsPure.mpr ⟨rfl, rfl⟩

end Property

namespace Declarations

variable {table : Declarations} {templates : Int → Template} {bindings : Bindings Int}
  {memory later : Memory Key} {type : ParamType}

theorem resolveArgumentsEq (table : Declarations) (guard : Guard) (deeper : Option Resolver)
    (as : List TypeApplication) (bindings : Bindings Int) :
    resolveArguments table guard deeper as bindings =
      Site.resolveAll (as.map fun a => (a.name, resolveWith table guard deeper a bindings)) := by
  induction as with
  | nil => rfl
  | cons a as ih =>
    rw [resolveArguments, ih]
    rfl

def deeper (table : Declarations) (guard : Guard) : (room : Nat) → Option Resolver
  | 0 => none
  | room + 1 => some (resolverIn table guard room)

theorem resolverInEq (table : Declarations) (guard : Guard) (room : Nat) :
    resolverIn table guard room = resolveWith table guard (deeper table guard room) := by
  cases room <;> rfl

def workFor (table : Declarations) (guard : Guard) (room : Nat) (d : TypeDeclaration) (key : Key)
    (expr : TypeExpr) : Option (Resolving Key ParamType) :=
  (deeper table guard room).map fun resolver =>
    (Site.working TypeApplication.name (fun c => resolver c key.bindings) d.typeField.display d.components
      key.arguments fun name => substitute table d.typeField.display name key.bindings).build expr

theorem runsCases (indexed : Indexed table) {guard : Guard} {room : Nat} {name : String} {id : Int}
    {applied : List TypeApplication}
    (runs : Runs (resolverIn table guard room (.mk name id applied) bindings) memory type later) :
    (∃ d word, Node table id d (.generic word) ∧ Table.get? bindings id = some type ∧ later = memory) ∨
    ∃ d expr types between, Node table id d expr ∧ expr.Plain ∧
      Runs (Site.resolveAll (applied.map fun a => (a.name, resolverIn table guard room a bindings)))
        memory types between ∧
      d.typeParameters.length = types.length ∧
      Runs (guard d.typeField.display (ownKey d types bindings)
        (workFor table guard room d (ownKey d types bindings) expr)) between type later := by
  rw [resolverInEq, resolveWith, runsBind] at runs
  obtain ⟨d, _, first, runs⟩ := runs
  obtain ⟨found, rfl⟩ := runsLift.mp first
  obtain rfl := indexed id d found
  obtain ⟨expr, _, next, runs⟩ := runsBind.mp runs
  obtain ⟨reads, rfl⟩ := runsLift.mp next
  dsimp only at runs
  split at runs
  · split at runs
    · rename_i bound
      obtain ⟨rfl, rfl⟩ := runsPure.mp runs
      exact .inl ⟨d, _, ⟨found, reads⟩, bound, rfl⟩
    · exact absurd runs runsThrow
  · rename_i plain
    rw [resolveArgumentsEq, ← resolverInEq] at runs
    obtain ⟨types, between, arguments, runs⟩ := runsBind.mp runs
    split at runs
    · exact absurd runs runsThrow
    · rename_i arity
      exact .inr ⟨d, expr, types, between, ⟨found, reads⟩, plain, arguments, Decidable.not_not.mp arity, runs⟩

section

variable {inline after : Memory Property.Key} {own : Bindings String} {a : TypeApplication}
  {p : Property} {limit : Int} {room : Nat}

structure Reflects (table : Declarations) (bindings : Bindings Int) (own : Bindings String) : Prop where
  parametric : Parametric table bindings
  once : (Table.keys own).Nodup
  shapes : own.shapes = standings table bindings

theorem reflectsExtend (expanded : Expanded table templates) (reflects : Reflects table bindings own)
    {id : Int} {d : TypeDeclaration} (found : find table id = .ok d) {types twins : List ParamType}
    (alike : Forall₂ Alike types twins) :
    Reflects table (bindings.extend d.typeParameters types)
      (own.extend ((templates id).typeParameters.getD []) twins) := by
  have parameters := (expanded.fit id d found).typeParameters
  refine ⟨parametricExtend reflects.parametric parameters types, Bindings.nodupExtend reflects.once, ?_⟩
  rw [Property.shapesExtend, reflects.shapes, ← ParamType.shapesOfAlike alike]
  exact (standingsExtend expanded.expandable.unambiguous reflects.parametric parameters types).symm

structure Covers (expanded : Expanded table templates) (memory : Memory Key)
    (inline : Memory Property.Key) : Prop where
  closed : Property.Closed inline.Knows
  meanings : inline.Keeps Property.meaningAccount.known
  written : memory.Keeps (writtenAccount expanded inline.Knows closed).known

section

variable {key : Property.Key} {source : String} {work : Option (Resolving Property.Key ParamType)}

theorem guardedKnown (keeps : inline.Keeps Property.meaningAccount.known) (told : key.Told)
    (known : inline.Knows key.kind) :
    ∃ type, Runs (Resolving.guarded Property.Key.same limit source key work) inline type inline.hit := by
  obtain ⟨type, found⟩ := (Memory.knowsIff keeps told).mp known
  exact ⟨type, runsGuarded.mpr (.inl ⟨found, rfl⟩)⟩

theorem guardedUnknown (keeps : inline.Keeps Property.meaningAccount.known) (told : key.Told)
    (unknown : ¬ inline.Knows key.kind) (within : Within (sizeOf key.components) inline)
    {found : Resolving Property.Key ParamType} (given : work = some found)
    (worked : Runs found (inline.begun key) type after) :
    Runs (Resolving.guarded Property.Key.same limit source key work) inline type
      (after.ended.learnt key type) := by
  have missing : inline.find? Property.Key.same key = none := by
    rw [← Option.not_isSome_iff_eq_none, Option.isSome_iff_exists, ← Memory.knowsIff keeps told]
    exact unknown
  exact runsGuarded.mpr (.inr ⟨missing, notOpened within, found, after, given, worked, rfl⟩)

end

def Attains (limit : Int) (room : Nat) (p : Property) (own : Bindings String)
    (inline : Memory Property.Key) (twin : ParamType) (after : Memory Property.Key) : Prop :=
  Runs (Property.resolveIn limit room p own) inline twin after ∧ Extends inline after ∧
    Property.Closed after.Knows ∧ Property.Complete after.Knows p own.shapes

theorem coversAfter (expanded : Expanded table templates) (reflects : Reflects table bindings own)
    (writes : Writes table templates a p) (covers : Covers expanded memory inline)
    (runs : Runs (resolverIn table (Resolving.guarded Key.same limit) room a bindings) memory type later)
    {twin : ParamType} (attains : Attains limit room p own inline twin after) :
    Covers expanded later after ∧ type.Alike twin ∧ p.Means own.shapes twin := by
  obtain ⟨found, extended, closed, complete⟩ := attains
  have textual := textualOfWrites expanded p writes
  obtain ⟨meanings, means⟩ : after.Keeps Property.meaningAccount.known ∧ p.Means own.shapes twin :=
    ensuresRuns (Property.meaningAccount.ensuresIn p room own ⟨textual, reflects.once⟩) covers.meanings found
  rw [reflects.shapes] at complete
  have before : memory.Keeps (writtenAccount expanded after.Knows closed).known := by
    intro key type member
    obtain ⟨⟨parametric, known⟩, meaning⟩ := covers.written key type member
    exact ⟨⟨parametric, extended.more _ known⟩, meaning⟩
  obtain ⟨written, denotes⟩ := ensuresRuns ((writtenAccount expanded after.Knows closed).ensuresIn
    expanded.indexed limit room ⟨reflects.parametric, p, writes, complete⟩) before runs
  have meansToo := denotes reflects.parametric p writes
  rw [← reflects.shapes] at meansToo
  exact ⟨⟨closed, meanings, written⟩, Option.some.inj (meansToo.symm.trans means), means⟩

def Simulates (expanded : Expanded table templates) (limit : Int) (room : Nat) (a : TypeApplication) :
    Prop :=
  ∀ {bindings own p memory inline type later}, Reflects table bindings own → Writes table templates a p →
    Covers expanded memory inline → Within (sizeOf p) inline →
    Runs (resolverIn table (Resolving.guarded Key.same limit) room a bindings) memory type later →
    ∃ twin after, Attains limit room p own inline twin after

def SimulatesBelow (expanded : Expanded table templates) (limit : Int) (room : Nat) : Prop :=
  ∀ less, room = less + 1 → ∀ c, Simulates expanded limit less c

theorem simulatesAll (expanded : Expanded table templates) (reflects : Reflects table bindings own)
    {as : List TypeApplication} {ps : List Property} (each : ∀ a ∈ as, Simulates expanded limit room a)
    (written : Forall₂ (Writes table templates) as ps) (covers : Covers expanded memory inline)
    (within : ∀ p ∈ ps, Within (sizeOf p) inline) {types : List ParamType}
    (runs : Runs (Site.resolveAll (as.map fun a =>
      (a.name, resolverIn table (Resolving.guarded Key.same limit) room a bindings))) memory types later) :
    ∃ twins after, Runs (Site.resolveAll (ps.map fun p => (p.name, Property.resolveIn limit room p own)))
        inline twins after ∧
      Covers expanded later after ∧ Extends inline after ∧ Forall₂ Alike types twins ∧
      Forall₂ (fun p => p.Means own.shapes) ps twins ∧
      ∀ p ∈ ps, Property.Complete after.Knows p own.shapes := by
  induction written generalizing memory inline types with
  | nil =>
    obtain ⟨rfl, rfl⟩ := Site.runsResolveAllNil.mp runs
    exact ⟨[], inline, Site.runsResolveAllNil.mpr ⟨rfl, rfl⟩, covers, extendsRefl inline, .nil, .nil,
      fun _ absurd => nomatch absurd⟩
  | @cons a p as ps writes _ ih =>
    obtain ⟨type, between, types, first, rest, rfl⟩ := Site.runsResolveAllCons.mp runs
    obtain ⟨here, others⟩ := List.forall_mem_cons.mp each
    obtain ⟨inside, insides⟩ := List.forall_mem_cons.mp within
    obtain ⟨twin, middle, attains⟩ := here reflects writes covers inside first
    obtain ⟨coversToo, alike, means⟩ := coversAfter expanded reflects writes covers first attains
    obtain ⟨found, extended, _, complete⟩ := attains
    obtain ⟨twins, after, foundRest, coversLast, extendedToo, alikes, meanings, completes⟩ :=
      ih others coversToo (fun q member => withinAfter extended (insides q member)) rest
    refine ⟨twin :: twins, after, Site.runsResolveAllCons.mpr ⟨twin, middle, twins, found, foundRest, rfl⟩,
      coversLast, extendsTrans extended extendedToo, .cons alike alikes, .cons means meanings, ?_⟩
    exact List.forall_mem_cons.mpr ⟨Property.completeMono extendedToo.more complete, completes⟩

theorem standingFollows (reflects : Reflects table bindings own) (source other word : String) :
    Site.Follows (substitute table source word bindings) (Property.standing other own word) := by
  intro type found
  have stands := standingsOfSubstitute found
  rw [← reflects.shapes, Bindings.shapes, Option.map_eq_some_iff] at stands
  obtain ⟨twin, there, alike⟩ := stands
  exact ⟨twin, by rw [Property.standing, there], alike.symm⟩

structure Matched (expanded : Expanded table templates) (d : TypeDeclaration) (key : Key)
    (twin : Property.Key) : Prop where
  declared : find table key.typeId = .ok d
  source : twin.source = d.typeField.display
  components : twin.components = (templates key.typeId).components
  typeParameters : twin.typeParameters = (templates key.typeId).typeParameters
  arguments : Forall₂ Alike key.arguments twin.arguments
  reflects : Reflects table key.bindings twin.bindings
  textual : Property.OptionTextual twin.components

theorem matchedKind {expanded : Expanded table templates} {d : TypeDeclaration} {key : Key}
    {twin : Property.Key} (matched : Matched expanded d key twin) :
    twin.kind = key.kind table templates := by
  rw [Property.Key.kind, Key.kind, matched.source, matched.components, matched.typeParameters,
    matched.reflects.shapes, ParamType.shapesOfAlike matched.arguments,
    (expanded.fit _ d matched.declared).typeField]

theorem matchedTold {expanded : Expanded table templates} {d : TypeDeclaration} {key : Key}
    {twin : Property.Key} (matched : Matched expanded d key twin) : twin.Told :=
  ⟨matched.reflects.once, matched.textual⟩

theorem simulatesWork (expanded : Expanded table templates) {d : TypeDeclaration} {expr : TypeExpr}
    {key : Key} {twin : Property.Key} (matched : Matched expanded d key twin)
    (below : SimulatesBelow expanded limit room)
    (covers : Covers expanded memory inline) (within : ∀ c ∈ twin.components.getD [], Within (sizeOf c) inline)
    {work : Resolving Key ParamType}
    (given : workFor table (Resolving.guarded Key.same limit) room d key expr = some work)
    (runs : Runs work memory type later) :
    ∃ found other after, Property.workFor limit room twin expr = some found ∧
      Runs found inline other after ∧ Extends inline after ∧ Property.Closed after.Knows ∧
      (Site.asks twin.arguments expr = true →
        ∀ c ∈ twin.components.getD [], Property.Complete after.Knows c twin.bindings.shapes) := by
  cases room with
  | zero => cases given
  | succ room =>
    cases given
    have follows := standingFollows matched.reflects d.typeField.display twin.source
    have written : Option.Rel (Forall₂ (Writes table templates)) d.components twin.components := by
      rw [matched.components]
      exact (expanded.fit _ d matched.declared).components
    have names := namesOfWritten written
    have asks := Site.asksOfLength expr matched.arguments.length_eq
    cases asked : Site.asks key.arguments expr with
    | true =>
      obtain ⟨types, components, built⟩ := (Site.runsAsked asked).mp runs
      obtain ⟨twins, after, found, coversToo, extended, alikes, _, completes⟩ :=
        simulatesAll expanded matched.reflects (fun c _ => below room rfl c) (writtenEach written) covers
          within components
      obtain ⟨other, builtToo, _⟩ := Site.settledFollows follows matched.arguments alikes
        (Site.lengthOfRuns components) type built
      rw [Property.settledOfNames names, ← matched.source] at builtToo
      exact ⟨_, other, after, rfl, (Site.runsAsked (asks.symm.trans asked)).mpr ⟨twins, found, builtToo⟩,
        extended, coversToo.closed, fun _ => completes⟩
    | false =>
      have built := ((Site.runsUnasked asked []).mp runs).1
      obtain ⟨other, builtToo, _⟩ := Site.unaskedFollows asked follows matched.arguments [] [] type built
      rw [Property.settledOfNames names, ← matched.source] at builtToo
      have unasked := asks.symm.trans asked
      refine ⟨_, other, inline, rfl, (Site.runsUnasked unasked []).mpr ⟨builtToo, rfl⟩,
        extendsRefl inline, covers.closed, fun absurd => ?_⟩
      rw [unasked] at absurd
      cases absurd

theorem closedLearnt {expr : TypeExpr} {twin : Property.Key} {other : ParamType}
    (reads : TypeExpr.ofText twin.source = .ok expr) (closed : Property.Closed after.Knows)
    (completes : Site.asks twin.arguments expr = true →
      ∀ c ∈ twin.components.getD [], Property.Complete after.Knows c twin.bindings.shapes) :
    Property.Closed (after.ended.learnt twin other).Knows := by
  intro kind known expr' readsToo asked c member
  refine Property.completeMono (fun kind known => Memory.knowsLearnt.mpr (.inr known)) ?_
  rcases Memory.knowsLearnt.mp known with rfl | known
  · obtain rfl := Except.ok.inj (reads.symm.trans readsToo)
    exact completes ((Site.asksShapes twin.arguments expr).symm.trans asked) c member
  · exact closed kind known expr' readsToo asked c member

theorem simulatesGuarded (expanded : Expanded table templates) {d : TypeDeclaration} {expr : TypeExpr}
    {key : Key} {twin : Property.Key} (matched : Matched expanded d key twin)
    (reads : TypeExpr.ofText twin.source = .ok expr)
    (below : SimulatesBelow expanded limit room)
    (covers : Covers expanded memory inline) (within : Within (sizeOf twin.components) inline)
    (runs : Runs (Resolving.guarded Key.same limit d.typeField.display key
      (workFor table (Resolving.guarded Key.same limit) room d key expr)) memory type later) :
    ∃ other after, Runs (Resolving.guarded Property.Key.same limit twin.source twin
        (Property.workFor limit room twin expr)) inline other after ∧ Extends inline after ∧
      Property.Closed after.Knows ∧ after.Knows twin.kind := by
  have told := matchedTold matched
  by_cases known : inline.Knows twin.kind
  · obtain ⟨other, runsToo⟩ := guardedKnown covers.meanings told known
    have extended : Extends inline inline.hit := ⟨rfl, fun _ known => known⟩
    exact ⟨other, inline.hit, runsToo, extended, covers.closed, known⟩
  · rcases runsGuarded.mp runs with ⟨hit, _⟩ | ⟨_, _, work, between, given, worked, _⟩
    · obtain ⟨other, member, same⟩ := Memory.memOfFind hit
      obtain ⟨⟨parametric, covered⟩, _⟩ := covers.written other type member
      rw [kindSame expanded.expandable.unambiguous parametric matched.reflects.parametric same,
        ← matchedKind matched] at covered
      exact absurd covered known
    · have begun : Covers expanded (memory.begun key) (inline.begun twin) :=
        ⟨covers.closed, covers.meanings, covers.written⟩
      obtain ⟨found, other, after, givenToo, workedToo, extended, closed, completes⟩ :=
        simulatesWork expanded matched below begun (withinBegun matched.textual within) given worked
      have learns : ∀ kind, after.Knows kind → (after.ended.learnt twin other).Knows kind :=
        fun kind known => Memory.knowsLearnt.mpr (.inr known)
      have learnt : Extends inline (after.ended.learnt twin other) :=
        ⟨congrArg List.tail extended.opened, fun kind known => learns kind (extended.more kind known)⟩
      exact ⟨other, _, guardedUnknown covers.meanings told known within givenToo workedToo, learnt,
        closedLearnt reads closed completes, Memory.knowsLearnt.mpr (.inl rfl)⟩

theorem matchedOwn (expanded : Expanded table templates) (reflects : Reflects table bindings own) {id : Int}
    {d : TypeDeclaration} (found : find table id = .ok d) {types twins : List ParamType}
    (alikes : Forall₂ Alike types twins) (textual : Property.OptionTextual (templates id).components) :
    Matched expanded d (ownKey d types bindings)
      (Property.ownKey (templates id).typeField.display (templates id).components
        (templates id).typeParameters twins own) := by
  obtain rfl := expanded.indexed id d found
  exact ⟨found, congrArg Datum.display (expanded.fit _ d found).typeField, rfl, rfl, alikes,
    reflectsExtend expanded reflects found alikes, textual⟩

theorem simulatesGeneric (expanded : Expanded table templates) {name word : String} {id : Int}
    {as : Option (List Property)} {d : TypeDeclaration} (node : Node table id d (.generic word))
    (reflects : Reflects table bindings own) (bound : Table.get? bindings id = some type)
    (covers : Covers expanded memory inline) :
    ∃ twin after, Attains limit room (.mk name (templates id).typeField (templates id).components as
      (templates id).typeParameters) own inline twin after := by
  have stands := standingsOfBound expanded reflects.parametric node bound
  rw [← reflects.shapes, Bindings.shapes, Option.map_eq_some_iff] at stands
  obtain ⟨twin, there, _⟩ := stands
  have reads := templateReads expanded node
  exact ⟨twin, inline, Property.runsIn.mpr (.inl ⟨word, reads, there, rfl⟩), extendsRefl inline, covers.closed,
    Property.completeGeneric reads⟩

theorem simulatesNode (expanded : Expanded table templates) {name : String} {id : Int}
    {applied : List TypeApplication} (below : SimulatesBelow expanded limit room)
    (each : ∀ a ∈ applied, Simulates expanded limit room a) :
    Simulates expanded limit room (.mk name id applied) := by
  intro bindings own p memory inline type later reflects writes covers within runs
  have textual := textualOfWrites expanded p writes
  obtain ⟨as, rfl, written⟩ := writesOwn writes
  rcases runsCases expanded.indexed runs with
    ⟨d, word, node, bound, _⟩ | ⟨d, expr, types, between, node, plain, arguments, arity, guarded⟩
  · exact simulatesGeneric expanded node reflects bound covers
  · rw [Property.mk.sizeOf_spec] at within
    have inside : ∀ p ∈ as.getD [], Within (sizeOf p) inline := by
      intro p member
      have less := Property.sizeOfMem member
      exact withinMono (by omega) within
    obtain ⟨twins, middle, argumentsToo, coversToo, extended, alikes, means, completes⟩ :=
      simulatesAll expanded reflects each written covers inside arguments
    have reads := templateReads expanded node
    have components : Within (sizeOf (templates id).components) middle :=
      withinMono (by omega) (withinAfter extended within)
    obtain ⟨twin, after, guardedToo, extendedToo, closed, known⟩ :=
      simulatesGuarded expanded (matchedOwn expanded reflects node.found alikes textual.2.1)
        (Property.readsText reads) below coversToo components guarded
    rw [Property.kindOwnKey] at known
    have parameters := (expanded.fit id d node.found).typeParameters
    have arityToo := parameters.length_eq.symm.trans (arity.trans alikes.length_eq)
    have has := Property.optionHasKeyOfTextual _ textual.2.1
    refine ⟨twin, after, Property.runsIn.mpr (.inr ⟨_, _, _, reads, plain, argumentsToo, fun _ => arityToo,
      has, guardedToo⟩), extendsTrans extended extendedToo, closed,
      Property.completeOfOwn means known fun p member => ?_⟩
    exact Property.completeMono extendedToo.more (completes p member)

mutual

theorem simulatesIn (expanded : Expanded table templates)
    (below : SimulatesBelow expanded limit room) :
    (a : TypeApplication) → Simulates expanded limit room a
  | .mk _ _ applied => simulatesNode expanded below (simulatesEach expanded below applied)

theorem simulatesEach (expanded : Expanded table templates)
    (below : SimulatesBelow expanded limit room) :
    (as : List TypeApplication) → ∀ a ∈ as, Simulates expanded limit room a
  | [], _, member => nomatch member
  | a :: as, b, member => by
    rcases List.mem_cons.mp member with same | member
    · rw [same]
      exact simulatesIn expanded below a
    · exact simulatesEach expanded below as b member

end

theorem simulates (expanded : Expanded table templates) (limit : Int) (room : Nat) (a : TypeApplication) :
    Simulates expanded limit room a := by
  induction room generalizing a with
  | zero => exact simulatesIn expanded (fun _ absurd => by cases absurd) a
  | succ room ih =>
    refine simulatesIn expanded (fun less same c => ?_) a
    cases same
    exact ih c

end

end Declarations

end WordAbi
