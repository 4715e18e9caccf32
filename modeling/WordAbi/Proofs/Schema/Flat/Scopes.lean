import WordAbi.Proofs.ParamType.Equality
import WordAbi.Proofs.Schema.Flat.Likeness
/-! What a generic parameter stands for by the declarations around it. A parameter that is known by its
id stands for the argument of the nearest declaration that binds it. One that an element names stands for
that of a parameter of the name; it is the nearest where only one parameter of the name is bound, and
otherwise need not be. -/
namespace WordAbi.Declarations

open List (Forall₂)

structure Scope where
  parameters : List Int
  arguments : List ParamType

def Scope.bindings (scope : Scope) : Bindings Int := Bindings.extend [] scope.parameters scope.arguments

def argument? : List Scope → Int → Option ParamType
  | [], _ => none
  | scope :: outer, id => (Table.get? scope.bindings id).or (argument? outer id)

variable {table : Declarations} {scopes : List Scope} {bindings : Bindings Int} {word : String}
  {type : ParamType}

def Named (table : Declarations) (word : String) (id : Int) : Prop :=
  ∃ d, find table id = .ok d ∧ declares d word = true

inductive Nearest (table : Declarations) (word : String) : List Scope → ParamType → Prop
  | here {scope outer id type} (named : Named table word id)
      (bound : Table.get? scope.bindings id = some type) : Nearest table word (scope :: outer) type
  | outer {scope outer type} (absent : ∀ id, Named table word id → Table.get? scope.bindings id = none)
      (nearest : Nearest table word outer type) : Nearest table word (scope :: outer) type

def Single (table : Declarations) (word : String) (scopes : List Scope) : Prop :=
  ∀ id other, Named table word id → Named table word other → (argument? scopes id).isSome →
    (argument? scopes other).isSome → id = other

/-- The type may stand for the name: it is the argument of a parameter of that name, and of the nearest
one if they are all the same parameter. -/
structure Means (table : Declarations) (word : String) (scopes : List Scope) (type : ParamType) : Prop where
  bound : ∃ id, Named table word id ∧ argument? scopes id = some type
  nearest : Single table word scopes → Nearest table word scopes type

theorem nearestOfSingle (single : Single table word scopes) {id : Int} (named : Named table word id)
    (bound : argument? scopes id = some type) : Nearest table word scopes type := by
  induction scopes with
  | nil => cases bound
  | cons scope outer ih =>
    have restrict : Single table word outer := by
      intro id other one two here there
      refine single id other one two ?_ ?_ <;> simp [argument?, here, there]
    cases here : Table.get? scope.bindings id with
    | some found =>
      simp only [argument?, here, Option.some_or, Option.some.injEq] at bound
      exact .here named (bound ▸ here)
    | none =>
      simp only [argument?, here, Option.none_or] at bound
      refine .outer (fun other named' => ?_) (ih restrict bound)
      cases there : Table.get? scope.bindings other with
      | none => rfl
      | some found =>
        obtain rfl := single id other named named' (by simp [argument?, bound]) (by simp [argument?, there])
        rw [here] at there
        cases there

def Mirrors (scopes : List Scope) (bindings : Bindings Int) : Prop :=
  ∀ id, (argument? scopes id).map ParamType.shape = (Table.get? bindings id).map ParamType.shape

theorem mirrorsExtend (mirrors : Mirrors scopes bindings) (parameters : List Int)
    {types twins : List ParamType} (alike : Forall₂ ParamType.Alike types twins) :
    Mirrors (⟨parameters, twins⟩ :: scopes) (bindings.extend parameters types) := by
  intro id
  have own : (Bindings.extend [] parameters types).Alike (Bindings.extend [] parameters twins) :=
    Bindings.alikeExtend parameters (fun _ => rfl) alike
  rw [argument?, Bindings.getExtend, Option.map_or, Option.map_or, mirrors id, own id]
  rfl

theorem mirrorsFound (mirrors : Mirrors scopes bindings) {id : Int}
    (found : Table.get? bindings id = some type) :
    ∃ twin, argument? scopes id = some twin ∧ type.Alike twin := by
  have same := mirrors id
  rw [found, Option.map_some, Option.map_eq_some_iff] at same
  obtain ⟨twin, there, shapes⟩ := same
  exact ⟨twin, there, shapes.symm⟩

theorem meaningOfSubstitute (nodup : (Table.keys bindings).Nodup) (mirrors : Mirrors scopes bindings)
    (source word : String) :
    ∃ outcome, Site.Follows (substitute table source word bindings) outcome ∧
      ∀ type, outcome = .ok type → Means table word scopes type := by
  cases found : substitute table source word bindings with
  | error fault => exact ⟨.error fault, Site.followsRefl _, fun _ absurd => nomatch absurd⟩
  | ok type =>
    obtain ⟨id, d, member, declared, named⟩ := substituteOk found
    obtain ⟨twin, there, alike⟩ := mirrorsFound mirrors (Table.getOfMem nodup member)
    refine ⟨.ok twin, fun other same => ?_, fun other same => ?_⟩
    · cases same
      exact ⟨twin, rfl, alike⟩
    · cases same
      have named : Named table word id := ⟨d, declared, named⟩
      exact ⟨⟨id, named, there⟩, fun single => nearestOfSingle single named there⟩

def bindingsOf : List Scope → Bindings Int
  | [] => []
  | scope :: outer => (bindingsOf outer).extend scope.parameters scope.arguments

theorem getBindingsOf (scopes : List Scope) (id : Int) :
    Table.get? (bindingsOf scopes) id = argument? scopes id := by
  induction scopes with
  | nil => rfl
  | cons scope outer ih =>
    rw [bindingsOf, Bindings.getExtend, ih]
    rfl

theorem boundBindingsOf (declared : ∀ scope ∈ scopes, ∀ id ∈ scope.parameters, ∃ d, find table id = .ok d) :
    Bound table (bindingsOf scopes) := by
  induction scopes with
  | nil => exact ⟨List.nodup_nil, fun _ absurd => nomatch absurd⟩
  | cons scope outer ih =>
    obtain ⟨own, rest⟩ := List.forall_mem_cons.mp declared
    have bound := ih rest
    refine ⟨Bindings.nodupExtend bound.once, fun id member => ?_⟩
    rcases Bindings.keysExtend member with here | parameter
    · exact bound.known id here
    · exact own id parameter

theorem namedOfNearest (nearest : Nearest table word scopes type) :
    ∃ id, Named table word id ∧ (argument? scopes id).isSome := by
  induction nearest with
  | here named bound => exact ⟨_, named, by simp [argument?, bound]⟩
  | outer absent nearest ih =>
    obtain ⟨id, named, bound⟩ := ih
    exact ⟨id, named, by simp [argument?, absent id named, bound]⟩

theorem substituteOfNamed (bound : ∀ id ∈ Table.keys bindings, ∃ d, find table id = .ok d) {id : Int}
    (named : Named table word id) (member : id ∈ Table.keys bindings) (source : String) :
    ∃ type, substitute table source word bindings = .ok type := by
  induction bindings with
  | nil => cases member
  | cons entry rest ih =>
    obtain ⟨first, type⟩ := entry
    obtain ⟨⟨d, found⟩, others⟩ := List.forall_mem_cons.mp bound
    simp only [substitute, found]
    change ∃ _, (if declares d word = true then _ else _) = _
    split
    · exact ⟨type, rfl⟩
    · rename_i other
      refine ih others ?_
      rcases List.mem_cons.mp member with same | later
      · obtain ⟨e, foundToo, name⟩ := named
        subst same
        rw [found] at foundToo
        cases foundToo
        exact absurd name other
      · exact later

section

variable [Host]

inductive Scoped (table : Declarations) : TypeApplication → List Scope → ParamType → Prop
  | bound {name id applied d word scopes type} (node : Node table id d (.generic word))
      (stands : argument? scopes id = some type) : Scoped table (.mk name id applied) scopes type
  | applied {name id applied d expr types answers stand scopes type} (node : Node table id d expr)
      (plain : expr.Plain) (aligned : applied.length = types.length)
      (each : ∀ {a t}, (a, t) ∈ applied.zip types → Scoped table a scopes t)
      (arity : d.typeParameters.length = types.length)
      (known : (d.components.getD []).length = answers.length)
      (components : ∀ {c answer}, (c, answer) ∈ (d.components.getD []).zip answers → ∀ t, answer = .ok t →
        Scoped table c (⟨d.typeParameters, types⟩ :: scopes) t)
      (means : ∀ word t, stand word = .ok t → Means table word (⟨d.typeParameters, types⟩ :: scopes) t)
      (built : (Site.settled TypeApplication.name answers d.typeField.display d.components types
        stand).build expr = .ok type) :
      Scoped table (.mk name id applied) scopes type

def OwnScoped (table : Declarations) (id : Int) (arguments : List ParamType) (scopes : List Scope)
    (type : ParamType) : Prop :=
  ∃ d expr stand, Node table id d expr ∧
    (∀ word t, stand word = .ok t → Means table word scopes t) ∧
    Site.Settles TypeApplication.name (fun c => Scoped table c scopes) d.typeField.display d.components
      arguments stand expr type

theorem ownScopedOfSettles {d : TypeDeclaration} {expr : TypeExpr} {key : Key} {arguments : List ParamType}
    (nodup : (Table.keys key.bindings).Nodup) (node : Node table key.typeId d expr)
    (settles : key.Settles table (fun c bindings type => ∀ scopes, Mirrors scopes bindings →
      ∃ twin, Scoped table c scopes twin ∧ type.Alike twin) d expr type)
    (mirrors : Mirrors scopes key.bindings) (alike : Forall₂ ParamType.Alike key.arguments arguments) :
    ∃ twin, OwnScoped table key.typeId arguments scopes twin ∧ type.Alike twin := by
  choose meant follows means using
    fun word => meaningOfSubstitute nodup mirrors d.typeField.display word
  obtain ⟨twin, settlesToo, same⟩ := Site.settlesFollows
    (fun c type holds => holds scopes mirrors) alike follows settles
  exact ⟨twin, ⟨d, expr, meant, node, means, settlesToo⟩, same⟩

theorem scopedOfOwn {name : String} {id : Int} {applied : List TypeApplication} {d : TypeDeclaration}
    {expr : TypeExpr} {types : List ParamType} (node : Node table id d expr) (plain : expr.Plain)
    (each : Forall₂ (fun a => Scoped table a scopes) applied types)
    (arity : d.typeParameters.length = types.length)
    (own : OwnScoped table id types (⟨d.typeParameters, types⟩ :: scopes) type) :
    Scoped table (.mk name id applied) scopes type := by
  obtain ⟨e, other, stand, declared, means, answers, components, built⟩ := own
  obtain ⟨rfl, rfl⟩ := nodeUnique node declared
  have pairs := List.forall₂_iff_zip.mp each
  have inner := List.forall₂_iff_zip.mp components
  exact .applied node plain pairs.1 pairs.2 arity inner.1 (fun member => inner.2 member) means built

def scopedAccount (table : Declarations) (indexed : Indexed table) : Account table where
  allows _ bindings := (Table.keys bindings).Nodup
  of a bindings type := ∀ scopes, Mirrors scopes bindings → ∃ twin, Scoped table a scopes twin ∧ type.Alike twin
  meets key := (Table.keys key.bindings).Nodup
  found key type := ∀ scopes arguments, Mirrors scopes key.bindings →
    Forall₂ ParamType.Alike key.arguments arguments →
    ∃ twin, OwnScoped table key.typeId arguments scopes twin ∧ type.Alike twin
  bound := by
    intro name id applied d word bindings type node found scopes mirrors
    obtain ⟨twin, there, alike⟩ := mirrorsFound mirrors found
    exact ⟨twin, .bound node there, alike⟩
  argument nodup _ _ _ _ := nodup
  applied := by
    intro name id applied d expr types bindings nodup node plain each arity
    refine ⟨Bindings.nodupExtend nodup, fun type found scopes mirrors => ?_⟩
    obtain ⟨twins, there, alikes⟩ := Site.twinsOf (fun a type holds => holds scopes mirrors) each
    obtain ⟨twin, own, alike⟩ := found _ twins (mirrorsExtend mirrors d.typeParameters alikes) alikes
    rw [ownKey, indexed id d node.found] at own
    exact ⟨twin, scopedOfOwn node plain there (arity.trans alikes.length_eq) own, alike⟩
  component nodup _ _ _ _ := nodup
  settled := by
    intro d expr key type nodup node plain settles scopes arguments mirrors alike
    exact ownScopedOfSettles nodup node settles mirrors alike
  shared := by
    intro key other type nodup _ found same scopes arguments mirrors alike
    simp only [Key.same, Bool.and_eq_true, beq_iff_eq] at same
    obtain ⟨⟨id, sameArguments⟩, sameBindings⟩ := same
    have shapes := Bindings.shapesOfSame sameBindings nodup
    have like := ParamType.alikeOfShapes
      (((ParamType.sameListIff _ _).mp sameArguments).trans (ParamType.shapesOfAlike alike))
    rw [← id]
    exact found scopes arguments (fun id => (mirrors id).trans (shapes id).symm) like

/-- Whatever was resolved before, the type of an application follows from the declarations around its
parts: the elements that an array writes out as a parameter are the arguments of the nearest declaration
that binds a parameter of the name, where only one is bound. There always is a type for the name when
one is bound. -/
theorem resolveScoped (declarations : List TypeDeclaration) (limit : Int) :
    (∀ (history : List TypeApplication) (a : TypeApplication) (type : ParamType),
      (resolve (ofList declarations) limit a (memoryAfter (ofList declarations) limit history)).1 =
        .ok type →
      ∃ twin, Scoped (ofList declarations) a [] twin ∧ type.Alike twin) ∧
    ∀ (scopes : List Scope) (source word : String) (type : ParamType),
      (∀ scope ∈ scopes, ∀ id ∈ scope.parameters, ∃ d, find (ofList declarations) id = .ok d) →
      Nearest (ofList declarations) word scopes type →
      ∃ found, substitute (ofList declarations) source word (bindingsOf scopes) = .ok found ∧
        Means (ofList declarations) word scopes found := by
  constructor
  · intro history a type resolved
    have indexed := indexedOfList declarations
    have unbound : (Table.keys ([] : Bindings Int)).Nodup := List.nodup_nil
    have holds := (scopedAccount _ indexed).ofResolve indexed (fun _ _ => unbound) unbound resolved
    exact holds [] fun _ => rfl
  · intro scopes source word type declared nearest
    have bound := boundBindingsOf declared
    obtain ⟨id, named, isBound⟩ := namedOfNearest nearest
    rw [← getBindingsOf, Option.isSome_iff_exists] at isBound
    obtain ⟨_, there⟩ := isBound
    have member : id ∈ Table.keys (bindingsOf scopes) := List.mem_map.mpr ⟨_, Table.memOfGet there, rfl⟩
    obtain ⟨found, gives⟩ := substituteOfNamed bound.known named member source
    refine ⟨found, gives, ?_⟩
    obtain ⟨other, d, entry, foundToo, name⟩ := substituteOk gives
    have own := (getBindingsOf scopes other).symm.trans (Table.getOfMem bound.once entry)
    have named : Named (ofList declarations) word other := ⟨d, foundToo, name⟩
    exact ⟨⟨other, named, own⟩, fun single => nearestOfSingle single named own⟩

end

theorem resolveScopedAgain :
    let declarations : List TypeDeclaration := [⟨0, .str "u64", none, []⟩, ⟨1, .str "bool", none, []⟩,
      ⟨2, .str "generic T", none, []⟩, ⟨3, .str "[generic T; 2]", none, []⟩,
      ⟨4, .str "struct Inner", some [.mk "items" 3 []], [2]⟩,
      ⟨5, .str "struct Outer", some [.mk "inner" 4 [.mk "" 1 []], .mk "own" 3 []], [2]⟩]
    let applied := TypeApplication.mk "" 5 [.mk "" 0 []]
    let items := fun p => ParamType.array (.primitive p) 2
    let type := ParamType.struct [.struct [items .bool] [.primitive .bool] "Inner" ["items"], items .u64]
      [.primitive .u64] "Outer" ["inner", "own"]
    let scopes : List Scope := [⟨[2], [.primitive .bool]⟩, ⟨[2], [.primitive .u64]⟩]
    (resolve (ofList declarations) 4 applied
        (memoryAfter (ofList declarations) 4 [.mk "" 4 [.mk "" 0 []]])).1 = .ok type ∧
      (∃ twin, Scoped (ofList declarations) applied [] twin ∧ type.Alike twin) ∧
      (∀ scope ∈ scopes, ∀ id ∈ scope.parameters, ∃ d, find (ofList declarations) id = .ok d) ∧
      Nearest (ofList declarations) "T" scopes (.primitive .bool) ∧
      ∃ found, substitute (ofList declarations) "[generic T; 2]" "T" (bindingsOf scopes) = .ok found ∧
        Means (ofList declarations) "T" scopes found := by
  intro declarations applied items type scopes
  have resolved : (resolve (ofList declarations) 4 applied
      (memoryAfter (ofList declarations) 4 [.mk "" 4 [.mk "" 0 []]])).1 = .ok type := by
    dsimp only [declarations, applied, items, type]
    decide +kernel
  have declared : ∀ scope ∈ scopes, ∀ id ∈ scope.parameters, ∃ d, find (ofList declarations) id = .ok d := by
    simp only [scopes, List.forall_mem_cons]
    exact ⟨⟨⟨_, rfl⟩, List.forall_mem_nil _⟩, ⟨⟨_, rfl⟩, List.forall_mem_nil _⟩, List.forall_mem_nil _⟩
  have nearest : Nearest (ofList declarations) "T" scopes (.primitive .bool) :=
    .here ⟨_, rfl, by decide⟩ (show Table.get? _ (2 : Int) = _ from rfl)
  exact ⟨resolved, (resolveScoped declarations 4).1 _ applied type resolved, declared, nearest,
    (resolveScoped declarations 4).2 scopes "[generic T; 2]" "T" _ declared nearest⟩

theorem resolveNotNearest :
    let declarations : List TypeDeclaration := [⟨0, .str "u64", none, []⟩, ⟨1, .str "bool", none, []⟩,
      ⟨2, .str "generic T", none, []⟩, ⟨3, .str "generic T", none, []⟩,
      ⟨4, .str "[generic T; 1]", none, []⟩, ⟨5, .str "struct Inner", some [.mk "items" 4 []], [3]⟩,
      ⟨6, .str "struct Outer", some [.mk "inner" 5 [.mk "" 1 []]], [2]⟩]
    let applied := TypeApplication.mk "" 6 [.mk "" 0 []]
    let outer := fun item => ParamType.struct [.struct [.array (.primitive item) 1] [.primitive .bool]
      "Inner" ["items"]] [.primitive .u64] "Outer" ["inner"]
    let scopes : List Scope := [⟨[3], [.primitive .bool]⟩, ⟨[2], [.primitive .u64]⟩]
    (resolve (ofList declarations) 4 applied Memory.empty).1 = .ok (outer .u64) ∧
      substitute (ofList declarations) "[generic T; 1]" "T" (bindingsOf scopes) = .ok (.primitive .u64) ∧
      Nearest (ofList declarations) "T" scopes (.primitive .bool) ∧
      ¬ Nearest (ofList declarations) "T" scopes (.primitive .u64) := by
  intro declarations applied outer scopes
  refine ⟨?_, rfl, .here ⟨_, rfl, by decide⟩ (show Table.get? _ (3 : Int) = _ from rfl), fun nearest => ?_⟩
  · dsimp only [declarations, applied, outer]
    decide +kernel
  · dsimp only [scopes] at nearest
    cases nearest with
    | here named bound =>
      have member := List.mem_singleton.mp (Table.memOfGet bound)
      cases member
    | outer absent nearest =>
      have none := absent 3 ⟨_, rfl, by decide⟩
      cases none

end WordAbi.Declarations
