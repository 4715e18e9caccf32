import WordAbi.Proofs.ParamType.Equality
import WordAbi.Proofs.Schema.Flat.Anew
import WordAbi.Proofs.Schema.Flat.Likeness
/-! A resolver with a memory keeps the shapes of types. It finds the very types that follow from the
declarations when the keys that are met are told apart well enough: keys that count as the same have the
same type by the declarations. -/
namespace WordAbi.Declarations

open List (Forall₂)

variable {table : Declarations} {bindings : Bindings Int} {type : ParamType}

section

variable [Host]

/-- The key is looked up in finding the type of the application: its own, or one of its arguments, or
of the components that a key met before asks for. -/
inductive Meets (table : Declarations) : TypeApplication → Bindings Int → Key → Prop
  | own {name id applied d expr types bindings} (node : Node table id d expr) (plain : expr.Plain)
      (each : Forall₂ (fun a => Gives table a bindings) applied types)
      (arity : d.typeParameters.length = types.length) :
      Meets table (.mk name id applied) bindings (ownKey d types bindings)
  | argument {name id applied d expr a bindings key} (node : Node table id d expr) (plain : expr.Plain)
      (member : a ∈ applied) (meets : Meets table a bindings key) :
      Meets table (.mk name id applied) bindings key
  | component {a bindings own d expr c key} (meets : Meets table a bindings own)
      (node : Node table own.typeId d expr) (asked : Site.asks own.arguments expr = true)
      (member : c ∈ d.components.getD []) (inner : Meets table c own.bindings key) :
      Meets table a bindings key

/-- Of keys that count as the same, the one has the type of the other. -/
def Faithful (table : Declarations) (met : Key → Prop) : Prop :=
  ∀ key other type, met key → met other → key.same other = true → key.Gives table type →
    other.Gives table type

def givesAccount (indexed : Indexed table) {met : Key → Prop} (faithful : Faithful table met) :
    Account table where
  allows a bindings := ∀ key, Meets table a bindings key → met key
  of a bindings type := Gives table a bindings type
  meets key := met key ∧
    (∀ d expr, Node table key.typeId d expr → d.typeParameters.length = key.arguments.length) ∧
    ∀ d expr, Node table key.typeId d expr → Site.asks key.arguments expr = true →
      ∀ c ∈ d.components.getD [], ∀ other, Meets table c key.bindings other → met other
  found key type := key.Gives table type
  bound node stands := ⟨1, .bound node stands⟩
  argument allowed node plain a member key meets := allowed key (.argument node plain member meets)
  applied := by
    intro name id applied d expr types bindings allowed node plain each arity
    have own : Meets table (.mk name id applied) bindings (ownKey d types bindings) :=
      .own node plain each arity
    refine ⟨⟨allowed _ own, ownArity indexed node arity, fun e other nodeToo asked c member key meets => ?_⟩,
      fun type gives => givesOfKey indexed node plain each gives⟩
    exact allowed key (.component own nodeToo asked member meets)
  component meets node asked c member key inner := meets.2.2 _ _ node asked c member key inner
  settled meets node plain settles := keyGivesOfSettles node plain (meets.2.1 _ _ node) settles
  shared meets other gives same := faithful _ _ _ meets.1 other.1 same gives

theorem meetsWithin (allows : TypeApplication → Bindings Int → Prop) (kept : Key → Prop)
    (own : ∀ {name id applied d expr types bindings}, allows (.mk name id applied) bindings →
      Node table id d expr → expr.Plain → Forall₂ (fun a => Gives table a bindings) applied types →
      d.typeParameters.length = types.length → kept (ownKey d types bindings))
    (argument : ∀ {name id applied bindings}, allows (.mk name id applied) bindings →
      ∀ a ∈ applied, allows a bindings)
    (component : ∀ {key d expr}, kept key → Node table key.typeId d expr →
      ∀ c ∈ d.components.getD [], allows c key.bindings)
    {a : TypeApplication} {key : Key} (allowed : allows a bindings) (meets : Meets table a bindings key) :
    kept key := by
  induction meets with
  | own node plain each arity => exact own allowed node plain each arity
  | argument _ _ member _ ih => exact ih (argument allowed _ member)
  | component _ node _ member _ ihOwn ihInner => exact ihInner (component (ihOwn allowed) node _ member)

theorem faithfulWithoutParameters (bare : ∀ id d, find table id = .ok d → d.typeParameters = [])
    {applications : List TypeApplication} :
    Faithful table fun key => ∃ b ∈ applications, Meets table b [] key := by
  have kept : ∀ key, (∃ b ∈ applications, Meets table b [] key) → key.arguments = [] ∧ key.bindings = [] := by
    rintro key ⟨b, _, meets⟩
    refine meetsWithin (fun _ bindings => bindings = []) (fun key => key.arguments = [] ∧ key.bindings = [])
      ?_ ?_ ?_ rfl meets
    · rintro name id applied d expr types _ rfl node _ _ arity
      rw [bare id d node.found] at arity
      obtain rfl := List.length_eq_zero_iff.mp arity.symm
      rw [ownKey, bare id d node.found]
      exact ⟨rfl, rfl⟩
    · exact fun unbound _ _ => unbound
    · exact fun kept _ _ _ => kept.2
  rintro ⟨id, arguments, bindings⟩ ⟨other, others, inner⟩ type met metToo same gives
  obtain ⟨rfl, rfl⟩ := kept _ met
  obtain ⟨rfl, rfl⟩ := kept _ metToo
  simp only [Key.same, Bool.and_eq_true, beq_iff_eq] at same
  obtain ⟨⟨rfl, _⟩, _⟩ := same
  exact gives

/-- A type that a resolver finds after any applications has the shape of the one that is found anew, if
the names of generic parameters are their own; and it is that very type, with the same names throughout,
if keys that count as the same among those met in between have the same type by the declarations. Only
the limit of nesting may be met when nothing is remembered. -/
theorem resolveAsAnew (declarations : List TypeDeclaration) (limit : Int)
    {history : List TypeApplication} {a : TypeApplication} {type : ParamType}
    (resolved : (resolve (ofList declarations) limit a
      (memoryAfter (ofList declarations) limit history)).1 = .ok type) :
    (Distinct (ofList declarations) →
      (∃ twin, resolveAnew (ofList declarations) limit a = .ok twin ∧ type.Alike twin) ∨
        ∃ source, resolveAnew (ofList declarations) limit a =
          .error (.unsupported (.resolutionDepth limit source))) ∧
    (Faithful (ofList declarations)
        (fun key => ∃ b ∈ a :: history, Meets (ofList declarations) b [] key) →
      resolveAnew (ofList declarations) limit a = .ok type ∨
        ∃ source, resolveAnew (ofList declarations) limit a =
          .error (.unsupported (.resolutionDepth limit source))) := by
  have indexed := indexedOfList declarations
  constructor
  · intro distinct
    have unbound : Bound (ofList declarations) [] := ⟨List.nodup_nil, fun _ absurd => nomatch absurd⟩
    obtain ⟨twin, gives, alike⟩ :=
      (alikeAccount indexed distinct).ofResolve indexed (fun _ _ => unbound) unbound resolved
    rcases resolveAnewOfGives indexed gives with found | deep
    · exact .inl ⟨twin, found, alike⟩
    · exact .inr deep
  · intro faithful
    refine resolveAnewOfGives indexed ((givesAccount indexed faithful).ofResolve indexed ?_ ?_ resolved)
    · exact fun b member key meets => ⟨b, List.mem_cons_of_mem a member, meets⟩
    · exact fun key meets => ⟨a, List.mem_cons_self, meets⟩

end

theorem resolveAsAnewAgain :
    let generic : List TypeDeclaration := [⟨0, .str "u64", none, []⟩, ⟨1, .str "generic T", none, []⟩,
      ⟨2, .str "struct Pair", some [.mk "left" 1 [], .mk "right" 1 []], [1]⟩]
    let pair := TypeApplication.mk "" 2 [.mk "" 0 []]
    let bare : List TypeDeclaration := [⟨0, .str "u64", none, []⟩,
      ⟨1, .str "struct Point", some [.mk "x" 0 []], []⟩,
      ⟨2, .str "struct Line", some [.mk "from" 1 [], .mk "to" 1 []], []⟩]
    let line := TypeApplication.mk "" 2 []
    let pairs := fun inner => ParamType.struct [inner, inner] [inner] "Pair" ["left", "right"]
    let point := ParamType.struct [.primitive .u64] [] "Point" ["x"]
    ((resolve (ofList generic) 2 (.mk "" 2 [pair]) (memoryAfter (ofList generic) 2 [pair])).1 =
        .ok (pairs (pairs (.primitive .u64))) ∧
      ((∃ twin, resolveAnew (ofList generic) 2 (.mk "" 2 [pair]) = .ok twin ∧
          (pairs (pairs (.primitive .u64))).Alike twin) ∨
        ∃ source, resolveAnew (ofList generic) 2 (.mk "" 2 [pair]) =
          .error (.unsupported (.resolutionDepth 2 source)))) ∧
    (resolve (ofList bare) 3 line (memoryAfter (ofList bare) 3 [line])).1 =
        .ok (.struct [point, point] [] "Line" ["from", "to"]) ∧
      (resolveAnew (ofList bare) 3 line = .ok (.struct [point, point] [] "Line" ["from", "to"]) ∨
        ∃ source, resolveAnew (ofList bare) 3 line =
          .error (.unsupported (.resolutionDepth 3 source))) := by
  intro generic pair bare line pairs point
  have one : (resolve (ofList generic) 2 (.mk "" 2 [pair]) (memoryAfter (ofList generic) 2 [pair])).1 =
      .ok (pairs (pairs (.primitive .u64))) := by
    dsimp only [generic, pair, pairs]
    decide +kernel
  have two : (resolve (ofList bare) 3 line (memoryAfter (ofList bare) 3 [line])).1 =
      .ok (.struct [point, point] [] "Line" ["from", "to"]) := by
    dsimp only [bare, line, point]
    decide +kernel
  have distinct : Distinct (ofList generic) := by
    have there : find (ofList generic) 1 = .ok ⟨1, .str "generic T", none, []⟩ := rfl
    refine distinctOfOne there ?_ ?_
    · simp [generic]
    · intro d member word named
      simp only [generic, List.mem_cons, List.not_mem_nil, or_false] at member
      rcases member with rfl | rfl | rfl
      · have text := congrArg String.toList (beq_iff_eq.mp named)
        simp at text
      · rfl
      · have text := congrArg String.toList (beq_iff_eq.mp named)
        simp at text
  have withoutParameters : ∀ id d, find (ofList bare) id = .ok d → d.typeParameters = [] := by
    intro id d found
    have among := memOfFind found
    simp only [bare, List.mem_cons, List.not_mem_nil, or_false] at among
    rcases among with rfl | rfl | rfl <;> rfl
  exact ⟨⟨one, (resolveAsAnew generic 2 one).1 distinct⟩, two,
    (resolveAsAnew bare 3 two).2 (faithfulWithoutParameters withoutParameters)⟩

theorem resolveNotAsAnew :
    let wrapped : List TypeDeclaration := [⟨0, .str "u64", none, []⟩,
      ⟨1, .str "struct Foo", some [.mk "a" 0 []], []⟩, ⟨2, .str "struct Bar", some [.mk "b" 0 []], []⟩,
      ⟨3, .str "generic T", none, []⟩, ⟨4, .str "struct Wrap", some [.mk "inner" 3 []], [3]⟩]
    let wrap := fun id => TypeApplication.mk "" 4 [.mk "" id []]
    let record := fun name member => ParamType.struct [.primitive .u64] [] name [member]
    let wraps := fun inner => ParamType.struct [inner] [inner] "Wrap" ["inner"]
    let ordered : List TypeDeclaration := [⟨0, .str "u64", none, []⟩, ⟨1, .str "bool", none, []⟩,
      ⟨2, .str "generic T", none, []⟩, ⟨3, .str "generic T", none, []⟩, ⟨4, .str "[generic T; 1]", none, []⟩,
      ⟨5, .str "struct Inner", some [.mk "items" 4 []], [3]⟩,
      ⟨6, .str "struct Outer", some [.mk "inner" 5 [.mk "" 1 []]], [2]⟩,
      ⟨7, .str "struct Inner", some [.mk "items" 4 []], [2]⟩,
      ⟨8, .str "struct Outer", some [.mk "inner" 7 [.mk "" 0 []]], [3]⟩]
    let first := TypeApplication.mk "" 6 [.mk "" 0 []]
    let second := TypeApplication.mk "" 8 [.mk "" 1 []]
    let outer := fun item => ParamType.struct [.struct [.array (.primitive item) 1] [.primitive .u64]
      "Inner" ["items"]] [.primitive .bool] "Outer" ["inner"]
    let nested : List TypeDeclaration := [⟨0, .str "u64", none, []⟩,
      ⟨1, .str "struct Point", some [.mk "x" 0 []], []⟩, ⟨2, .str "struct Line", some [.mk "from" 1 []], []⟩]
    ((resolve (ofList wrapped) 3 (wrap 2) (memoryAfter (ofList wrapped) 3 [wrap 1])).1 =
        .ok (wraps (record "Foo" "a")) ∧
      resolveAnew (ofList wrapped) 3 (wrap 2) = .ok (wraps (record "Bar" "b"))) ∧
    ((resolve (ofList ordered) 4 second (memoryAfter (ofList ordered) 4 [first])).1 = .ok (outer .u64) ∧
      resolveAnew (ofList ordered) 4 second = .ok (outer .bool)) ∧
    (resolve (ofList nested) 2 (.mk "" 2 []) (memoryAfter (ofList nested) 2 [.mk "" 1 []])).1 =
        .ok (.struct [record "Point" "x"] [] "Line" ["from"]) ∧
      resolveAnew (ofList nested) 2 (.mk "" 2 []) =
        .error (.unsupported (.resolutionDepth 2 "u64")) := by
  intro wrapped wrap record wraps ordered first second outer nested
  refine ⟨⟨?_, ?_⟩, ⟨?_, ?_⟩, ?_, ?_⟩
  · dsimp only [wrapped, wrap, record, wraps]
    decide +kernel
  · dsimp only [wrapped, wrap, record, wraps]
    decide +kernel
  · dsimp only [ordered, first, second, outer]
    decide +kernel
  · dsimp only [ordered, first, second, outer]
    decide +kernel
  · dsimp only [nested, record]
    decide +kernel
  · rfl

end WordAbi.Declarations
