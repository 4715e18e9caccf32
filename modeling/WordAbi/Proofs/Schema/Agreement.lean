import WordAbi.Proofs.ParamType.Equality
import WordAbi.Proofs.Schema.Flat.Likeness
import WordAbi.Proofs.Schema.Simulation
/-! The two resolvers agree: an application of declared types has the type of the node that it is when
its declarations are written out. -/
namespace WordAbi.Declarations

open List (Forall₂)

def spellsGeneric (d : TypeDeclaration) : Bool :=
  match d.typeField with
  | .str text => "generic ".toList.isPrefixOf text.toList
  | _ => false

theorem spellsOfDeclares {d : TypeDeclaration} {word : String} (named : declares d word = true) :
    spellsGeneric d = true := by
  cases field : d.typeField with
  | str text =>
    simp only [declares, field, beq_iff_eq] at named
    simp only [spellsGeneric, field, named, String.toList_append, List.isPrefixOf_iff_prefix,
      List.prefix_append]
  | _ => simp [declares, field] at named

section

variable [Host]

variable {table : Declarations} {templates : Int → Template} {a : TypeApplication} {type : ParamType}

theorem distinctOfExpandable (expandable : Expandable table) : Distinct table := by
  refine ⟨fun id d found parameter member => ?_, expandable.unambiguous⟩
  obtain ⟨word, e, node, _⟩ := expandable.parameters id d found parameter member
  exact ⟨e, node.found⟩

theorem expandableOfLess {declarations : List TypeDeclaration} {id : Int} {word : String}
    (texts : ∀ d ∈ declarations, ∃ text, d.typeField = .str text)
    (lower : ∀ d ∈ declarations, ∀ other ∈ allMentioned (d.components.getD []),
      other < d.typeId ∧ (find (ofList declarations) other).toOption.isSome)
    (generic : Parameter (ofList declarations) id word)
    (parameters : ∀ d ∈ declarations, ∀ parameter ∈ d.typeParameters, parameter = id)
    (named : ∀ d ∈ declarations, spellsGeneric d = true → d.typeId = id) :
    Expandable (ofList declarations) := by
  have refers : ∀ id other, Refers (ofList declarations) id other →
      other < id ∧ (find (ofList declarations) other).toOption.isSome := by
    rintro id other ⟨d, found, member⟩
    obtain rfl := indexedOfList declarations id d found
    exact lower d (memOfFind found) other member
  have distinct := distinctOfOne generic.choose_spec.1.found parameters
    fun d member word declares => named d member (spellsOfDeclares declares)
  refine ⟨fun id d found => texts d (memOfFind found), fun id other path => ?_,
    acyclicOfLess fun id other path => (refers id other path).1, fun key e found parameter member => ?_,
    distinct.unambiguous⟩
  · cases found : find (ofList declarations) other with
    | ok e => exact ⟨e, rfl⟩
    | error fault =>
      have isSome := (refers id other path).2
      rw [found] at isSome
      cases isSome
  · rw [parameters e (memOfFind found) parameter member]
    exact ⟨word, generic⟩

theorem mentionedOfYields {n : Nat} (yields : Yields table n a [] type) :
    ∀ id ∈ mentioned a, ∃ d, find table id = .ok d := by
  induction n generalizing a type with
  | zero => exact yields.elim
  | succ n ih =>
    cases yields with
    | bound node stands => cases stands
    | @applied name id applied d expr types bindings type node plain each arity settles =>
      refine List.forall_mem_cons.mpr ⟨⟨d, node.found⟩, ?_⟩
      clear settles arity
      induction each with
      | nil => exact List.forall_mem_nil _
      | cons first _ rest => exact List.forall_mem_append.mpr ⟨ih first, rest⟩

theorem writesOfResolve {limit : Int} (expanded : Expanded table templates)
    (resolved : (resolve table limit a Memory.empty).1 = .ok type) : ∃ p, Writes table templates a p := by
  have distinct := distinctOfExpandable expanded.expandable
  have unbound : Bound table [] := boundOfParametric parametricEmpty
  obtain ⟨twin, ⟨n, yields⟩, _⟩ := (alikeAccount expanded.indexed distinct).ofResolve
    expanded.indexed (List.forall_mem_nil _) unbound resolved
  exact ⟨write templates a, writesWrite a fun id member => ⟨mentionedOfYields yields id member, rfl⟩⟩

theorem coversEmpty (expanded : Expanded table templates) : Covers expanded Memory.empty Memory.empty :=
  ⟨fun _ known => (nomatch known.choose_spec.choose_spec.1), Memory.keepsEmpty, Memory.keepsEmpty⟩

theorem reflectsEmpty (table : Declarations) : Reflects table [] [] :=
  ⟨parametricEmpty, List.nodup_nil, rfl⟩

/-- Where all that is referred to is declared, without cycles, and parameters are told apart by their
names: an application for which a type is found can be written out, and for the node that is written out
an equal type is found within the same limit. -/
theorem resolveAsWrittenOut (declarations : List TypeDeclaration) (limit : Int)
    (expandable : Expandable (ofList declarations)) (a : TypeApplication) (type : ParamType)
    (resolved : (resolve (ofList declarations) limit a Memory.empty).1 = .ok type) :
    (∃ p, WrittenOut (ofList declarations) a p) ∧
      ∀ p, WrittenOut (ofList declarations) a p →
        ∃ twin, Property.fresh (Property.resolve limit p []) = .ok twin ∧ type.same twin = true := by
  have indexed := indexedOfList declarations
  constructor
  · obtain ⟨templates, fit⟩ := allFitExists expandable
    obtain ⟨p, writes⟩ := writesOfResolve ⟨indexed, expandable, fit⟩ resolved
    exact ⟨p, templates, fit, writes⟩
  · rintro p ⟨templates, fit, writes⟩
    have expanded : Expanded (ofList declarations) templates := ⟨indexed, expandable, fit⟩
    have covers := coversEmpty expanded
    have reflects := reflectsEmpty (ofList declarations)
    have outermost : Within (sizeOf p) Memory.empty := List.forall_mem_nil _
    have runs : Resolving.Runs (resolve (ofList declarations) limit a) Memory.empty type _ :=
      Prod.ext resolved rfl
    obtain ⟨twin, after, attains⟩ :=
      simulates expanded limit limit.toNat a reflects writes covers outermost runs
    obtain ⟨_, alike, _⟩ := coversAfter expanded reflects writes covers runs attains
    exact ⟨twin, congrArg Prod.fst attains.1, (ParamType.sameIff type twin).mpr alike⟩

end

theorem resolveAsWrittenOutNested :
    let declarations : List TypeDeclaration := [⟨0, .str "u64", none, []⟩, ⟨1, .str "generic T", none, []⟩,
      ⟨2, .str "[generic T; 2]", none, []⟩,
      ⟨3, .str "struct Pair", some [.mk "first" 1 [], .mk "others" 2 []], [1]⟩,
      ⟨4, .str "struct Outer",
        some [.mk "pair" 3 [.mk "" 1 []], .mk "pairs" 3 [.mk "" 3 [.mk "" 1 []]]], [1]⟩]
    let number := Property.mk "" (.str "u64") none none none
    let parameter := fun name => Property.mk name (.str "generic T") none none none
    let members := [parameter "first", .mk "others" (.str "[generic T; 2]") none none none]
    let pair := fun name argument =>
      Property.mk name (.str "struct Pair") (some members) (some [argument]) (some ["T"])
    let pairs := [pair "pair" (parameter ""), pair "pairs" (pair "" (parameter ""))]
    let outer := Property.mk "" (.str "struct Outer") (some pairs) (some [number]) (some ["T"])
    let applied := TypeApplication.mk "" 4 [.mk "" 0 []]
    let pairOf := fun type => ParamType.struct [type, .array type 2] [type] "Pair" ["first", "others"]
    let type := ParamType.struct [pairOf (.primitive .u64), pairOf (pairOf (.primitive .u64))]
      [.primitive .u64] "Outer" ["pair", "pairs"]
    Expandable (ofList declarations) ∧
      (resolve (ofList declarations) 3 applied Memory.empty).1 = .ok type ∧
      WrittenOut (ofList declarations) applied outer ∧
      ∃ twin, Property.fresh (Property.resolve 3 outer []) = .ok twin ∧ type.same twin = true := by
  intro declarations number parameter members pair pairs outer applied pairOf type
  have resolved : (resolve (ofList declarations) 3 applied Memory.empty).1 = .ok type := by
    dsimp only [declarations, applied, type, pairOf]
    decide +kernel
  have generic : Parameter (ofList declarations) 1 "T" := ⟨_, ⟨rfl, rfl⟩, by decide⟩
  have expandable : Expandable (ofList declarations) :=
    expandableOfLess (by simp [declarations]) (by decide) generic (by decide) (by decide)
  have written : WrittenOut (ofList declarations) applied outer := by
    let templates : Int → Template := fun
      | 0 => ⟨.str "u64", none, none⟩
      | 1 => ⟨.str "generic T", none, none⟩
      | 2 => ⟨.str "[generic T; 2]", none, none⟩
      | 3 => ⟨.str "struct Pair", some members, some ["T"]⟩
      | _ => ⟨.str "struct Outer", some pairs, some ["T"]⟩
    have writesNumber : Writes (ofList declarations) templates (.mk "" 0 []) number :=
      @Writes.mk _ templates "" 0 [] _ none rfl .nil
    have writesParameter : ∀ name, Writes (ofList declarations) templates (.mk name 1 []) (parameter name) :=
      fun name => @Writes.mk _ templates name 1 [] _ none rfl .nil
    have writesPair : ∀ name a p, Writes (ofList declarations) templates a p →
        Writes (ofList declarations) templates (.mk name 3 [a]) (pair name p) :=
      fun name a p writes => @Writes.mk _ templates name 3 [a] _ (some [p]) rfl (.cons writes .nil)
    have writesMembers : Forall₂ (Writes (ofList declarations) templates)
        [.mk "first" 1 [], .mk "others" 2 []] members :=
      .cons (writesParameter "first") (.cons (@Writes.mk _ templates "others" 2 [] _ none rfl .nil) .nil)
    have writesPairs : Forall₂ (Writes (ofList declarations) templates)
        [.mk "pair" 3 [.mk "" 1 []], .mk "pairs" 3 [.mk "" 3 [.mk "" 1 []]]] pairs :=
      .cons (writesPair _ _ _ (writesParameter ""))
        (.cons (writesPair _ _ _ (writesPair _ _ _ (writesParameter ""))) .nil)
    have writesOuter : Writes (ofList declarations) templates applied outer :=
      @Writes.mk _ templates "" 4 _ _ (some [number]) rfl (.cons writesNumber .nil)
    refine ⟨templates, fun id d found => ?_, writesOuter⟩
    obtain rfl := indexedOfList declarations id d found
    have among := memOfFind found
    simp only [declarations, List.mem_cons, List.not_mem_nil, or_false] at among
    rcases among with rfl | rfl | rfl | rfl | rfl
    · exact ⟨rfl, .none, .nil⟩
    · exact ⟨rfl, .none, .nil⟩
    · exact ⟨rfl, .none, .nil⟩
    · exact ⟨rfl, .some writesMembers, .cons generic .nil⟩
    · exact ⟨rfl, .some writesPairs, .cons generic .nil⟩
  exact ⟨expandable, resolved, written,
    (resolveAsWrittenOut declarations 3 expandable applied type resolved).2 outer written⟩

end WordAbi.Declarations
