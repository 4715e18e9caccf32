import WordAbi.Proofs.Schema.Flat.Expansion
import WordAbi.Proofs.Schema.Flat.Parameters
/-! Types that follow from the declarations under bindings to types of the same shapes have the same
shape, and so a memory that takes keys of the same shapes for one key keeps the shapes of types. -/
namespace WordAbi.Declarations

open List (Forall₂)

variable {table : Declarations} {bindings others : Bindings Int} {type : ParamType} {n : Nat}

structure Distinct (table : Declarations) : Prop where
  declared : Declared table
  unambiguous : Unambiguous table

theorem distinctOfOne {declarations : List TypeDeclaration} {id : Int} {d : TypeDeclaration}
    (there : find (ofList declarations) id = .ok d)
    (parameters : ∀ e ∈ declarations, ∀ parameter ∈ e.typeParameters, parameter = id)
    (named : ∀ e ∈ declarations, ∀ word, declares e word = true → e.typeId = id) :
    Distinct (ofList declarations) := by
  have own : ∀ {key e word}, find (ofList declarations) key = .ok e → declares e word = true → key = id := by
    intro key e word found name
    rw [← indexedOfList declarations key e found]
    exact named e (memOfFind found) word name
  constructor
  · intro key e found parameter member
    rw [parameters e (memOfFind found) parameter member]
    exact ⟨d, there⟩
  · intro key other e e' word found foundToo name nameToo
    rw [own found name, own foundToo nameToo]

theorem settlesAlike (distinct : Distinct table) {of : TypeApplication → Bindings Int → ParamType → Prop}
    {key : Key} (other : Key) {d : TypeDeclaration} {expr : TypeExpr}
    (component : ∀ c type, of c key.bindings type → ∃ twin, of c other.bindings twin ∧ type.Alike twin)
    (bound : Bound table key.bindings) (boundToo : Bound table other.bindings)
    (arguments : Forall₂ ParamType.Alike key.arguments other.arguments)
    (alike : key.bindings.Alike other.bindings) (settles : key.Settles table of d expr type) :
    ∃ twin, other.Settles table of d expr twin ∧ type.Alike twin :=
  Site.settlesFollows component arguments
    (substituteFollows distinct.unambiguous bound boundToo alike d.typeField.display) settles

variable [Host]

theorem yieldsAlike (distinct : Distinct table) {a : TypeApplication} (bound : Bound table bindings)
    (boundToo : Bound table others) (alike : bindings.Alike others)
    (yields : Yields table n a bindings type) :
    ∃ twin, Yields table n a others twin ∧ type.Alike twin := by
  induction n generalizing a bindings others type with
  | zero => exact yields.elim
  | succ n ih =>
    cases yields with
    | bound node stands =>
      obtain ⟨twin, there, same⟩ := Bindings.alikeFound alike stands
      exact ⟨twin, .bound node there, same⟩
    | @applied name id applied d expr types bindings type node plain each arity settles =>
      obtain ⟨twins, there, alikes⟩ :=
        Site.twinsOf (fun a type yields => ih bound boundToo alike yields) each
      have inner := boundExtend distinct.declared bound node.found types
      have innerToo := boundExtend distinct.declared boundToo node.found twins
      have extended := Bindings.alikeExtend d.typeParameters alike alikes
      obtain ⟨twin, settlesToo, same⟩ := settlesAlike distinct (ownKey d twins others)
        (fun c type yields => ih inner innerToo extended yields) inner innerToo alikes extended settles
      exact ⟨twin, .applied node plain there (arity.trans alikes.length_eq) settlesToo, same⟩

theorem keyGivesAlike (distinct : Distinct table) (key other : Key) (id : key.typeId = other.typeId)
    (bound : Bound table key.bindings) (boundToo : Bound table other.bindings)
    (arguments : Forall₂ ParamType.Alike key.arguments other.arguments)
    (alike : key.bindings.Alike other.bindings) (gives : key.Gives table type) :
    ∃ twin, other.Gives table twin ∧ type.Alike twin := by
  obtain ⟨n, d, expr, node, plain, arity, settles⟩ := gives
  obtain ⟨twin, settlesToo, same⟩ := settlesAlike distinct other
    (fun c type yields => yieldsAlike distinct bound boundToo alike yields) bound boundToo arguments alike
    settles
  exact ⟨twin, ⟨n, d, expr, id ▸ node, plain, arity.trans arguments.length_eq, settlesToo⟩, same⟩

theorem keyGivesSame (distinct : Distinct table) {key other : Key} (same : key.same other = true)
    (bound : Bound table key.bindings) (boundToo : Bound table other.bindings)
    (gives : key.Gives table type) : ∃ twin, other.Gives table twin ∧ type.Alike twin := by
  simp only [Key.same, Bool.and_eq_true, beq_iff_eq] at same
  obtain ⟨⟨id, arguments⟩, bindings⟩ := same
  have alikes := ParamType.alikeOfShapes ((ParamType.sameListIff _ _).mp arguments)
  exact keyGivesAlike distinct key other id bound boundToo alikes
    (Bindings.shapesOfSame bindings bound.once) gives

def alikeAccount (indexed : Indexed table) (distinct : Distinct table) : Account table where
  allows _ bindings := Bound table bindings
  of a bindings type := ∃ twin, Gives table a bindings twin ∧ type.Alike twin
  meets key := Bound table key.bindings ∧
    ∀ d expr, Node table key.typeId d expr → d.typeParameters.length = key.arguments.length
  found key type := ∃ twin, key.Gives table twin ∧ type.Alike twin
  bound node stands := ⟨_, ⟨1, .bound node stands⟩, rfl⟩
  argument bound _ _ _ _ := bound
  applied := by
    intro name id applied d expr types bindings bound node plain each arity
    have inner := boundExtend distinct.declared bound node.found types
    refine ⟨⟨inner, ownArity indexed node arity⟩, fun type found => ?_⟩
    obtain ⟨twin, gives, same⟩ := found
    obtain ⟨twins, there, alikes⟩ := Site.twinsOf (fun a type found => found) each
    have innerToo := boundExtend distinct.declared bound node.found twins
    have alike : bindings.Alike bindings := fun _ => rfl
    have extended := Bindings.alikeExtend d.typeParameters alike alikes
    obtain ⟨other, givesToo, sameToo⟩ := keyGivesAlike distinct (ownKey d types bindings)
      (ownKey d twins bindings) rfl inner innerToo alikes extended gives
    exact ⟨other, givesOfKey indexed node plain there givesToo, same.trans sameToo⟩
  component meets _ _ _ _ := meets.1
  settled := by
    intro d expr key type meets node plain settles
    have arguments : Forall₂ ParamType.Alike key.arguments key.arguments :=
      List.forall₂_same.mpr fun _ _ => rfl
    obtain ⟨twin, settlesToo, same⟩ := Site.settlesFollows (fun c type found => found) arguments
      (fun _ => Site.followsRefl _) settles
    exact ⟨twin, keyGivesOfSettles node plain (meets.2 d expr node) settlesToo, same⟩
  shared := by
    intro key other type meets meetsToo found same
    obtain ⟨twin, gives, alike⟩ := found
    obtain ⟨last, givesToo, alikeToo⟩ := keyGivesSame distinct same meets.1 meetsToo.1 gives
    exact ⟨last, givesToo, alike.trans alikeToo⟩

end WordAbi.Declarations
