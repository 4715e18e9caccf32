import WordAbi.Proofs.Schema.Flat.Parameters
import WordAbi.Proofs.Schema.Nesting
/-! Types of declared types nest as deeply as their declarations do, applied one inside the other,
whatever a resolver remembers. -/
namespace WordAbi.Declarations

open List (Forall₂)
open ParamType (height)

variable {table : Declarations}

def Stands (table : Declarations) (levels : Int → Option Nat) (word : String) (n : Nat) : Prop :=
  ∃ id d, find table id = .ok d ∧ declares d word = true ∧ levels id = some n

theorem standsOfSubstitute {source word : String} {bindings : Bindings Int} {type : ParamType}
    (nodup : (Table.keys bindings).Nodup) (found : substitute table source word bindings = .ok type) :
    Stands table bindings.levels word type.height := by
  obtain ⟨id, d, member, declared, named⟩ := substituteOk found
  refine ⟨id, d, declared, named, ?_⟩
  rw [Bindings.levels, Table.getOfMem nodup member, Option.map_some]

theorem standsUnique (unambiguous : Unambiguous table) {levels : Int → Option Nat} {word : String}
    {m n : Nat} (one : Stands table levels word m) (two : Stands table levels word n) : m = n := by
  obtain ⟨id, d, declared, named, known⟩ := one
  obtain ⟨other, e, declaredToo, namedToo, knownToo⟩ := two
  obtain rfl := unambiguous declared declaredToo named namedToo
  exact Option.some.inj (known.symm.trans knownToo)

variable [Host]

inductive Nests (table : Declarations) : TypeApplication → (Int → Option Nat) → Nat → Prop
  | bound {name id applied d word levels n} (node : Node table id d (.generic word))
      (stands : levels id = some n) : Nests table (.mk name id applied) levels n
  | applied {name id applied d expr arguments parts choice levels n} (node : Node table id d expr)
      (plain : expr.Plain) (aligned : applied.length = arguments.length)
      (each : ∀ {a m}, (a, m) ∈ applied.zip arguments → Nests table a levels m)
      (arity : d.typeParameters.length = arguments.length)
      (known : (d.components.getD []).length = parts.length)
      (components : ∀ {c part}, (c, part) ∈ (d.components.getD []).zip parts → ∀ m, part = some m →
        Nests table c (overlay levels d.typeParameters arguments) m)
      (stands : ∀ word m, choice word = some m →
        Stands table (overlay levels d.typeParameters arguments) word m)
      (counted : expr.nesting arguments parts choice = some n) :
      Nests table (.mk name id applied) levels n

def OwnNests (table : Declarations) (id : Int) (arguments : List Nat) (levels : Int → Option Nat)
    (n : Nat) : Prop :=
  ∃ d expr parts choice, Node table id d expr ∧
    Forall₂ (fun c part => ∀ m, part = some m → Nests table c levels m) (d.components.getD []) parts ∧
    (∀ word m, choice word = some m → Stands table levels word m) ∧
    expr.nesting arguments parts choice = some n

theorem ownNestsOfSettles {d : TypeDeclaration} {expr : TypeExpr} {key : Key} {type : ParamType}
    (nodup : (Table.keys key.bindings).Nodup) (node : Node table key.typeId d expr)
    (settles : key.Settles table (fun c bindings type => Nests table c bindings.levels type.height)
      d expr type) :
    OwnNests table key.typeId (key.arguments.map height) key.bindings.levels type.height := by
  obtain ⟨answers, each, built⟩ := settles
  let count : Except Fault ParamType → Option Nat := fun answer => answer.toOption.map height
  let choice : String → Option Nat :=
    fun word => count (substitute table d.typeField.display word key.bindings)
  have counts : Forall₂ Site.Counts answers (answers.map count) := by
    rw [List.forall₂_map_right_iff, List.forall₂_same]
    rintro _ _ type rfl
    rfl
  refine ⟨d, expr, answers.map count, choice, node, ?_, ?_, ?_⟩
  · rw [List.forall₂_map_right_iff]
    refine each.imp fun c answer answers m same => ?_
    cases answer with
    | error fault => cases same
    | ok type =>
      cases same
      exact answers type rfl
  · intro word m same
    cases found : substitute table d.typeField.display word key.bindings with
    | error fault => simp [choice, count, found, Except.toOption] at same
    | ok type =>
      simp only [choice, count, found, Except.toOption, Option.map_some, Option.some.injEq] at same
      subst same
      exact standsOfSubstitute nodup found
  · refine Site.nestingOfSettled each.length_eq.symm counts (fun word type found => ?_) built
    simp only [choice, count, found, Except.toOption, Option.map_some]

theorem ownNestsOfSame {key other : Key} {n : Nat} (nodup : (Table.keys key.bindings).Nodup)
    (nests : OwnNests table key.typeId (key.arguments.map height) key.bindings.levels n)
    (same : key.same other = true) :
    OwnNests table other.typeId (other.arguments.map height) other.bindings.levels n := by
  simp only [Key.same, Bool.and_eq_true, beq_iff_eq] at same
  obtain ⟨⟨id, arguments⟩, bindings⟩ := same
  rw [← id, ← ParamType.mapHeightOfSame arguments, ← Bindings.levelsOfSame bindings nodup]
  exact nests

theorem nestsOfOwn {name : String} {id : Int} {applied : List TypeApplication} {d : TypeDeclaration}
    {expr : TypeExpr} {bindings : Bindings Int} {types : List ParamType} {n : Nat} (here : d.typeId = id)
    (node : Node table id d expr) (plain : expr.Plain)
    (each : Forall₂ (fun a type => Nests table a bindings.levels type.height) applied types)
    (arity : d.typeParameters.length = types.length)
    (own : OwnNests table d.typeId (types.map height)
      (Bindings.extend bindings d.typeParameters types).levels n) :
    Nests table (.mk name id applied) bindings.levels n := by
  obtain ⟨e, other, parts, choice, declared, components, stands, counted⟩ := own
  rw [here] at declared
  obtain ⟨rfl, rfl⟩ := nodeUnique node declared
  rw [Bindings.levelsExtend] at components stands
  rw [← List.forall₂_map_right_iff] at each
  have pairs := List.forall₂_iff_zip.mp each
  have inner := List.forall₂_iff_zip.mp components
  exact .applied node plain pairs.1 pairs.2 (by simpa using arity) inner.1 inner.2 stands counted

def nestingAccount (table : Declarations) (indexed : Indexed table) : Account table where
  allows _ bindings := (Table.keys bindings).Nodup
  of a bindings type := Nests table a bindings.levels type.height
  meets key := (Table.keys key.bindings).Nodup
  found key type :=
    OwnNests table key.typeId (key.arguments.map height) key.bindings.levels type.height
  bound node found := .bound node (by rw [Bindings.levels, found, Option.map_some])
  argument nodup _ _ _ _ := nodup
  applied := by
    intro name id applied d expr types bindings nodup node plain each arity
    refine ⟨Bindings.nodupExtend nodup, fun type nests => ?_⟩
    exact nestsOfOwn (indexed id d node.found) node plain each arity nests
  component nodup _ _ _ _ := nodup
  settled nodup node _ settles := ownNestsOfSettles nodup node settles
  shared nodup _ nests same := ownNestsOfSame nodup nests same

theorem nestsOfResolve {declarations : List TypeDeclaration} {limit : Int}
    {history : List TypeApplication} {a : TypeApplication} {type : ParamType}
    (resolved : (resolve (ofList declarations) limit a
      (memoryAfter (ofList declarations) limit history)).1 = .ok type) :
    Nests (ofList declarations) a (fun _ => none) type.height := by
  have indexed := indexedOfList declarations
  have unbound : (Table.keys ([] : Bindings Int)).Nodup := List.nodup_nil
  exact (nestingAccount _ indexed).ofResolve indexed (fun _ _ => unbound) unbound resolved

theorem argumentsUnique {levels : Int → Option Nat} {applied : List TypeApplication}
    {arguments others : List Nat}
    (one : Forall₂ (fun a m => ∀ n, Nests table a levels n → m = n) applied arguments)
    (two : Forall₂ (fun a n => Nests table a levels n) applied others) : arguments = others := by
  induction one generalizing others with
  | nil =>
    cases two
    rfl
  | cons first rest ih =>
    cases two with
    | cons head tail => rw [first _ head, ih tail]

theorem partsUnique {levels : Int → Option Nat} {cs : List TypeApplication} {parts others : List (Option Nat)}
    (one : Forall₂ (fun c part => ∀ m, part = some m → ∀ n, Nests table c levels n → m = n) cs parts)
    (two : Forall₂ (fun c part => ∀ n, part = some n → Nests table c levels n) cs others) :
    Forall₂ TypeExpr.Agree parts others := by
  induction one generalizing others with
  | nil =>
    cases two
    exact .nil
  | cons first rest ih =>
    cases two with
    | cons head tail => exact .cons (fun m n here there => first m here n (head n there)) (ih tail)

theorem nestsUnique (unambiguous : Unambiguous table) {a : TypeApplication} {levels : Int → Option Nat}
    {m n : Nat} (one : Nests table a levels m) (two : Nests table a levels n) : m = n := by
  -- a derivation fixes the declarations; only the choice of a parameter by its name is left open
  induction one generalizing n with
  | bound node stands =>
    cases two with
    | bound _ standsToo => exact Option.some.inj (stands.symm.trans standsToo)
    | applied other plain =>
      obtain ⟨_, rfl⟩ := nodeUnique node other
      exact absurd rfl (plain _)
  | applied node plain aligned each arity known components stands counted ihEach ihComponents =>
    cases two with
    | bound other _ =>
      obtain ⟨_, rfl⟩ := nodeUnique node other
      exact absurd rfl (plain _)
    | applied other _ alignedToo eachToo _ knownToo componentsToo standsToo countedToo =>
      obtain ⟨rfl, rfl⟩ := nodeUnique node other
      obtain rfl := argumentsUnique
        (List.forall₂_iff_zip.mpr ⟨aligned, fun member _ nests => ihEach member nests⟩)
        (List.forall₂_iff_zip.mpr ⟨alignedToo, eachToo⟩)
      have parts := partsUnique
        (List.forall₂_iff_zip.mpr ⟨known, fun member m same _ nests => ihComponents member m same nests⟩)
        (List.forall₂_iff_zip.mpr ⟨knownToo, componentsToo⟩)
      exact TypeExpr.nestingAgree parts
        (fun word m n here there => standsUnique unambiguous (stands word m here) (standsToo word n there))
        _ _ _ _ counted countedToo

end WordAbi.Declarations
