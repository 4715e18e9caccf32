import WordAbi.Proofs.Schema.Flat.Expansion
/-! Working a type out anew finds the type that follows from the declarations, unless the limit of
nesting is in the way. It never takes a declaration for recursive that has a type: below a derivation
of least height there is none for the same declaration. -/
namespace WordAbi.Declarations

open List (Forall₂)
open Resolving (Reaches reachesPure reachesBind reachesLift reachesWorked)

variable [Host]

variable {table : Declarations} {limit : Int} {m n : Nat} {key : Key} {opened : List Key}
  {type : ParamType} {bindings : Bindings Int}

def Above (table : Declarations) (n : Nat) (opened : List Key) : Prop :=
  ∀ key ∈ opened, ∀ (twin : Key) m type, twin.typeId = key.typeId → twin.Yields table m type → n ≤ m

theorem aboveMono (le : m ≤ n) (above : Above table n opened) : Above table m opened :=
  fun key member twin k type id yields => Nat.le_trans le (above key member twin k type id yields)

theorem leastHeight (yields : key.Yields table n type) :
    ∃ m, m ≤ n ∧ key.Yields table m type ∧ ∀ k, key.Yields table k type → m ≤ k := by
  induction n with
  | zero => exact ⟨0, Nat.le_refl 0, yields, fun k _ => Nat.zero_le k⟩
  | succ n ih =>
    by_cases lower : key.Yields table n type
    · obtain ⟨m, le, least⟩ := ih lower
      exact ⟨m, Nat.le_succ_of_le le, least⟩
    · refine ⟨n + 1, Nat.le_refl _, yields, fun k other => ?_⟩
      by_contra less
      exact lower (keyYieldsMono (by omega) other)

theorem aboveOpened (above : Above table n opened) (le : m ≤ n) (yields : key.Yields table m type)
    (least : ∀ k, key.Yields table k type → m ≤ k) : Above table m (key :: opened) := by
  intro other member twin k type' id lower
  rcases List.mem_cons.mp member with rfl | member
  · exact least k (keyYieldsLower id yields lower)
  · exact Nat.le_trans le (above other member twin k type' id lower)

theorem notInProgress (above : Above table (n + 1) opened) (yields : key.Yields table n type) :
    ∀ other ∈ opened, other.same key = false := by
  intro other member
  cases same : other.same key with
  | false => rfl
  | true =>
    simp only [Key.same, Bool.and_eq_true, beq_iff_eq] at same
    exact absurd (above other member key n type same.1.1.symm yields) (by omega)

def ReachesUpTo (table : Declarations) (limit : Int) (n : Nat) (resolver : Resolver) : Prop :=
  ∀ m ≤ n, ∀ c inner type opened, Yields table m c inner type → Above table m opened →
    Reaches limit opened (resolver c inner) type

theorem reachesKey {deeper : Option Resolver} {d : TypeDeclaration} {expr : TypeExpr}
    (node : Node table key.typeId d expr) (yields : key.Yields table n type)
    (above : Above table (n + 1) opened)
    (below : ∀ resolver, deeper = some resolver → ReachesUpTo table limit n resolver) :
    Reaches limit opened
      (Resolving.worked Key.same limit d.typeField.display key (deeper.map fun deeper => Site.build
        ⟨d.typeField.display, suspend deeper d.components key.bindings, key.arguments,
          fun name => Site.lift (substitute table d.typeField.display name key.bindings)⟩ expr))
      type := by
  -- a derivation of least height is followed: below it the declaration can not come again
  obtain ⟨m, le, low, least⟩ := leastHeight yields
  have inside := aboveOpened above (Nat.le_succ_of_le le) low least
  refine reachesWorked (notInProgress above yields) fun work given => ?_
  obtain ⟨resolver, has, rfl⟩ := Option.map_eq_some_iff.mp given
  obtain ⟨e, other, nodeToo, _, _, settles⟩ := low
  obtain ⟨rfl, rfl⟩ := nodeUnique node nodeToo
  exact Site.reachesBuild settles fun c _ type follows =>
    below resolver has m le c key.bindings type _ follows inside

theorem reachesArguments {guard : Guard} {deeper : Option Resolver} {as : List TypeApplication}
    {types : List ParamType}
    (each : Forall₂ (fun a type => Reaches limit opened (resolveWith table guard deeper a bindings) type)
      as types) :
    Reaches limit opened (resolveArguments table guard deeper as bindings) types := by
  induction each with
  | nil => exact reachesPure []
  | cons first _ ih =>
    rw [resolveArguments]
    exact reachesBind first (reachesBind ih (reachesPure _))

theorem reachesFollows (indexed : Indexed table) {deeper : Option Resolver} {a : TypeApplication}
    (follows : Follows table (Yields table n) a bindings type) (above : Above table (n + 1) opened)
    (same : ReachesUpTo table limit n (resolveWith table (Resolving.worked Key.same limit) deeper))
    (below : ∀ resolver, deeper = some resolver → ReachesUpTo table limit n resolver) :
    Reaches limit opened (resolveWith table (Resolving.worked Key.same limit) deeper a bindings) type := by
  cases follows with
  | @bound name id applied d word bindings type node stands =>
    obtain rfl := indexed id d node.found
    rw [resolveWith]
    refine reachesBind (reachesLift node.found) (reachesBind (reachesLift node.reads) ?_)
    dsimp only
    rw [stands]
    exact reachesPure type
  | @applied name id applied d expr types bindings type node plain each arity settles =>
    obtain rfl := indexed id d node.found
    rw [resolveWith]
    refine reachesBind (reachesLift node.found) (reachesBind (reachesLift node.reads) ?_)
    dsimp only
    split
    · exact absurd rfl (plain _)
    · have arguments : Forall₂ (fun a type => Reaches limit opened (resolveWith table
          (Resolving.worked Key.same limit) deeper a bindings) type) applied types :=
        each.imp fun a type yields =>
          same n (Nat.le_refl n) a bindings type opened yields (aboveMono (Nat.le_succ n) above)
      refine reachesBind (reachesArguments arguments) ?_
      rw [if_neg (not_not.mpr arity)]
      have own : (ownKey d types bindings).Yields table n type :=
        ⟨d, expr, node, plain, arity, settles⟩
      exact reachesKey node own above below

theorem reachesUpTo (indexed : Indexed table) (n room : Nat) :
    ReachesUpTo table limit n (resolverIn table (Resolving.worked Key.same limit) room) := by
  -- on the height of derivations; the room only decides whether the limit is met
  induction n generalizing room with
  | zero =>
    intro m le c inner type opened yields
    obtain rfl := Nat.le_zero.mp le
    exact yields.elim
  | succ n ih =>
    intro m le c inner type opened yields above
    rcases Nat.le_succ_iff.mp le with lower | rfl
    · exact ih room m lower c inner type opened yields above
    · cases room with
      | zero =>
        refine reachesFollows indexed yields above (ih 0) fun resolver absurd => ?_
        cases absurd
      | succ room =>
        refine reachesFollows indexed yields above (ih (room + 1)) fun resolver same => ?_
        cases same
        exact ih room

theorem resolveAnewOfGives (indexed : Indexed table) {a : TypeApplication} (gives : Gives table a [] type) :
    resolveAnew table limit a = .ok type ∨
      ∃ source, resolveAnew table limit a = .error (.unsupported (.resolutionDepth limit source)) := by
  obtain ⟨n, yields⟩ := gives
  have above : Above table n [] := fun key member => nomatch member
  exact (reachesUpTo indexed n limit.toNat n (Nat.le_refl n) a [] type [] yields above Memory.empty rfl).2

end WordAbi.Declarations
