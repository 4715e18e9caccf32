import WordAbi.Proofs.Schema.Flat.Account
/-! The types of applications as they follow from the declarations alone, without a memory and without
a limit: by derivations, which are counted by their height. An application has at most one type, and a
derivation of its type under some bindings is as high as is needed under any others. -/
namespace WordAbi.Declarations

open List (Forall₂)

variable {table : Declarations} {a : TypeApplication} {bindings : Bindings Int} {type other : ParamType}
  {m n : Nat}

theorem forall₂Lower {ι : Type} {of low further : ι → ParamType → Prop} {items : List ι}
    {types others : List ParamType} (step : ∀ item type other, of item type → low item other → further item type)
    (each : Forall₂ of items types) (lower : Forall₂ low items others) : Forall₂ further items types := by
  induction each generalizing others with
  | nil => exact .nil
  | cons first rest ih =>
    cases lower with
    | cons low lows => exact .cons (step _ _ _ first low) (ih lows)

theorem settlesLower {of low : TypeApplication → Bindings Int → ParamType → Prop} {d : TypeDeclaration}
    {expr : TypeExpr} {key twin : Key} (length : twin.arguments.length = key.arguments.length)
    (step : ∀ c type other, of c key.bindings type → low c twin.bindings other →
      low c key.bindings type)
    (settles : key.Settles table of d expr type) (lower : twin.Settles table low d expr other) :
    key.Settles table low d expr type := by
  have asks := Site.asksOfLength expr length
  cases asked : Site.asks key.arguments expr with
  | false =>
    obtain ⟨answers, _, built⟩ := settles
    refine ⟨_, Site.answersUnused _ _, ?_⟩
    rw [Site.settledUnasked asked _ answers]
    exact built
  | true =>
    obtain ⟨types, each, built⟩ := Site.settlesTypes settles asked
    obtain ⟨others, lowEach, _⟩ := Site.settlesTypes lower (asks.trans asked)
    exact ⟨_, Site.answersOk (forall₂Lower step each lowEach), built⟩

theorem commonHeight {α β : Type} {R : Nat → α → β → Prop}
    (mono : ∀ {m n a b}, m ≤ n → R m a b → R n a b) {as : List α} {bs : List β}
    (each : Forall₂ (fun a b => ∃ n, R n a b) as bs) : ∃ n, Forall₂ (R n) as bs := by
  induction each with
  | nil => exact ⟨0, .nil⟩
  | cons first _ ih =>
    obtain ⟨m, first⟩ := first
    obtain ⟨n, rest⟩ := ih
    refine ⟨max m n, .cons (mono (Nat.le_max_left m n) first) ?_⟩
    exact rest.imp fun a b holds => mono (Nat.le_max_right m n) holds

variable [Host]

inductive Follows (table : Declarations) (of : TypeApplication → Bindings Int → ParamType → Prop) :
    TypeApplication → Bindings Int → ParamType → Prop
  | bound {name id applied d word bindings type} (node : Node table id d (.generic word))
      (stands : Table.get? bindings id = some type) : Follows table of (.mk name id applied) bindings type
  | applied {name id applied d expr types bindings type} (node : Node table id d expr)
      (plain : expr.Plain) (each : Forall₂ (fun a => of a bindings) applied types)
      (arity : d.typeParameters.length = types.length)
      (settles : (ownKey d types bindings).Settles table of d expr type) :
      Follows table of (.mk name id applied) bindings type

/-- The type follows by a derivation of at most so many steps one below the other. -/
def Yields (table : Declarations) : Nat → TypeApplication → Bindings Int → ParamType → Prop
  | 0 => fun _ _ _ => False
  | n + 1 => Follows table (Yields table n)

def Key.Yields (table : Declarations) (n : Nat) (key : Key) (type : ParamType) : Prop :=
  ∃ d expr, Node table key.typeId d expr ∧ expr.Plain ∧
    d.typeParameters.length = key.arguments.length ∧
    key.Settles table (Declarations.Yields table n) d expr type

def Gives (table : Declarations) (a : TypeApplication) (bindings : Bindings Int) (type : ParamType) :
    Prop :=
  ∃ n, Yields table n a bindings type

def Key.Gives (table : Declarations) (key : Key) (type : ParamType) : Prop :=
  ∃ n, key.Yields table n type

theorem followsOf {of further : TypeApplication → Bindings Int → ParamType → Prop}
    (weaker : ∀ a bindings type, of a bindings type → further a bindings type)
    (follows : Follows table of a bindings type) : Follows table further a bindings type := by
  cases follows with
  | bound node stands => exact .bound node stands
  | applied node plain each arity settles =>
    refine .applied node plain (each.imp fun a type => weaker a _ type) arity ?_
    exact Site.settlesOf (fun c type => weaker c _ type) settles

theorem yieldsStep (yields : Yields table n a bindings type) : Yields table (n + 1) a bindings type := by
  induction n generalizing a bindings type with
  | zero => cases yields
  | succ n ih => exact followsOf (fun _ _ _ => ih) yields

theorem yieldsMono (le : m ≤ n) (yields : Yields table m a bindings type) :
    Yields table n a bindings type := by
  induction le with
  | refl => exact yields
  | step le ih => exact yieldsStep ih

theorem keyYieldsMono {key : Key} (le : m ≤ n) (yields : key.Yields table m type) :
    key.Yields table n type := by
  obtain ⟨d, expr, node, plain, arity, settles⟩ := yields
  exact ⟨d, expr, node, plain, arity, Site.settlesOf (fun c type => yieldsMono le) settles⟩

theorem followsUnique {of : TypeApplication → Bindings Int → ParamType → Prop}
    (unique : ∀ a bindings type other, of a bindings type → of a bindings other → type = other)
    (one : Follows table of a bindings type) (two : Follows table of a bindings other) : type = other := by
  cases one with
  | bound node stands =>
    cases two with
    | bound _ standsToo => exact Option.some.inj (stands.symm.trans standsToo)
    | applied nodeToo plain =>
      obtain ⟨_, rfl⟩ := nodeUnique node nodeToo
      exact absurd rfl (plain _)
  | applied node plain each arity settles =>
    cases two with
    | bound nodeToo _ =>
      obtain ⟨_, rfl⟩ := nodeUnique node nodeToo
      exact absurd rfl (plain _)
    | applied nodeToo _ eachToo _ settlesToo =>
      obtain ⟨rfl, rfl⟩ := nodeUnique node nodeToo
      have right : Relator.RightUnique fun a => of a bindings := fun a s t => unique a bindings s t
      obtain rfl := List.right_unique_forall₂' right each eachToo
      exact Site.settlesUnique (fun c s t => unique c _ s t) settles settlesToo

theorem yieldsUnique (one : Yields table m a bindings type) (two : Yields table n a bindings other) :
    type = other := by
  have same : ∀ k a bindings type other, Yields table k a bindings type →
      Yields table k a bindings other → type = other := by
    intro k
    induction k with
    | zero => exact fun _ _ _ _ absurd => absurd.elim
    | succ k ih => exact fun _ _ _ _ => followsUnique ih
  exact same (max m n) a bindings type other (yieldsMono (Nat.le_max_left m n) one)
    (yieldsMono (Nat.le_max_right m n) two)

theorem yieldsLower {others : Bindings Int} (yields : Yields table n a bindings type)
    (lower : Yields table m a others other) : Yields table m a bindings type := by
  -- both derivations follow the same declarations, so the lower one bounds the other
  induction m generalizing n a bindings others type other with
  | zero => exact lower.elim
  | succ m ih =>
    cases n with
    | zero => exact yields.elim
    | succ n =>
      cases yields with
      | bound node stands => exact .bound node stands
      | applied node plain each arity settles =>
        cases lower with
        | bound nodeToo _ =>
          obtain ⟨_, rfl⟩ := nodeUnique node nodeToo
          exact absurd rfl (plain _)
        | applied nodeToo _ eachToo arityToo settlesToo =>
          obtain ⟨rfl, rfl⟩ := nodeUnique node nodeToo
          have step : ∀ c inner outer type other, Yields table n c inner type →
              Yields table m c outer other → Yields table m c inner type :=
            fun c inner outer type other here there => ih here there
          refine .applied node plain (forall₂Lower (fun a => step a _ _) each eachToo) arity ?_
          exact settlesLower (arityToo.symm.trans arity) (fun c => step c _ _) settles settlesToo

theorem keyYieldsLower {key twin : Key} (id : twin.typeId = key.typeId) (yields : key.Yields table n type)
    (lower : twin.Yields table m other) : key.Yields table m type := by
  obtain ⟨d, expr, node, plain, arity, settles⟩ := yields
  obtain ⟨e, _, nodeToo, _, arityToo, settlesToo⟩ := lower
  rw [id] at nodeToo
  obtain ⟨rfl, rfl⟩ := nodeUnique node nodeToo
  refine ⟨d, expr, node, plain, arity, ?_⟩
  exact settlesLower (arityToo.symm.trans arity) (fun _ _ _ here there => yieldsLower here there)
    settles settlesToo

theorem keyGivesOfSettles {key : Key} {d : TypeDeclaration} {expr : TypeExpr}
    (node : Node table key.typeId d expr) (plain : expr.Plain)
    (arity : d.typeParameters.length = key.arguments.length)
    (settles : key.Settles table (Gives table) d expr type) : key.Gives table type := by
  obtain ⟨answers, each, built⟩ := settles
  have counted : Forall₂ (fun c answer => ∃ n, Site.Answers (fun c => Yields table n c key.bindings) c answer)
      (d.components.getD []) answers := by
    refine each.imp fun c answer answers => ?_
    cases answer with
    | error fault => exact ⟨0, fun type absurd => nomatch absurd⟩
    | ok type =>
      obtain ⟨n, yields⟩ := answers type rfl
      refine ⟨n, fun other same => ?_⟩
      cases same
      exact yields
  obtain ⟨n, each⟩ := commonHeight (fun le answers type same => yieldsMono le (answers type same)) counted
  exact ⟨n, d, expr, node, plain, arity, answers, each, built⟩

theorem ownArity {id : Int} {d : TypeDeclaration} {expr : TypeExpr} {types : List ParamType}
    (indexed : Indexed table) (node : Node table id d expr)
    (arity : d.typeParameters.length = types.length) (e : TypeDeclaration) (other : TypeExpr)
    (nodeToo : Node table (ownKey d types bindings).typeId e other) :
    e.typeParameters.length = types.length := by
  change Node table d.typeId e other at nodeToo
  rw [indexed id d node.found] at nodeToo
  obtain ⟨rfl, _⟩ := nodeUnique node nodeToo
  exact arity

theorem givesOfKey {name : String} {id : Int} {applied : List TypeApplication} {d : TypeDeclaration}
    {expr : TypeExpr} {types : List ParamType} (indexed : Indexed table) (node : Node table id d expr)
    (plain : expr.Plain) (each : Forall₂ (fun a => Gives table a bindings) applied types)
    (gives : (ownKey d types bindings).Gives table type) :
    Gives table (.mk name id applied) bindings type := by
  obtain ⟨m, each⟩ := commonHeight (R := fun n a type => Yields table n a bindings type) yieldsMono each
  obtain ⟨n, yields⟩ := gives
  obtain ⟨e, other, nodeToo, _, arity, settles⟩ := keyYieldsMono (Nat.le_max_right m n) yields
  change Node table d.typeId e other at nodeToo
  rw [indexed id d node.found] at nodeToo
  obtain ⟨rfl, rfl⟩ := nodeUnique node nodeToo
  have each := each.imp fun a type yields => yieldsMono (Nat.le_max_left m n) yields
  exact ⟨max m n + 1, .applied node plain each arity settles⟩

end WordAbi.Declarations
