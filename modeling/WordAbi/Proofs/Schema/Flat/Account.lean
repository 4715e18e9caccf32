import WordAbi.Proofs.Schema.Build
import WordAbi.Schema.Flat
/-! What holds of all types that a resolver of declared types finds, whatever its memory was filled
with: it has to hold of the types that a node is built of, and to pass from a key to the same key. -/
namespace WordAbi

open List (Forall₂)
open Resolving (Ensures ensuresPure ensuresThrow ensuresBind ensuresOf ensuresLift ensuresGuarded)

namespace Declarations

variable {table : Declarations}

def Indexed (table : Declarations) : Prop := ∀ id d, find table id = .ok d → d.typeId = id

theorem indexedInsert {d : TypeDeclaration} (indexed : Indexed table) :
    Indexed (Table.insert table d.typeId d) := by
  intro id e found
  simp only [find, Table.getInsert] at found
  split at found
  · rename_i other same
    split at same
    · rename_i here
      cases same
      cases found
      exact here
    · refine indexed id e ?_
      rw [find, same]
      exact found
  · contradiction

theorem indexedOfList (declarations : List TypeDeclaration) : Indexed (ofList declarations) := by
  refine List.foldlRecOn _ _ (fun id d found => ?_) fun table indexed entry member => ?_
  · cases found
  · obtain ⟨d, _, rfl⟩ := List.mem_map.mp member
    exact indexedInsert indexed

theorem memOfFind {declarations : List TypeDeclaration} {id : Int} {d : TypeDeclaration}
    (found : find (ofList declarations) id = .ok d) : d ∈ declarations := by
  have fold : ∀ (table : Declarations), find ((declarations.map fun d => (d.typeId, d)).foldl
      (fun table entry => Table.insert table entry.1 entry.2) table) id = .ok d →
      d ∈ declarations ∨ find table id = .ok d := by
    clear found
    induction declarations with
    | nil => exact fun _ found => .inr found
    | cons e rest ih =>
      intro table found
      rcases ih _ found with later | inserted
      · exact .inl (List.mem_cons_of_mem e later)
      · simp only [find, Table.getInsert] at inserted
        by_cases here : e.typeId = id
        · rw [if_pos here] at inserted
          cases inserted
          exact .inl List.mem_cons_self
        · rw [if_neg here] at inserted
          exact .inr inserted
  rcases fold [] found with member | absurd
  · exact member
  · cases absurd

variable [Host]

structure Node (table : Declarations) (id : Int) (d : TypeDeclaration) (expr : TypeExpr) : Prop where
  found : find table id = .ok d
  reads : TypeExpr.ofDatum d.typeField = .ok expr

theorem nodeUnique {id : Int} {d e : TypeDeclaration} {expr other : TypeExpr}
    (one : Node table id d expr) (two : Node table id e other) : d = e ∧ expr = other := by
  obtain rfl := Except.ok.inj (one.found.symm.trans two.found)
  exact ⟨rfl, Except.ok.inj (one.reads.symm.trans two.reads)⟩

def ownKey (d : TypeDeclaration) (types : List ParamType) (bindings : Bindings Int) : Key :=
  ⟨d.typeId, types, Bindings.extend bindings d.typeParameters types⟩

def Key.Settles (table : Declarations) (of : TypeApplication → Bindings Int → ParamType → Prop)
    (d : TypeDeclaration) (expr : TypeExpr) (key : Key) (type : ParamType) : Prop :=
  Site.Settles TypeApplication.name (fun c => of c key.bindings) d.typeField.display d.components
    key.arguments (fun name => substitute table d.typeField.display name key.bindings) expr type

/-- An account of the types that are found for applications and keys, among those that are met. -/
structure Account (table : Declarations) where
  allows : TypeApplication → Bindings Int → Prop
  of : TypeApplication → Bindings Int → ParamType → Prop
  meets : Key → Prop
  found : Key → ParamType → Prop
  bound : ∀ {name id applied d word bindings type}, Node table id d (.generic word) →
    Table.get? bindings id = some type → of (.mk name id applied) bindings type
  argument : ∀ {name id applied d expr bindings}, allows (.mk name id applied) bindings →
    Node table id d expr → expr.Plain → ∀ a ∈ applied, allows a bindings
  applied : ∀ {name id applied d expr types bindings}, allows (.mk name id applied) bindings →
    Node table id d expr → expr.Plain → Forall₂ (fun a => of a bindings) applied types →
    d.typeParameters.length = types.length →
    meets (ownKey d types bindings) ∧
      ∀ type, found (ownKey d types bindings) type → of (.mk name id applied) bindings type
  component : ∀ {d expr key}, meets key → Node table key.typeId d expr →
    Site.asks key.arguments expr = true → ∀ c ∈ d.components.getD [], allows c key.bindings
  settled : ∀ {d expr key type}, meets key → Node table key.typeId d expr → expr.Plain →
    key.Settles table of d expr type → found key type
  shared : ∀ {key other type}, meets key → meets other → found key type → key.same other = true →
    found other type

namespace Account

def known (account : Account table) (key : Key) (type : ParamType) : Prop :=
  account.meets key ∧ account.found key type

variable (account : Account table) (limit : Int) (deeper : Option Resolver)

def Below : Prop := ∀ resolver, deeper = some resolver → ∀ c bindings, account.allows c bindings →
  Ensures account.known (resolver c bindings) (account.of c bindings)

variable {account limit deeper}

theorem ensuresKey (below : account.Below deeper) {key : Key} {d : TypeDeclaration} {expr : TypeExpr}
    (node : Node table key.typeId d expr) (plain : expr.Plain) (meets : account.meets key) :
    Ensures account.known
      (Resolving.guarded Key.same limit d.typeField.display key (deeper.map fun deeper => Site.build
        ⟨d.typeField.display, suspend deeper d.components key.bindings, key.arguments,
          fun name => Site.lift (substitute table d.typeField.display name key.bindings)⟩ expr))
      (account.found key) := by
  have shared : ∀ other type, account.known other type → other.same key = true →
      account.known key type :=
    fun other type known same => ⟨meets, account.shared known.1 meets known.2 same⟩
  refine ensuresOf (ensuresGuarded shared fun work given => ?_) fun type known => known.2
  obtain ⟨resolver, has, rfl⟩ := Option.map_eq_some_iff.mp given
  have each := fun asked c member =>
    below resolver has c key.bindings (account.component meets node asked c member)
  have built := Site.ensuresBuild TypeApplication.name d.typeField.display
    (fun name => substitute table d.typeField.display name key.bindings) each
  exact ensuresOf built fun type settles => ⟨meets, account.settled meets node plain settles⟩

mutual

theorem ensuresWith (indexed : Indexed table) (below : account.Below deeper) :
    (a : TypeApplication) → ∀ bindings, account.allows a bindings →
    Ensures account.known (resolveWith table (Resolving.guarded Key.same limit) deeper a bindings)
      (account.of a bindings)
  | .mk name id applied, bindings, allowed => by
    rw [resolveWith]
    refine ensuresBind (ensuresLift fun d found => found) fun d found => ?_
    refine ensuresBind (ensuresLift fun expr reads => reads) fun expr reads => ?_
    obtain rfl := indexed id d found
    dsimp only
    split
    · split
      · rename_i bound
        exact ensuresPure (account.bound ⟨found, reads⟩ bound)
      · exact ensuresThrow
    · rename_i plain
      have node : Node table d.typeId d expr := ⟨found, reads⟩
      have allowedArguments := account.argument allowed node plain
      refine ensuresBind (ensuresArguments indexed below applied bindings allowedArguments) ?_
      intro types each
      split
      · exact ensuresThrow
      · rename_i arity
        have own := account.applied allowed node plain each (Decidable.not_not.mp arity)
        exact ensuresOf (ensuresKey below node plain own.1) own.2

theorem ensuresArguments (indexed : Indexed table) (below : account.Below deeper) :
    (as : List TypeApplication) → ∀ bindings, (∀ a ∈ as, account.allows a bindings) →
    Ensures account.known (resolveArguments table (Resolving.guarded Key.same limit) deeper as bindings)
      (Forall₂ (fun a => account.of a bindings) as)
  | [], _, _ => ensuresPure .nil
  | a :: as, bindings, allowed => by
    have first := ensuresWith indexed below a bindings (allowed a List.mem_cons_self)
    have rest := ensuresArguments indexed below as bindings
      fun b member => allowed b (List.mem_cons_of_mem a member)
    rw [resolveArguments]
    refine ensuresBind first fun type head => ensuresBind rest fun types tail => ?_
    exact ensuresPure (.cons head tail)

end

theorem ensuresIn (account : Account table) (indexed : Indexed table) (limit : Int) (room : Nat)
    {a : TypeApplication} {bindings : Bindings Int} (allowed : account.allows a bindings) :
    Ensures account.known (resolverIn table (Resolving.guarded Key.same limit) room a bindings)
      (account.of a bindings) := by
  induction room generalizing a bindings with
  | zero =>
    have below : account.Below none := fun _ absurd => by cases absurd
    exact ensuresWith indexed below a bindings allowed
  | succ room ih =>
    refine ensuresWith indexed (fun resolver same c inner allowed => ?_) a bindings allowed
    cases same
    exact ih allowed

end Account

def memoryAfter (table : Declarations) (limit : Int) (history : List TypeApplication) : Memory Key :=
  history.foldl (fun memory a => (resolve table limit a memory).2) Memory.empty

namespace Account

variable (account : Account table) (indexed : Indexed table) {limit : Int}
  {history : List TypeApplication}

include indexed in
theorem keepsAfter (allowed : ∀ a ∈ history, account.allows a []) :
    (memoryAfter table limit history).Keeps account.known := by
  refine List.foldlRecOn history _ Memory.keepsEmpty fun memory keeps a member => ?_
  exact (account.ensuresIn indexed limit limit.toNat (allowed a member) memory keeps).1

include indexed in
theorem ofResolve (allowed : ∀ a ∈ history, account.allows a []) {a : TypeApplication}
    (own : account.allows a []) {type : ParamType}
    (resolved : (resolve table limit a (memoryAfter table limit history)).1 = .ok type) :
    account.of a [] type :=
  (account.ensuresIn indexed limit limit.toNat own _ (account.keepsAfter indexed allowed)).2 type resolved

end Account

end Declarations

end WordAbi
