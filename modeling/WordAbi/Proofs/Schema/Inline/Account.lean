import WordAbi.Proofs.Schema.Build
import WordAbi.Schema.Inline
/-! What holds of all types that a resolver of inline nodes finds, whatever its memory was filled with:
it has to hold of the types that a node is built of, and to pass from a key to the same key. -/
namespace WordAbi.Property

open List (Forall₂)
open Resolving (Ensures ensuresPure ensuresThrow ensuresBind ensuresOf ensuresLift ensuresGuarded)

def standing (source : String) (bindings : Bindings String) (name : String) : Except Fault ParamType :=
  match Table.get? bindings name with
  | some type => .ok type
  | none => .error (.invalidType (.unboundName source name))

theorem lookupLift (source : String) (bindings : Bindings String) (name : String) :
    lookup source bindings name = Site.lift (standing source bindings name) := by
  unfold lookup standing
  cases Table.get? bindings name <;> rfl

theorem ensuresCheckKey {known : Key → ParamType → Prop} {components : Option (List Property)} :
    Ensures known (checkKey components) fun _ => optionHasKey components = true := by
  unfold checkKey
  split
  · rename_i has
    exact ensuresPure has
  · exact ensuresThrow

variable [Host]

theorem readsText {typeField : Datum} {expr : TypeExpr} (reads : TypeExpr.ofDatum typeField = .ok expr) :
    TypeExpr.ofText typeField.display = .ok expr := by
  cases typeField with
  | str text => exact reads
  | _ => cases reads

def Key.Settles (of : Property → Bindings String → ParamType → Prop) (expr : TypeExpr) (key : Key)
    (type : ParamType) : Prop :=
  Site.Settles Property.name (fun c => of c key.bindings) key.source key.components key.arguments
    (standing key.source key.bindings) expr type

def ownKey (source : String) (components : Option (List Property)) (parameters : Option (List String))
    (types : List ParamType) (bindings : Bindings String) : Key :=
  ⟨source, components, parameters, types, Bindings.extend bindings (parameters.getD []) types⟩

structure Account where
  allows : Property → Bindings String → Prop
  of : Property → Bindings String → ParamType → Prop
  meets : Key → Prop
  found : Key → ParamType → Prop
  bound : ∀ {name typeField cs as ps word bindings type},
    TypeExpr.ofDatum typeField = .ok (.generic word) → Table.get? bindings word = some type →
    of (.mk name typeField cs as ps) bindings type
  argument : ∀ {name typeField cs as ps expr bindings}, allows (.mk name typeField cs as ps) bindings →
    TypeExpr.ofDatum typeField = .ok expr → expr.Plain → ∀ a ∈ as.getD [], allows a bindings
  applied : ∀ {name typeField cs as ps expr types bindings},
    allows (.mk name typeField cs as ps) bindings → TypeExpr.ofDatum typeField = .ok expr → expr.Plain →
    Forall₂ (fun a => of a bindings) (as.getD []) types →
    (ps.getD [] ≠ [] → (ps.getD []).length = types.length) → optionHasKey cs = true →
    meets (ownKey typeField.display cs ps types bindings) ∧
      ∀ type, found (ownKey typeField.display cs ps types bindings) type →
        of (.mk name typeField cs as ps) bindings type
  component : ∀ {key expr}, meets key → TypeExpr.ofText key.source = .ok expr →
    Site.asks key.arguments expr = true → ∀ c ∈ key.components.getD [], allows c key.bindings
  settled : ∀ {key expr type}, meets key → TypeExpr.ofText key.source = .ok expr → expr.Plain →
    key.Settles of expr type → found key type
  shared : ∀ {key other type}, meets key → meets other → found key type → key.same other = true →
    found other type

namespace Account

def known (account : Account) (key : Key) (type : ParamType) : Prop :=
  account.meets key ∧ account.found key type

end Account

theorem suspendListEq (limit : Int) (room : Nat) (ps : List Property) (bindings : Bindings String) :
    suspendList limit room ps bindings =
      ps.map fun p => (p.name, resolveIn limit room p bindings) := by
  induction ps with
  | nil => rfl
  | cons p ps ih => rw [suspendList, ih, List.map_cons]

theorem suspendOptionEq (limit : Int) (room : Nat) (ps : Option (List Property))
    (bindings : Bindings String) :
    suspendOption limit room ps bindings =
      ps.map (·.map fun p => (p.name, resolveIn limit room p bindings)) := by
  cases ps with
  | none => rfl
  | some ps => rw [suspendOption, suspendListEq, Option.map_some]

theorem siteEq (limit : Int) (room : Nat) (key : Key) :
    (⟨key.source, suspendOption limit room key.components key.bindings, key.arguments,
        lookup key.source key.bindings⟩ : Site (Resolving Key)) =
      Site.working Property.name (fun c => resolveIn limit room c key.bindings) key.source
        key.components key.arguments (standing key.source key.bindings) := by
  rw [Site.working, suspendOptionEq]
  congr 1
  funext name
  exact lookupLift key.source key.bindings name

theorem ensuresList {known : Key → ParamType → Prop} {of : Property → ParamType → Prop} {limit : Int}
    {room : Nat} {bindings : Bindings String} (ps : List Property)
    (each : ∀ p ∈ ps, Ensures known (resolveIn limit room p bindings) (of p)) :
    Ensures known (resolveList limit room ps bindings) (Forall₂ of ps) := by
  induction ps with
  | nil => exact ensuresPure .nil
  | cons p ps ih =>
    have first := each p List.mem_cons_self
    have rest := ih fun q member => each q (List.mem_cons_of_mem p member)
    rw [resolveList]
    refine ensuresBind first fun type head => ensuresBind rest fun types tail => ?_
    exact ensuresPure (.cons head tail)

theorem ensuresOption {known : Key → ParamType → Prop} {of : Property → ParamType → Prop} {limit : Int}
    {room : Nat} {bindings : Bindings String} (ps : Option (List Property))
    (each : ∀ p ∈ ps.getD [], Ensures known (resolveIn limit room p bindings) (of p)) :
    Ensures known (resolveOption limit room ps bindings) (Forall₂ of (ps.getD [])) := by
  cases ps with
  | none => exact ensuresPure .nil
  | some ps => exact ensuresList ps each

namespace Account

variable {account : Account} {limit : Int}

theorem ensuresKey {key : Key} {expr : TypeExpr} (room : Nat)
    (reads : TypeExpr.ofText key.source = .ok expr) (plain : expr.Plain) (meets : account.meets key)
    (below : ∀ room, ∀ c ∈ key.components.getD [], account.allows c key.bindings →
      Ensures account.known (resolveIn limit room c key.bindings) (account.of c key.bindings)) :
    Ensures account.known
      (Resolving.guarded Key.same limit key.source key
        (match room with
          | 0 => none
          | room + 1 => some (Site.build
              ⟨key.source, suspendOption limit room key.components key.bindings, key.arguments,
                lookup key.source key.bindings⟩ expr)))
      (account.found key) := by
  have shared : ∀ other type, account.known other type → other.same key = true →
      account.known key type :=
    fun other type known same => ⟨meets, account.shared known.1 meets known.2 same⟩
  refine ensuresOf (ensuresGuarded shared fun work given => ?_) fun type known => known.2
  cases room with
  | zero => cases given
  | succ room =>
    cases given
    have each := fun asked c member =>
      below room c member (account.component meets reads asked c member)
    have built := Site.ensuresBuild Property.name key.source (standing key.source key.bindings) each
    rw [siteEq]
    exact ensuresOf built fun type settles => ⟨meets, account.settled meets reads plain settles⟩

mutual

theorem ensuresIn : (p : Property) → ∀ room bindings, account.allows p bindings →
    Ensures account.known (resolveIn limit room p bindings) (account.of p bindings)
  | .mk name typeField cs as ps, room, bindings, allowed => by
    rw [resolveIn]
    refine ensuresBind (ensuresLift fun expr reads => reads) fun expr reads => ?_
    dsimp only
    split
    · rename_i word
      rw [lookupLift]
      refine ensuresLift fun type found => account.bound reads ?_
      unfold standing at found
      split at found
      · cases found
        assumption
      · cases found
    · rename_i plain
      have allowedArguments := account.argument allowed reads plain
      have arguments := ensuresOption as fun a member =>
        ensuresOptionIn as a member room bindings (allowedArguments a member)
      refine ensuresBind arguments fun types each => ?_
      split
      · exact ensuresThrow
      · rename_i arity
        refine ensuresBind ensuresCheckKey fun _ has => ?_
        have own := account.applied allowed reads plain each
          (fun some => Decidable.not_not.mp fun other => arity ⟨some, other⟩) has
        have key := ensuresKey room (readsText reads) plain own.1
          fun room c member allowed => ensuresOptionIn cs c member room _ allowed
        exact ensuresOf key own.2

theorem ensuresOptionIn : (ps : Option (List Property)) → ∀ p ∈ ps.getD [], ∀ room bindings,
    account.allows p bindings →
    Ensures account.known (resolveIn limit room p bindings) (account.of p bindings)
  | none, _, member, _, _, _ => by cases member
  | some ps, p, member, room, bindings, allowed => ensuresListIn ps p member room bindings allowed

theorem ensuresListIn : (ps : List Property) → ∀ p ∈ ps, ∀ room bindings, account.allows p bindings →
    Ensures account.known (resolveIn limit room p bindings) (account.of p bindings)
  | [], _, member, _, _, _ => by cases member
  | first :: rest, p, member, room, bindings, allowed => by
    rcases List.mem_cons.mp member with same | member
    · rw [same] at allowed ⊢
      exact ensuresIn first room bindings allowed
    · exact ensuresListIn rest p member room bindings allowed

end

end Account

def memoryAfter (limit : Int) (history : List (Property × Bindings String)) : Memory Key :=
  history.foldl (fun memory step => (resolve limit step.1 step.2 memory).2) Memory.empty

namespace Account

variable (account : Account) {limit : Int} {history : List (Property × Bindings String)}

theorem keepsAfter (allowed : ∀ step ∈ history, account.allows step.1 step.2) :
    (memoryAfter limit history).Keeps account.known := by
  refine List.foldlRecOn history _ Memory.keepsEmpty fun memory keeps step member => ?_
  exact (ensuresIn step.1 limit.toNat step.2 (allowed step member) memory keeps).1

theorem ofResolve (allowed : ∀ step ∈ history, account.allows step.1 step.2) {p : Property}
    {bindings : Bindings String} (own : account.allows p bindings) {type : ParamType}
    (resolved : (resolve limit p bindings (memoryAfter limit history)).1 = .ok type) :
    account.of p bindings type :=
  (ensuresIn p limit.toNat bindings own _ (account.keepsAfter allowed)).2 type resolved

end Account

end WordAbi.Property
