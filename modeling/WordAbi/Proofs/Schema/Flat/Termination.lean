import Mathlib.Logic.Function.Iterate
import WordAbi.Proofs.Schema.Conduct
import WordAbi.Proofs.Schema.Simulation
/-! Resolution comes to an end for all declarations, recursive or not: how far it goes down is bounded by
the heights of the applications that are written and by the limit of nesting, whatever is known before. -/
namespace WordAbi

open Outcome (Faults faultsOk faultsError faultsBind)
open Resolving (Agree agreePure agreeThrow agreeBind agreeLiftBind agreeOpened Upholds upholdsTwin)

def Resolving.bounded {κ : Type} (same : κ → κ → Bool) (limit : Int) (source : String) (key : κ)
    (work : Resolving κ ParamType) : Resolving κ ParamType := do
  let memory ← get
  guarded same limit source key (if memory.opened.length < limit then some work else none)

namespace TypeApplication

mutual

def height : TypeApplication → Nat
  | .mk _ _ applied => heights applied + 1

def heights : List TypeApplication → Nat
  | [] => 0
  | a :: as => max (height a) (heights as)

end

theorem heightPositive (a : TypeApplication) : 0 < a.height := by
  cases a
  exact Nat.succ_pos _

theorem heightLe {as : List TypeApplication} {a : TypeApplication} (member : a ∈ as) :
    a.height ≤ heights as := by
  induction as with
  | nil => cases member
  | cons first rest ih =>
    rcases List.mem_cons.mp member with rfl | member
    · exact Nat.le_max_left _ _
    · exact Nat.le_trans (ih member) (Nat.le_max_right _ _)

theorem inductionInRoom {holds : Nat → TypeApplication → Prop}
    (node : ∀ room name id applied, (∀ a ∈ applied, holds room a) →
      (∀ less, room = less + 1 → ∀ c, holds less c) → holds room (.mk name id applied))
    (room : Nat) (a : TypeApplication) : holds room a := by
  have within : ∀ room, (∀ less, room = less + 1 → ∀ c, holds less c) → ∀ a, holds room a := by
    intro room below a
    induction tall : a.height using Nat.strong_induction_on generalizing a with
    | _ n ih =>
      obtain ⟨name, id, applied⟩ := a
      refine node room name id applied (fun b member => ih b.height ?_ b rfl) below
      rw [← tall, height]
      exact Nat.lt_succ_of_le (heightLe member)
  induction room generalizing a with
  | zero => exact within 0 (fun _ absurd => by cases absurd) a
  | succ room ih =>
    refine within (room + 1) (fun less same c => ?_) a
    cases same
    exact ih c

end TypeApplication

namespace Declarations

variable {table : Declarations} {limit : Int} {opened : List Key}

def tallest (table : Declarations) : Nat :=
  TypeApplication.heights (table.flatMap fun entry => entry.2.components.getD [])

theorem heightLeTallest {id : Int} {d : TypeDeclaration} (found : find table id = .ok d)
    {c : TypeApplication} (member : c ∈ d.components.getD []) : c.height ≤ tallest table := by
  unfold find at found
  split at found
  · rename_i declared
    cases found
    exact TypeApplication.heightLe (List.mem_flatMap.mpr ⟨_, Table.memOfGet declared, member⟩)
  · cases found

def levels (table : Declarations) (room : Nat) (a : TypeApplication) : Nat :=
  a.height + room * tallest table

theorem faultsFind (table : Declarations) (id : Int) : Faults Fault.OfNode (find table id) := by
  unfold find
  split
  · exact faultsOk _
  · exact faultsError trivial

theorem faultsSubstitute (table : Declarations) (source name : String) (bindings : Bindings Int) :
    Faults Fault.OfNode (substitute table source name bindings) := by
  induction bindings with
  | nil => exact faultsError trivial
  | cons entry rest ih =>
    exact faultsBind (faultsFind table entry.1) fun d => Outcome.faultsIte (faultsOk _) ih

inductive Ended (limit : Int) : Except Fault ParamType → Prop
  | found (type : ParamType) : Ended limit (.ok type)
  | invalidType (cause : TypeFault) : Ended limit (.error (.invalidType cause))
  | keyword (source : String) : Ended limit (.error (.unsupported (.keyword source)))
  | depth (source : String) : Ended limit (.error (.unsupported (.resolutionDepth limit source)))
  | invariant (cause : InvariantFault) : Ended limit (.error (.invariant cause))

section

variable [Host]

def node (table : Declarations) (below : Resolver)
    (begin : TypeDeclaration → TypeExpr → Key → Resolving Key ParamType) : Resolver
  | .mk _ typeId applied, bindings => do
    let d ← Site.lift (find table typeId)
    let expr ← Site.lift (TypeExpr.ofDatum d.typeField)
    let source := d.typeField.display
    match expr with
    | .generic _ =>
      match Table.get? bindings d.typeId with
      | some type => pure type
      | none => throw (Fault.invalidType (.unboundId source d.typeId))
    | expr => do
      let types ← Site.resolveAll (applied.map fun a => (a.name, below a bindings))
      if d.typeParameters.length ≠ types.length then
        throw (Fault.invalidType
          (.argumentCount source d.typeParameters.length types.length (some d.typeId)))
      else
        begin d expr (ownKey d types bindings)

/-- One level of the work for an application: what is below it is left to another resolver, and whether
there is room for it is read off what is in progress. -/
def visit (table : Declarations) (limit : Int) (below : Resolver) : Resolver :=
  node table below fun d expr key => Resolving.bounded Key.same limit d.typeField.display key
    ((Site.working TypeApplication.name (fun c => below c key.bindings) d.typeField.display d.components
      key.arguments fun name => substitute table d.typeField.display name key.bindings).build expr)

theorem resolverInNode (table : Declarations) (guard : Guard) (room : Nat) :
    resolverIn table guard room = node table (resolverIn table guard room) fun d expr key =>
      guard d.typeField.display key (workFor table guard room d key expr) := by
  funext a bindings
  obtain ⟨name, id, applied⟩ := a
  conv_lhs => rw [resolverInEq, resolveWith]
  rw [node]
  refine bind_congr fun d => bind_congr fun expr => ?_
  rw [resolveArgumentsEq, ← resolverInEq]
  cases expr <;> rfl

/-- The text of a declaration has a number of more digits than the host reads. -/
def Overlong (table : Declarations) : Prop :=
  ∃ id d, find table id = .ok d ∧ TypeExpr.Overlong d.typeField

def EndsWith (table : Declarations) (limit : Int) (fault : Fault) : Prop :=
  Ended limit (.error fault) ∨ fault = .misuse .badValue ∧ table.Overlong

theorem endsOfNode {fault : Fault} (own : fault.OfNode) : EndsWith table limit fault := by
  cases fault with
  | invalidType cause => exact .inl (.invalidType cause)
  | invariant cause => exact .inl (.invariant cause)
  | unsupported cause =>
    cases cause with
    | keyword source => exact .inl (.keyword source)
    | _ => cases own
  | _ => cases own

section

variable {source : String} {key : Key}

theorem agreeBounded {work : Resolving Key ParamType} {twin : Option (Resolving Key ParamType)}
    (each : Option.Rel (Agree (·.opened = key :: opened) (EndsWith table limit))
      (if (opened.length : Int) < limit then some work else none) twin) :
    Agree (·.opened = opened) (EndsWith table limit) (Resolving.bounded Key.same limit source key work)
      (Resolving.guarded Key.same limit source key twin) := by
  have agree : Agree (·.opened = opened) (EndsWith table limit)
      (Resolving.guarded Key.same limit source key (if (opened.length : Int) < limit then some work else none))
      (Resolving.guarded Key.same limit source key twin) :=
    agreeOpened (fun _ _ _ => .inl (.invalidType _)) (fun _ => .inl (.depth source)) fun _ => each
  refine ⟨?_, ?_, ?_⟩
  · rintro memory rfl
    exact agree.same memory rfl
  · rintro memory rfl
    exact agree.keeps memory rfl
  · rintro memory rfl
    exact agree.faults memory rfl

end

section

variable {inv : Memory Key → Prop} {blame : Fault → Prop} {below further : Resolver}
  {begin start : TypeDeclaration → TypeExpr → Key → Resolving Key ParamType} {name : String} {id : Int}
  {applied : List TypeApplication} {bindings : Bindings Int}

theorem agreeNode (own : ∀ fault, fault.OfNode → blame fault)
    (long : ∀ d, find table id = .ok d → TypeExpr.Overlong d.typeField → blame (.misuse .badValue))
    (arguments : ∀ a ∈ applied, Agree inv blame (below a bindings) (further a bindings))
    (keys : ∀ d expr types, Node table id d expr → expr.Plain → types.length = applied.length →
      d.typeParameters.length = types.length →
      Agree inv blame (begin d expr (ownKey d types bindings)) (start d expr (ownKey d types bindings))) :
    Agree inv blame (node table below begin (.mk name id applied) bindings)
      (node table further start (.mk name id applied) bindings) := by
  rw [node, node]
  refine agreeLiftBind (fun fault failed => own fault (faultsFind table id fault failed)) fun d found => ?_
  refine agreeLiftBind (TypeExpr.faultsOfDatum own (long d found)) fun expr reads => ?_
  dsimp only
  split
  · cases Table.get? bindings d.typeId with
    | some type => exact agreePure type
    | none => exact agreeThrow (own _ trivial)
  · rename_i plain
    refine agreeBind (Site.agreeResolveAll applied arguments) fun types resolved => ?_
    obtain ⟨_, _, _, runs⟩ := resolved
    split
    · exact agreeThrow (own _ trivial)
    · rename_i arity
      exact keys d expr types ⟨found, reads⟩ plain (Site.lengthOfRuns runs) (Decidable.not_not.mp arity)

end

theorem agreeVisit {below : Resolver} {room : Nat} {name : String} {id : Int} {applied : List TypeApplication}
    {bindings : Bindings Int} (left : room = limit.toNat - opened.length)
    (arguments : ∀ a ∈ applied, Agree (·.opened = opened) (EndsWith table limit) (below a bindings)
      (resolverIn table (Resolving.guarded Key.same limit) room a bindings))
    (components : ∀ less, room = less + 1 → ∀ c, c.height ≤ tallest table → ∀ key inner,
      Agree (·.opened = key :: opened) (EndsWith table limit) (below c inner)
        (resolverIn table (Resolving.guarded Key.same limit) less c inner)) :
    Agree (·.opened = opened) (EndsWith table limit) (visit table limit below (.mk name id applied) bindings)
      (resolverIn table (Resolving.guarded Key.same limit) room (.mk name id applied) bindings) := by
  rw [visit, resolverInNode]
  refine agreeNode (fun _ => endsOfNode) (fun d found overlong => .inr ⟨rfl, id, d, found, overlong⟩)
    arguments fun d expr types declared _ _ _ => agreeBounded ?_
  cases room with
  | zero =>
    rw [if_neg (by omega)]
    exact .none
  | succ less =>
    rw [if_pos (by omega)]
    refine .some (Site.agreeBuild (fun _ => endsOfNode) (fun word => ?_) fun _ c member => ?_)
    · exact faultsSubstitute table _ word _
    · exact components less rfl c (heightLeTallest declared.found member) _ _

theorem agreeVisits (beyond : Resolver) (n : Nat) {room : Nat} {a : TypeApplication} {bindings : Bindings Int}
    (left : room = limit.toNat - opened.length) (enough : levels table room a ≤ n) :
    Agree (·.opened = opened) (EndsWith table limit) ((visit table limit)^[n] beyond a bindings)
      (resolverIn table (Resolving.guarded Key.same limit) room a bindings) := by
  induction n generalizing room a bindings opened with
  | zero =>
    have positive := a.heightPositive
    rw [levels] at enough
    omega
  | succ n ih =>
    obtain ⟨name, id, applied⟩ := a
    rw [levels, TypeApplication.height] at enough
    rw [Function.iterate_succ_apply']
    refine agreeVisit left (fun b member => ih left ?_) fun less more c low key inner => ih ?_ ?_
    · have lower := TypeApplication.heightLe member
      rw [levels]
      omega
    · rw [List.length_cons]
      omega
    -- a component may be as high as the tallest, but there is room for one key less
    · rw [more, Nat.succ_mul] at enough
      rw [levels]
      omega

def resolveUnder (table : Declarations) (limit : Int) (a : TypeApplication) (bindings : Bindings Int) :
    Resolving Key ParamType :=
  resolverIn table (Resolving.guarded Key.same limit) limit.toNat a bindings

example (a : TypeApplication) : resolve table limit a = resolveUnder table limit a [] := rfl

def memoryUnder (table : Declarations) (limit : Int) (history : List (TypeApplication × Bindings Int)) :
    Memory Key :=
  history.foldl (fun memory step => (resolveUnder table limit step.1 step.2 memory).2) Memory.empty

theorem upholdsUnder (table : Declarations) (limit : Int) (a : TypeApplication) (bindings : Bindings Int) :
    Upholds (·.opened = []) (EndsWith table limit) (resolveUnder table limit a bindings) :=
  upholdsTwin (agreeVisits (resolveUnder table limit) _ rfl (Nat.le_refl _))

theorem openedUnder (table : Declarations) (limit : Int) (history : List (TypeApplication × Bindings Int)) :
    (memoryUnder table limit history).opened = [] := by
  refine List.foldlRecOn (motive := fun memory : Memory Key => memory.opened = []) history _ rfl
    fun memory idle step _ => ?_
  exact (upholdsUnder table limit step.1 step.2).keeps memory idle

end

end Declarations

end WordAbi
