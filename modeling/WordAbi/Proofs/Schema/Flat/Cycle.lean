import Mathlib.Logic.Relation
import WordAbi.Proofs.ParamType.Equality
import WordAbi.Proofs.Schema.Flat.Termination
/-! Declarations that hold one another in a cycle are found out: where no declaration has parameters and no
component has arguments, and the limit is greater than the number of declarations. The cycle is one that is
reached from the applied id, or from one of its type arguments. -/
namespace WordAbi

open Outcome (Recursive TooDeep)
open Relation (ReflTransGen TransGen)
open Resolving (Upholds agreeOpened agreeMono)

def TypeExpr.Composite : TypeExpr → Prop
  | array _ _ => True
  | tuple _ => True
  | custom _ _ => True
  | _ => False

theorem Site.compositeAsks {expr : TypeExpr} (composite : expr.Composite) : asks [] expr = true := by
  cases expr with
  | custom kind word => cases kind <;> simp [asks]
  | array _ _ => rfl
  | tuple _ => rfl
  | _ => cases composite

theorem Site.compositeOfAsks {arguments : List ParamType} {expr : TypeExpr}
    (asked : asks arguments expr = true) : expr.Composite := by
  cases expr with
  | keyword _ => cases asked
  | str _ => cases asked
  | generic _ => cases asked
  | _ => trivial

namespace Declarations

variable {table : Declarations} {id other : Int}

mutual

/-- The ids that are applied to no arguments, in the tree of type arguments of an application. -/
def leaves : TypeApplication → List Int
  | .mk _ id [] => [id]
  | .mk _ _ (a :: as) => leaves a ++ allLeaves as

def allLeaves : List TypeApplication → List Int
  | [] => []
  | a :: as => leaves a ++ allLeaves as

end

theorem leavesNone {c : TypeApplication} (none : c.arguments = []) : leaves c = [c.typeId] := by
  obtain ⟨name, id, applied⟩ := c
  obtain rfl : applied = [] := none
  rw [leaves]
  rfl

theorem leavesOfMem {as : List TypeApplication} {a : TypeApplication} (member : a ∈ as) :
    leaves a ⊆ allLeaves as := by
  induction as with
  | nil => cases member
  | cons first rest ih =>
    rw [allLeaves]
    rcases List.mem_cons.mp member with rfl | member
    · exact List.subset_append_left _ _
    · exact List.subset_append_of_subset_right _ (ih member)

theorem leavesArgument {name : String} {applied : List TypeApplication} {a : TypeApplication}
    (member : a ∈ applied) : leaves a ⊆ leaves (.mk name id applied) := by
  cases applied with
  | nil => cases member
  | cons first rest => exact leavesOfMem member

structure Simple (table : Declarations) : Prop where
  parameters : ∀ id d, find table id = .ok d → d.typeParameters = []
  arguments : ∀ id d, find table id = .ok d → ∀ c ∈ d.components.getD [], c.arguments = []

theorem simpleOfAll {declarations : List TypeDeclaration}
    (parameters : ∀ d ∈ declarations, d.typeParameters = [])
    (arguments : ∀ d ∈ declarations, ∀ c ∈ d.components.getD [], c.arguments = []) :
    Simple (ofList declarations) :=
  ⟨fun _ d found => parameters d (memOfFind found), fun _ d found => arguments d (memOfFind found)⟩

structure Climb (table : Declarations) (limit : Int) (bindings : Bindings Int) (room : Nat)
    (opened : List Key) : Prop where
  left : room + opened.length = limit.toNat
  once : (opened.map Key.typeId).Nodup
  declared : ∀ key ∈ opened, key.typeId ∈ Table.keys table
  own : ∀ key ∈ opened, key.arguments = [] ∧ key.bindings = bindings

section

variable {limit : Int} {bindings : Bindings Int} {room : Nat} {opened : List Key} {d : TypeDeclaration}

theorem memKeysOfFind (found : find table id = .ok d) : id ∈ Table.keys table := by
  unfold find at found
  split at found
  · rename_i declared
    exact List.mem_map.mpr ⟨_, Table.memOfGet declared, rfl⟩
  · cases found

theorem climbRoom (climb : Climb table limit bindings room opened) (deep : (table.length : Int) < limit) :
    room ≠ 0 := by
  have inside : opened.map Key.typeId ⊆ Table.keys table := by
    intro id member
    obtain ⟨key, here, rfl⟩ := List.mem_map.mp member
    exact climb.declared key here
  have length := (List.subperm_of_subset climb.once inside).length_le
  have left := climb.left
  simp only [List.length_map, Table.keys] at length
  omega

theorem climbBegun (climb : Climb table limit bindings (room + 1) opened) {key : Key}
    (declared : key.typeId ∈ Table.keys table) (own : key.arguments = [] ∧ key.bindings = bindings)
    (new : key.typeId ∉ opened.map Key.typeId) :
    Climb table limit bindings room (key :: opened) where
  left := by
    have left := climb.left
    rw [List.length_cons]
    omega
  once := List.nodup_cons.mpr ⟨new, climb.once⟩
  declared := List.forall_mem_cons.mpr ⟨declared, climb.declared⟩
  own := List.forall_mem_cons.mpr ⟨own, climb.own⟩

theorem bindingsOwnKey (none : d.typeParameters = []) (bindings : Bindings Int) :
    (ownKey d [] bindings).bindings = bindings := by
  rw [ownKey, none]
  rfl

theorem freshOfNew (none : d.typeParameters = []) (once : (Table.keys bindings).Nodup)
    (climb : Climb table limit bindings room opened)
    (new : ∀ other ∈ opened, other.same (ownKey d [] bindings) = false) :
    d.typeId ∉ opened.map Key.typeId := by
  intro member
  obtain ⟨other, here, id⟩ := List.mem_map.mp member
  obtain ⟨unapplied, alike⟩ := climb.own other here
  have like : other.same (ownKey d [] bindings) = true := by
    rw [Key.same, unapplied, alike, bindingsOwnKey none, Bindings.sameOfShapes once once rfl]
    simp [id, ownKey, ParamType.sameList]
  rw [new other here] at like
  cases like

end

section

variable [Host]

def Edge (table : Declarations) (id other : Int) : Prop :=
  ∃ d expr, Node table id d expr ∧ expr.Composite ∧ ∃ c ∈ d.components.getD [], c.typeId = other

def Loops (table : Declarations) (id : Int) : Prop :=
  ∃ other, ReflTransGen (Edge table) id other ∧ TransGen (Edge table) other other

theorem loopsEdge (edge : Edge table id other) (loops : Loops table other) : Loops table id := by
  obtain ⟨last, path, cycle⟩ := loops
  exact ⟨last, .head edge path, cycle⟩

def Grounded (table : Declarations) (id : Int) : Prop := Acc (fun other id => Edge table id other) id

theorem notCycle (grounded : Grounded table id) : ¬ TransGen (Edge table) id id := by
  induction grounded with
  | intro id _ ih =>
    intro cycle
    obtain ⟨next, edge, path⟩ := TransGen.head'_iff.mp cycle
    exact ih next edge (TransGen.tail' path edge)

theorem notLoops (grounded : Grounded table id) : ¬ Loops table id := by
  rintro ⟨other, path, cycle⟩
  have along : Grounded table other := by
    clear cycle
    induction path with
    | refl => exact grounded
    | tail _ edge ih => exact ih.inv edge
  exact notCycle along cycle

def groundedAccount (indexed : Indexed table)
    (parameters : ∀ id d, find table id = .ok d → d.typeParameters = []) : Account table where
  allows _ _ := True
  of a _ _ := Grounded table a.typeId
  meets key := key.arguments = []
  found key _ := Grounded table key.typeId
  bound := by
    intro name id applied d word bindings type node _
    refine .intro id fun other edge => ?_
    obtain ⟨e, expr, nodeToo, composite, _⟩ := edge
    obtain ⟨_, rfl⟩ := nodeUnique node nodeToo
    cases composite
  argument _ _ _ _ _ := trivial
  applied := by
    intro name id applied d expr types bindings _ node _ _ arity
    rw [parameters id d node.found, List.length_nil, eq_comm, List.length_eq_zero_iff] at arity
    obtain rfl := indexed id d node.found
    exact ⟨arity, fun _ grounded => grounded⟩
  component _ _ _ _ _ := trivial
  settled := by
    intro d expr key type none node _ settles
    refine .intro key.typeId fun other edge => ?_
    obtain ⟨e, found, nodeToo, composite, c, member, rfl⟩ := edge
    obtain ⟨rfl, rfl⟩ := nodeUnique node nodeToo
    have asked := Site.compositeAsks composite
    rw [← none] at asked
    obtain ⟨types, each, _⟩ := Site.settlesTypes settles asked
    have all := each.imp fun _ _ grounded => And.intro grounded trivial
    exact ((List.forall₂_and_left (d.components.getD []) types).mp all).1 c member
  shared := by
    intro key other type _ _ grounded same
    simp only [Key.same, Bool.and_eq_true, beq_iff_eq] at same
    rw [← same.1.1]
    exact grounded

def Blame (table : Declarations) (ids : List Int) : Fault → Prop
  | .invalidType (.recursive _) => ∃ id ∈ ids, Loops table id
  | .unsupported (.resolutionDepth _ _) => False
  | _ => True

theorem blameOfNode {ids : List Int} {fault : Fault} (own : fault.OfNode) : Blame table ids fault := by
  unfold Blame
  split
  · cases own
  · cases own
  · trivial

theorem blameMono {ids more : List Int} (inside : ∀ id ∈ ids, Loops table id → ∃ id ∈ more, Loops table id)
    {fault : Fault} (blamed : Blame table ids fault) : Blame table more fault := by
  unfold Blame at blamed ⊢
  split
  · obtain ⟨id, member, loops⟩ := blamed
    exact inside id member loops
  · exact blamed
  · trivial

section

variable {limit : Int} {bindings : Bindings Int} {room : Nat}
  {opened : List Key} {d : TypeDeclaration}

def Conducts (table : Declarations) (limit : Int) (bindings : Bindings Int) (room : Nat)
    (a : TypeApplication) : Prop :=
  ∀ opened, Climb table limit bindings room opened →
    (∀ key ∈ opened, ∀ id ∈ leaves a, TransGen (Edge table) key.typeId id) →
    Upholds (·.opened = opened) (Blame table (leaves a))
      (resolverIn table (Resolving.guarded Key.same limit) room a bindings)

section

variable (indexed : Indexed table) (simple : Simple table) (once : (Table.keys bindings).Nodup)
  (deep : (table.length : Int) < limit)

include simple once deep

theorem conductsKey {expr : TypeExpr} (climb : Climb table limit bindings room opened)
    (node : Node table d.typeId d expr)
    (reached : ∀ key ∈ opened, TransGen (Edge table) key.typeId d.typeId)
    (below : ∀ less, room = less + 1 → ∀ c, Conducts table limit bindings less c) :
    Upholds (·.opened = opened) (Blame table [d.typeId])
      (Resolving.guarded Key.same limit d.typeField.display (ownKey d [] bindings)
        (workFor table (Resolving.guarded Key.same limit) room d (ownKey d [] bindings) expr)) := by
  have none := simple.parameters d.typeId d node.found
  cases room with
  | zero => exact absurd rfl (climbRoom climb deep)
  | succ less =>
    refine agreeOpened (fun other member like => ?_) (fun absurd => nomatch absurd) fun new => ?_
    · simp only [Key.same, Bool.and_eq_true, beq_iff_eq] at like
      have cycle := reached other member
      rw [like.1.1] at cycle
      exact ⟨d.typeId, List.mem_singleton_self _, d.typeId, .refl, cycle⟩
    · have inside : Climb table limit bindings less (ownKey d [] bindings :: opened) :=
        climbBegun climb (memKeysOfFind node.found) ⟨rfl, bindingsOwnKey none bindings⟩
          (freshOfNew none once climb new)
      refine .some (Site.agreeBuild (fun _ => blameOfNode) (fun word => faultsSubstitute _ _ word _) ?_)
      intro asked c member
      have edge : Edge table d.typeId c.typeId :=
        ⟨d, expr, node, Site.compositeOfAsks asked, c, member, rfl⟩
      have further : ∀ key ∈ ownKey d [] bindings :: opened, TransGen (Edge table) key.typeId c.typeId :=
        List.forall_mem_cons.mpr ⟨.single edge, fun key here => (reached key here).tail edge⟩
      have component := below less rfl c _ inside
      simp only [leavesNone (simple.arguments d.typeId d node.found c member), List.mem_singleton,
        forall_eq] at component
      rw [bindingsOwnKey none]
      refine agreeMono (component further) fun fault => blameMono ?_
      simp only [List.mem_singleton, forall_eq, exists_eq_left]
      exact loopsEdge edge

include indexed

theorem conductsNode {name : String} {applied : List TypeApplication}
    (each : ∀ a ∈ applied, Conducts table limit bindings room a)
    (below : ∀ less, room = less + 1 → ∀ c, Conducts table limit bindings less c) :
    Conducts table limit bindings room (.mk name id applied) := by
  intro opened climb reached
  rw [resolverInNode]
  refine agreeNode (fun _ => blameOfNode) (fun _ _ _ => trivial) (fun a member => ?_)
    fun d expr types node _ length arity => ?_
  · have inside : leaves a ⊆ leaves (.mk name id applied) := leavesArgument member
    refine agreeMono (each a member opened climb fun key here id there => reached key here id (inside there)) ?_
    exact fun fault => blameMono fun id member loops => ⟨id, inside member, loops⟩
  · obtain rfl := indexed id d node.found
    rw [simple.parameters _ d node.found, List.length_nil, eq_comm] at arity
    obtain rfl := List.length_eq_zero_iff.mp (length.symm.trans arity)
    rw [leaves] at reached ⊢
    rw [List.length_eq_zero_iff.mp arity]
    exact conductsKey simple once deep climb node
      (fun key here => reached key here _ (List.mem_singleton_self _)) below

theorem conducts (room : Nat) (a : TypeApplication) : Conducts table limit bindings room a := by
  induction room, a using TypeApplication.inductionInRoom with
  | node room name id applied each below => exact conductsNode indexed simple once deep each below

theorem upholdsBlame (a : TypeApplication) :
    Upholds (·.opened = []) (Blame table (leaves a)) (resolveUnder table limit a bindings) := by
  have idle : Climb table limit bindings limit.toNat [] :=
    ⟨Nat.add_zero _, List.nodup_nil, fun _ absurd => (nomatch absurd), fun _ absurd => (nomatch absurd)⟩
  exact conducts indexed simple once deep limit.toNat a [] idle fun _ absurd => nomatch absurd

end

end

theorem Account.keepsUnder (account : Account table) (indexed : Indexed table)
    (allowed : ∀ a bindings, account.allows a bindings) (limit : Int)
    (history : List (TypeApplication × Bindings Int)) :
    (memoryUnder table limit history).Keeps account.known := by
  refine List.foldlRecOn history _ Memory.keepsEmpty fun memory keeps step _ => ?_
  exact (account.ensuresIn indexed limit limit.toNat (allowed step.1 step.2) memory keeps).1

theorem notLoopsOfFound {declarations : List TypeDeclaration} (simple : Simple (ofList declarations))
    {limit : Int} {history : List (TypeApplication × Bindings Int)} {a : TypeApplication}
    {bindings : Bindings Int} {type : ParamType}
    (found : (resolveUnder (ofList declarations) limit a bindings
      (memoryUnder (ofList declarations) limit history)).1 = .ok type) :
    ¬ Loops (ofList declarations) a.typeId := by
  have indexed := indexedOfList declarations
  let account := groundedAccount indexed simple.parameters
  have keeps := account.keepsUnder indexed (fun _ _ => trivial) limit history
  exact notLoops ((account.ensuresIn indexed limit limit.toNat trivial _ keeps).2 type found)

/-- Whatever a resolver has done before: it takes a type for recursive only where a cycle is reached from
an id that is applied to no arguments, the applied one or one in its tree of type arguments; it finds no
type where a cycle is reached from the applied id; and it never meets a limit greater than the number of
declarations. -/
theorem resolveCycles (declarations : List TypeDeclaration) (limit : Int)
    (simple : Simple (ofList declarations)) (deep : ((ofList declarations).length : Int) < limit)
    (history : List (TypeApplication × Bindings Int)) (a : TypeApplication) (bindings : Bindings Int)
    (once : (Table.keys bindings).Nodup) :
    let table := ofList declarations
    let outcome := (resolveUnder table limit a bindings (memoryUnder table limit history)).1
    (Recursive outcome →
      (∃ id ∈ leaves a, Loops table id) ∧ (a.arguments = [] → Loops table a.typeId)) ∧
    (Loops table a.typeId → ∀ type, outcome ≠ .ok type) ∧
    ¬ TooDeep limit outcome := by
  intro table outcome
  have indexed := indexedOfList declarations
  have blamed := (upholdsBlame indexed simple once deep a).faults _ (openedUnder table limit history)
  refine ⟨fun ⟨source, recursive⟩ => ?_, fun loops type found => notLoopsOfFound simple found loops,
    fun ⟨source, met⟩ => blamed _ met⟩
  obtain ⟨id, member, loops⟩ := blamed _ recursive
  refine ⟨⟨id, member, loops⟩, fun none => ?_⟩
  rw [leavesNone none, List.mem_singleton] at member
  rw [← member]
  exact loops

end

theorem resolveCyclesMutual :
    let declarations : List TypeDeclaration := [⟨0, .str "u64", none, []⟩,
      ⟨1, .str "struct Even", some [.mk "next" 2 []], []⟩, ⟨2, .str "[_; 2]", some [.mk "__" 1 []], []⟩,
      ⟨3, .str "struct Start", some [.mk "own" 4 [], .mk "first" 1 []], []⟩,
      ⟨4, .str "struct Point", some [.mk "x" 0 []], []⟩]
    let table := ofList declarations
    let outcome := fun a => (resolveUnder table 6 a [] (memoryUnder table 6 [(.mk "" 4 [], [])])).1
    Simple table ∧ (table.length : Int) < 6 ∧ Recursive (outcome (.mk "" 3 [])) ∧
      Loops table 3 ∧ (∀ type, outcome (.mk "" 3 []) ≠ .ok type) ∧
      outcome (.mk "" 4 []) = .ok (.struct [.primitive .u64] [] "Point" ["x"]) ∧ ¬ Loops table 4 := by
  intro declarations table outcome
  have simple : Simple table :=
    simpleOfAll (by simp [declarations]) (by simp [declarations, TypeApplication.arguments])
  have deep : (table.length : Int) < 6 := by decide
  have recursive : Recursive (outcome (.mk "" 3 [])) := by
    dsimp only [outcome, table, declarations]
    decide +kernel
  have found : outcome (.mk "" 4 []) = .ok (.struct [.primitive .u64] [] "Point" ["x"]) := by
    dsimp only [outcome, table, declarations]
    decide +kernel
  have exact := fun a => resolveCycles declarations 6 simple deep [(.mk "" 4 [], [])] a [] List.nodup_nil
  have loops := ((exact (.mk "" 3 [])).1 recursive).2 rfl
  exact ⟨simple, deep, recursive, loops, (exact (.mk "" 3 [])).2.1 loops, found,
    fun loops => (exact (.mk "" 4 [])).2.1 loops _ found⟩

/-- A cycle in the type arguments is met before they are counted, although none is reached from the applied
id. -/
theorem argumentLoops :
    let declarations : List TypeDeclaration := [⟨0, .str "u64", none, []⟩,
      ⟨1, .str "struct Point", some [.mk "x" 0 []], []⟩, ⟨2, .str "struct Loop", some [.mk "next" 2 []], []⟩]
    let table := ofList declarations
    let outcome := fun a => (resolveUnder table 4 a [] (memoryUnder table 4 [])).1
    Simple table ∧ (table.length : Int) < 4 ∧
      outcome (.mk "" 1 [.mk "" 2 []]) = .error (.invalidType (.recursive "struct Loop")) ∧ ¬ Loops table 1 := by
  intro declarations table outcome
  have simple : Simple table :=
    simpleOfAll (by simp [declarations]) (by simp [declarations, TypeApplication.arguments])
  have found : outcome (.mk "" 1 []) = .ok (.struct [.primitive .u64] [] "Point" ["x"]) := by
    dsimp only [outcome, table, declarations]
    rfl
  exact ⟨simple, by decide, rfl, notLoopsOfFound simple found⟩

end Declarations

end WordAbi
