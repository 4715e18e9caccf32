import WordAbi.Proofs.Schema.Conduct
import WordAbi.Proofs.Schema.Simulation
/-! How a resolver of inline nodes goes on, whether or not it finds a type: it never takes a node for
recursive, since what is in progress has larger components; it forgets nothing; and with a node it knows
all that the node needs. -/
namespace WordAbi.Property

open Declarations (Extends Within extendsRefl extendsTrans withinMono withinAfter withinBegun notOpened
  closedLearnt)
open List (Forall₂)
open Outcome (Faults faultsOk faultsError)
open Resolving (Ensures ensuresOf ensuresRuns Runs runsGuarded Agree Upholds agreePure agreeThrow agreeBind
  agreeLift agreeLiftBind agreeGuarded keepsRuns)

theorem faultsStanding (source : String) (bindings : Bindings String) (word : String) :
    Faults Fault.OfNode (standing source bindings word) := by
  unfold standing
  split
  · exact faultsOk _
  · exact faultsError trivial

section

variable {name : String} {typeField : Datum} {cs as : Option (List Property)} {ps : Option (List String)}

theorem textualInduction {holds : Property → Prop}
    (node : ∀ {name typeField cs as ps}, (mk name typeField cs as ps).Textual → (∀ a ∈ as.getD [], holds a) →
      (∀ c ∈ cs.getD [], holds c) → holds (mk name typeField cs as ps))
    (p : Property) (textual : p.Textual) : holds p := by
  induction size : sizeOf p using Nat.strong_induction_on generalizing p with
  | _ n ih =>
    obtain ⟨name, typeField, cs, as, ps⟩ := p
    rw [mk.sizeOf_spec] at size
    refine node textual (fun a member => ?_) fun c member => ?_
    · have less := sizeOfMem member
      exact ih (sizeOf a) (by omega) a (textualOfMemOption textual.2.2 a member) rfl
    · have less := sizeOfMem member
      exact ih (sizeOf c) (by omega) c (textualOfMemOption textual.2.1 c member) rfl

theorem withinParts {memory : Memory Key} (within : Within (sizeOf (mk name typeField cs as ps)) memory) :
    (∀ a ∈ as.getD [], Within (sizeOf a) memory) ∧ Within (sizeOf cs) memory := by
  rw [mk.sizeOf_spec] at within
  refine ⟨fun a member => ?_, withinMono (by omega) within⟩
  have less := sizeOfMem member
  exact withinMono (by omega) within

theorem toldOwn {bindings : Bindings String} (textual : OptionTextual cs) (once : (Table.keys bindings).Nodup)
    (types : List ParamType) : (ownKey typeField.display cs ps types bindings).Told :=
  ⟨Bindings.nodupExtend once, textual⟩

end

variable [Host]

structure Good (memory : Memory Key) : Prop where
  meanings : memory.Keeps meaningAccount.known
  closed : Closed memory.Knows

structure Grown (start memory : Memory Key) : Prop extends Good memory where
  extended : Extends start memory

theorem goodEmpty : Good (Memory.empty : Memory Key) := by
  refine ⟨Memory.keepsEmpty, fun kind known => ?_⟩
  obtain ⟨_, _, member, _⟩ := known
  cases member

theorem grownRefl {memory : Memory Key} (good : Good memory) : Grown memory memory :=
  ⟨good, extendsRefl memory⟩

section

variable {limit : Int} {room : Nat} {start memory later : Memory Key} {bindings : Bindings String}
  {type : ParamType} {expr : TypeExpr} {key : Key} {blame : Fault → Prop}

theorem Account.ensuresWork (account : Account) (reads : TypeExpr.ofText key.source = .ok expr)
    (plain : expr.Plain) (meets : account.meets key) {work : Resolving Key ParamType}
    (given : workFor limit room key expr = some work) : Ensures account.known work (account.known key) := by
  cases room with
  | zero => cases given
  | succ room =>
    cases given
    have each : Site.asks key.arguments expr = true → ∀ c ∈ key.components.getD [],
        Ensures account.known (resolveIn limit room c key.bindings) (account.of c key.bindings) :=
      fun asked c member =>
        account.ensuresIn c room key.bindings (account.component meets reads asked c member)
    have built := Site.ensuresBuild Property.name key.source (standing key.source key.bindings) each
    exact ensuresOf built fun type settles => ⟨meets, account.settled meets reads plain settles⟩

def Provides (key : Key) (expr : TypeExpr) (memory : Memory Key) : Prop :=
  Site.asks key.arguments expr = true →
    ∀ c ∈ key.components.getD [], Complete memory.Knows c key.bindings.shapes

theorem upholdsKey (told : key.Told) (reads : TypeExpr.ofText key.source = .ok expr) (plain : expr.Plain)
    (within : Within (sizeOf key.components) start)
    (deep : ∀ source, blame (.unsupported (.resolutionDepth limit source)))
    (works : ∀ work, workFor limit room key expr = some work → Upholds (Grown (start.begun key)) blame work)
    (provides : ∀ work before type later, workFor limit room key expr = some work →
      Grown (start.begun key) before → Runs work before type later → Provides key expr later) :
    Upholds (Grown start) blame
      (Resolving.guarded Key.same limit key.source key (workFor limit room key expr)) := by
  have fresh : ∀ memory, Grown start memory → memory.opened.any (Key.same · key) = false :=
    fun memory grown => notOpened (withinAfter grown.extended within)
  have each : ∀ memory, Grown start memory → memory.opened.any (Key.same · key) = false →
      Option.Rel (Agree (Grown (start.begun key)) blame) (workFor limit room key expr)
        (workFor limit room key expr) := by
    intro _ _ _
    cases given : workFor limit room key expr with
    | none => exact .none
    | some work => exact .some (works work given)
  refine agreeGuarded ?_ ?_ (fun _ => deep _) ?_ each ?_ ?_
  · exact fun memory grown => ⟨⟨grown.meanings, grown.closed⟩, grown.extended.opened, grown.extended.more⟩
  · intro memory grown again
    rw [fresh memory grown] at again
    cases again
  · exact fun memory grown _ _ => ⟨⟨grown.meanings, grown.closed⟩,
      congrArg (key :: ·) grown.extended.opened, grown.extended.more⟩
  · exact fun memory grown => ⟨⟨grown.meanings, grown.closed⟩,
      congrArg List.tail grown.extended.opened, grown.extended.more⟩
  · intro work before type later given grown grownToo runs
    obtain ⟨_, new⟩ := ensuresRuns (meaningAccount.ensuresWork reads plain told given) grown.meanings runs
    have learns : ∀ kind, later.Knows kind → (later.ended.learnt key type).Knows kind :=
      fun kind known => Memory.knowsLearnt.mpr (.inr known)
    refine ⟨⟨?_, ?_⟩, congrArg List.tail grownToo.extended.opened,
      fun kind known => learns kind (grownToo.extended.more kind known)⟩
    · intro other found member
      rcases List.mem_cons.mp member with same | member
      · cases same
        exact new
      · exact grownToo.meanings other found member
    · exact closedLearnt reads grownToo.closed (provides work before type later given grown runs)

/-- However much room there is and whatever is known: the resolution of the node does not end with the
node being recursive, and if it finds a type, all that the node needs is known. -/
structure Regular (limit : Int) (p : Property) : Prop where
  upholds : ∀ (room : Nat) {bindings : Bindings String} {start : Memory Key},
    (Table.keys bindings).Nodup → Within (sizeOf p) start →
    Upholds (Grown start) Fault.NotRecursive (resolveIn limit room p bindings)
  completes : ∀ {room : Nat} {bindings : Bindings String} {memory later : Memory Key} {type : ParamType},
    (Table.keys bindings).Nodup → Within (sizeOf p) memory → Good memory →
    Runs (resolveIn limit room p bindings) memory type later → Complete later.Knows p bindings.shapes
  means : ∀ {room : Nat} {bindings : Bindings String} {memory later : Memory Key} {type : ParamType},
    (Table.keys bindings).Nodup → Good memory →
    Runs (resolveIn limit room p bindings) memory type later → p.Means bindings.shapes type

theorem regularAll {ps : List Property} (regular : ∀ p ∈ ps, Regular limit p)
    (once : (Table.keys bindings).Nodup) (within : ∀ p ∈ ps, Within (sizeOf p) memory) (good : Good memory)
    {types : List ParamType}
    (runs : Runs (Site.resolveAll (ps.map fun p => (p.name, resolveIn limit room p bindings))) memory types
      later) :
    Grown memory later ∧ (∀ p ∈ ps, Complete later.Knows p bindings.shapes) ∧
      Forall₂ (fun p => p.Means bindings.shapes) ps types := by
  induction ps generalizing memory types with
  | nil =>
    obtain ⟨rfl, rfl⟩ := Site.runsResolveAllNil.mp runs
    exact ⟨grownRefl good, fun _ absurd => (nomatch absurd), .nil⟩
  | cons p ps ih =>
    obtain ⟨type, between, types, first, rest, rfl⟩ := Site.runsResolveAllCons.mp runs
    obtain ⟨here, others⟩ := List.forall_mem_cons.mp regular
    obtain ⟨inside, insides⟩ := List.forall_mem_cons.mp within
    have grown := keepsRuns (here.upholds room once inside) (grownRefl good) first
    obtain ⟨grownToo, completes, means⟩ := ih others
      (fun q member => withinAfter grown.extended (insides q member)) grown.toGood rest
    refine ⟨⟨grownToo.toGood, extendsTrans grown.extended grownToo.extended⟩, ?_,
      .cons (here.means once good first) means⟩
    have complete := completeMono grownToo.extended.more (here.completes once inside good first)
    exact List.forall_mem_cons.mpr ⟨complete, completes⟩

theorem providesWork (told : key.Told) (within : Within (sizeOf key.components) start)
    (components : ∀ c ∈ key.components.getD [], Regular limit c) {work : Resolving Key ParamType}
    (given : workFor limit room key expr = some work) (grown : Grown (start.begun key) memory)
    (runs : Runs work memory type later) : Provides key expr later := by
  intro asked
  cases room with
  | zero => cases given
  | succ room =>
    cases given
    have inside := withinBegun told.textual within
    obtain ⟨types, parts, _⟩ := (Site.runsAsked asked).mp runs
    exact (regularAll components told.once
      (fun c member => withinAfter grown.extended (inside c member)) grown.toGood parts).2.1

theorem regularKey (told : key.Told) (reads : TypeExpr.ofText key.source = .ok expr) (plain : expr.Plain)
    (within : Within (sizeOf key.components) start)
    (components : ∀ c ∈ key.components.getD [], Regular limit c) :
    Upholds (Grown start) Fault.NotRecursive
      (Resolving.guarded Key.same limit key.source key (workFor limit room key expr)) := by
  refine upholdsKey told reads plain within (fun _ _ absurd => nomatch absurd) (fun work given => ?_)
    fun work before type later => providesWork told within components
  cases room with
  | zero => cases given
  | succ room =>
    cases given
    refine Site.agreeBuild (fun _ => Fault.notRecursiveOfNode) (faultsStanding _ _) fun _ c member => ?_
    exact (components c member).upholds room told.once (withinBegun told.textual within c member)

theorem knowsGuarded (told : key.Told) (good : Good memory) {work : Option (Resolving Key ParamType)}
    (runs : Runs (Resolving.guarded Key.same limit key.source key work) memory type later) :
    later.Knows key.kind := by
  rcases runsGuarded.mp runs with ⟨found, rfl⟩ | ⟨_, _, _, between, _, _, rfl⟩
  · exact (Memory.knowsIff good.meanings told).mpr ⟨type, found⟩
  · exact Memory.knowsLearnt.mpr (.inl rfl)

end

section

variable {limit : Int} {name : String} {typeField : Datum} {cs as : Option (List Property)}
  {ps : Option (List String)}

theorem regularNode (textual : (mk name typeField cs as ps).Textual)
    (arguments : ∀ a ∈ as.getD [], Regular limit a) (components : ∀ c ∈ cs.getD [], Regular limit c) :
    Regular limit (mk name typeField cs as ps) where
  upholds := by
    intro room bindings start once within
    obtain ⟨inside, below⟩ := withinParts within
    obtain ⟨_, textualToo, _⟩ := textual
    rw [resolveInEq]
    refine agreeLiftBind (TypeExpr.faultsOfDatum (fun _ => Fault.notRecursiveOfNode)
      fun _ _ absurd => nomatch absurd) fun expr reads => ?_
    split
    · exact agreeLift fun fault failed => Fault.notRecursiveOfNode (faultsStanding _ _ _ fault failed)
    · rename_i plain
      refine agreeBind (Site.agreeResolveAll (as.getD [])
        fun a member => (arguments a member).upholds room once (inside a member)) fun types _ => ?_
      split
      · refine agreeThrow fun source same => ?_
        cases same
      · rw [checkKey, if_pos (optionHasKeyOfTextual cs textualToo)]
        refine agreeBind (agreePure ()) fun _ _ => ?_
        exact regularKey (toldOwn textualToo once types) (readsText reads) plain below components
  completes := by
    intro room bindings memory later type once within good runs
    obtain ⟨inside, below⟩ := withinParts within
    rcases runsIn.mp runs with
      ⟨word, reads, _⟩ | ⟨expr, types, between, reads, plain, parts, _, _, guarded⟩
    · exact completeGeneric reads
    · obtain ⟨grown, completes, means⟩ := regularAll arguments once inside good parts
      have told : (ownKey typeField.display cs ps types bindings).Told := toldOwn textual.2.1 once types
      have after := keepsRuns (regularKey told (readsText reads) plain
        (withinAfter grown.extended below) components) (grownRefl grown.toGood) guarded
      have known := knowsGuarded told grown.toGood guarded
      rw [kindOwnKey] at known
      exact completeOfOwn means known fun a member => completeMono after.extended.more (completes a member)
  means := by
    intro room bindings memory later type once good runs
    exact (ensuresRuns (meaningAccount.ensuresIn _ room bindings ⟨textual, once⟩) good.meanings runs).2

theorem regular (limit : Int) (p : Property) (textual : p.Textual) : Regular limit p :=
  textualInduction regularNode p textual

end

end WordAbi.Property
