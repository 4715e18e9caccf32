import WordAbi.Proofs.Schema.Inline.Conduct
/-! A node for which a resolver has found a type keeps its type: whatever is known by then, and with
however much room, the node is refused for nothing but its depth. -/
namespace WordAbi.Property

open Declarations (Within withinAfter withinBegun)
open List (Forall₂)
open Outcome (faultsOk)
open Resolving (Upholds agreePure agreeBind agreeLift agreeLiftBind)

variable [Host]

/-- The node is refused for nothing but its depth, where names stand for types of these shapes. -/
def Attainable (limit : Int) (p : Property) (standings : Standings) : Prop :=
  ∀ (room : Nat) {bindings : Bindings String} {start : Memory Key}, bindings.shapes = standings →
    (Table.keys bindings).Nodup → Within (sizeOf p) start →
    Upholds (Grown start) (Fault.OfDepth limit) (resolveIn limit room p bindings)

def Kind.Attainable (limit : Int) (kind : Kind) : Prop :=
  ∀ (room : Nat) {key : Key} {expr : TypeExpr} {start : Memory Key}, key.kind = kind → key.Told →
    TypeExpr.ofText key.source = .ok expr → expr.Plain → Within (sizeOf key.components) start →
    Upholds (Grown start) (Fault.OfDepth limit)
      (Resolving.guarded Key.same limit key.source key (workFor limit room key expr))

section

variable {limit : Int} {name : String} {typeField : Datum} {cs as : Option (List Property)}
  {ps : Option (List String)} {bindings : Bindings String} {expr : TypeExpr} {types : List ParamType}
  {key : Key} {type : ParamType}

theorem attainableGeneric {word : String} (reads : TypeExpr.ofDatum typeField = .ok (.generic word))
    (found : Table.get? bindings word = some type) :
    Attainable limit (mk name typeField cs as ps) bindings.shapes := by
  intro room others start alike _ _
  obtain ⟨twin, there, _⟩ := Bindings.alikeFound (fun key => congrFun alike.symm key) found
  rw [resolveInEq, reads]
  refine agreeLiftBind (faultsOk _) fun expr same => ?_
  cases same
  have stands : standing typeField.display others word = .ok twin := by rw [standing, there]
  refine agreeLift fun fault failed => ?_
  cases stands.symm.trans failed

theorem attainableApplied (textual : (mk name typeField cs as ps).Textual)
    (reads : TypeExpr.ofDatum typeField = .ok expr) (plain : expr.Plain)
    (arguments : ∀ a ∈ as.getD [], Attainable limit a bindings.shapes)
    (means : Forall₂ (fun a => a.Means bindings.shapes) (as.getD []) types)
    (arity : ps.getD [] ≠ [] → (ps.getD []).length = types.length)
    (own : (ownKey typeField.display cs ps types bindings).kind.Attainable limit) :
    Attainable limit (mk name typeField cs as ps) bindings.shapes := by
  intro room others start alike once within
  obtain ⟨inside, below⟩ := withinParts within
  obtain ⟨_, components, textuals⟩ := textual
  rw [resolveInEq, reads]
  refine agreeLiftBind (faultsOk _) fun other same => ?_
  cases same
  split
  · exact absurd rfl (plain _)
  · refine agreeBind (Site.agreeResolveAll (as.getD [])
      fun a member => arguments a member room alike once (inside a member)) fun twins parts => ?_
    obtain ⟨memory, later, grown, runs⟩ := parts
    obtain ⟨_, _, meansToo⟩ := regularAll
      (fun a member => regular limit a (textualOfMemOption textuals a member)) once
      (fun a member => withinAfter grown.extended (inside a member)) grown.toGood runs
    rw [alike] at meansToo
    have same := Option.some.inj ((meaningsOfMeans means).symm.trans (meaningsOfMeans meansToo))
    have count := (ParamType.alikeOfShapes same).length_eq
    rw [if_neg fun mismatch => mismatch.2 ((arity mismatch.1).trans count), checkKey,
      if_pos (optionHasKeyOfTextual cs components)]
    refine agreeBind (agreePure ()) fun _ _ => ?_
    refine own room ?_ (toldOwn components once twins) (readsText reads) plain below
    rw [kindOwnKey, kindOwnKey, ownKind, ownKind, alike, same]

theorem attainableKey (reads : TypeExpr.ofText key.source = .ok expr) (settles : key.Settles (fun c bindings
      type => Attainable limit c bindings.shapes ∧ c.Means bindings.shapes type) expr type) :
    key.kind.Attainable limit := by
  intro room other expr start same told readsToo plain within
  obtain ⟨source, components, arguments, shapes⟩ := alikeOfKind same.symm
  obtain rfl := Except.ok.inj (reads.symm.trans (source ▸ readsToo))
  have regulars : ∀ c ∈ other.components.getD [], Regular limit c :=
    fun c member => regular limit c (textualOfMemOption told.textual c member)
  have inside := withinBegun told.textual within
  refine upholdsKey told readsToo plain within (fun source => ⟨source, rfl⟩) (fun work given => ?_)
    fun work before type later => providesWork told within regulars
  cases room with
  | zero => cases given
  | succ room =>
    cases given
    rw [← source, ← components]
    refine Site.upholdsBuild settles arguments (standingAlike shapes _ _) (faultsStanding _ _) ?_
    intro asked c member
    obtain ⟨types, each, _⟩ := Site.settlesTypes settles asked
    obtain ⟨attainable, _⟩ := (List.forall₂_and_left _ _).mp each
    exact attainable c member room shapes.symm told.once (inside c (components ▸ member))

end

def attainableAccount (limit : Int) : Account where
  allows p bindings := p.Textual ∧ (Table.keys bindings).Nodup
  of p bindings type := Attainable limit p bindings.shapes ∧ p.Means bindings.shapes type
  meets key := key.Told
  found key type := key.kind.Attainable limit ∧ key.kind.meaning = some type.shape
  bound reads found := ⟨attainableGeneric reads found, meansOfGeneric reads found⟩
  argument := meaningAccount.argument
  applied := by
    intro name typeField cs as ps expr types bindings allowed reads plain each arity has
    obtain ⟨arguments, means⟩ := (List.forall₂_and_left _ _).mp each
    obtain ⟨told, meansOwn⟩ := meaningAccount.applied allowed reads plain means arity has
    exact ⟨told, fun type found =>
      ⟨attainableApplied allowed.1 reads plain arguments means arity found.1, meansOwn type found.2⟩⟩
  component := meaningAccount.component
  settled := by
    intro key expr type told reads plain settles
    refine ⟨attainableKey reads settles, ?_⟩
    exact meaningAccount.settled told reads plain (Site.settlesOf (fun _ _ both => both.2) settles)
  shared told toldToo found same := by
    rw [← (sameIffKind told toldToo).mp same]
    exact found

end WordAbi.Property
