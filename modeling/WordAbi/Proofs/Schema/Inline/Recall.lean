import WordAbi.Proofs.Schema.Inline.Conduct
import WordAbi.Proofs.Schema.Replay
/-! A resolver of inline nodes that is asked again looks up a node and the arguments that it is written with,
and nothing else. -/
namespace WordAbi.Property

open Resolving (Replays replaysPure replaysThrow replaysLift replaysBind replaysLiftBind replaysGuarded)

variable [Host]

def isParameter (typeField : Datum) : Bool :=
  match TypeExpr.ofDatum typeField with
  | .ok (.generic _) => true
  | _ => false

theorem isParameterIff {typeField : Datum} {expr : TypeExpr} (reads : TypeExpr.ofDatum typeField = .ok expr) :
    isParameter typeField = true ↔ ∃ word, expr = .generic word := by
  rw [isParameter, reads]
  cases expr <;> simp

mutual

def lookups : Property → Nat
  | mk _ typeField _ typeArguments _ => if isParameter typeField then 0 else optionLookups typeArguments + 1

def optionLookups : Option (List Property) → Nat
  | none => 0
  | some ps => allLookups ps

def allLookups : List Property → Nat
  | [] => 0
  | p :: ps => lookups p + allLookups ps

end

theorem allLookupsEq (ps : List Property) : allLookups ps = (ps.map lookups).sum := by
  induction ps with
  | nil => rfl
  | cons p ps ih => rw [allLookups, ih, List.map_cons, List.sum_cons]

theorem optionLookupsEq (ps : Option (List Property)) : optionLookups ps = ((ps.getD []).map lookups).sum := by
  cases ps with
  | none => rfl
  | some ps => exact allLookupsEq ps

def recognition : Recognition Key Kind := ⟨Key.same, Key.Told, Key.kind, sameIffKind⟩

variable {limit : Int} {room : Nat} {key : Key} {expr : TypeExpr} {source : String}

def Replayed (limit : Int) (p : Property) : Prop :=
  ∀ (room : Nat) {bindings : Bindings String}, (Table.keys bindings).Nodup →
    Replays recognition p.lookups (resolveIn limit room p bindings)

theorem replaysKey (told : key.Told) (components : ∀ c ∈ key.components.getD [], Replayed limit c) :
    Replays recognition 1 (Resolving.guarded Key.same limit source key (workFor limit room key expr)) := by
  refine @replaysGuarded _ _ recognition _ _ _ _ told fun work given => ?_
  cases room with
  | zero => cases given
  | succ room =>
    cases given
    exact Site.replaysBuild (faultsStanding _ _) fun _ c member => ⟨_, components c member room told.once⟩

theorem replayedNode {name : String} {typeField : Datum} {cs as : Option (List Property)}
    {ps : Option (List String)} (textual : (mk name typeField cs as ps).Textual)
    (arguments : ∀ a ∈ as.getD [], Replayed limit a) (components : ∀ c ∈ cs.getD [], Replayed limit c) :
    Replayed limit (mk name typeField cs as ps) := by
  intro room bindings once
  obtain ⟨_, textuals, _⟩ := textual
  rw [resolveInEq]
  refine replaysLiftBind fun expr reads => ?_
  split
  · rename_i word
    rw [lookups, if_pos ((isParameterIff reads).mpr ⟨word, rfl⟩)]
    exact replaysLift _
  · rename_i plain
    have looked : isParameter typeField = false := Bool.eq_false_iff.mpr fun absurd => by
      obtain ⟨word, rfl⟩ := (isParameterIff reads).mp absurd
      exact plain word rfl
    rw [lookups, looked, if_neg (by decide), optionLookupsEq]
    refine replaysBind (Site.replaysResolveAll lookups (as.getD []) fun a member => arguments a member room once)
      fun types => ?_
    split
    · exact replaysThrow 1 _
    · rw [checkKey, if_pos (optionHasKeyOfTextual cs textuals)]
      exact replaysBind (m := 0) (replaysPure ()) fun _ => replaysKey (toldOwn textuals once types) components

theorem replayed (limit : Int) (p : Property) (textual : p.Textual) : Replayed limit p :=
  textualInduction replayedNode p textual

theorem keptAfter (limit : Int) {history : List (Property × Bindings String)}
    (textual : ∀ step ∈ history, step.1.Textual) (once : ∀ step ∈ history, (Table.keys step.2).Nodup) :
    Memory.empty.Kept recognition (memoryAfter limit history) :=
  Memory.keptAsking (fun step member => replayed limit step.1 (textual step member) _ (once step member))
    Memory.tidyEmpty

end WordAbi.Property
