import WordAbi.Proofs.Schema.Build
import WordAbi.Proofs.Schema.Names
/-! Types and bindings of the same shapes: a node that is built of types of other names, but of the same
shapes, has a type of the same shape. -/
namespace WordAbi

open List (Forall₂)
open ParamType (shape shapes)

def ParamType.Alike (type other : ParamType) : Prop := shape type = shape other

theorem ParamType.shapesOfAlike {types twins : List ParamType} (alike : Forall₂ Alike types twins) :
    shapes types = shapes twins := by
  induction alike with
  | nil => rfl
  | cons first _ ih => rw [shapes, shapes, first, ih]

theorem ParamType.alikeOfShapes {types twins : List ParamType} (same : shapes types = shapes twins) :
    Forall₂ Alike types twins := by
  rw [shapesEqMap, shapesEqMap] at same
  rw [← List.forall₂_eq_eq_eq, List.forall₂_map_left_iff, List.forall₂_map_right_iff] at same
  exact same

namespace Bindings

variable {κ : Type} [DecidableEq κ] {bindings others : Bindings κ} {types twins : List ParamType}

def Alike (bindings others : Bindings κ) : Prop :=
  ∀ key, (Table.get? bindings key).map ParamType.shape = (Table.get? others key).map ParamType.shape

theorem alikeExtend (parameters : List κ) (alike : bindings.Alike others)
    (each : Forall₂ ParamType.Alike types twins) :
    (bindings.extend parameters types).Alike (others.extend parameters twins) := by
  induction each generalizing bindings others parameters with
  | nil =>
    rw [extend, extend, List.zip_nil_right]
    exact alike
  | @cons type twin types twins first _ ih =>
    cases parameters with
    | nil => exact alike
    | cons parameter parameters =>
      change (extend (Table.insert bindings parameter type) parameters types).Alike
        (extend (Table.insert others parameter twin) parameters twins)
      refine ih parameters fun key => ?_
      rw [Table.getInsert, Table.getInsert]
      split
      · exact congrArg some first
      · exact alike key

theorem alikeFound (alike : bindings.Alike others) {key : κ} {type : ParamType}
    (found : Table.get? bindings key = some type) :
    ∃ twin, Table.get? others key = some twin ∧ type.Alike twin := by
  have same := alike key
  rw [found, Option.map_some, eq_comm, Option.map_eq_some_iff] at same
  obtain ⟨twin, there, shapes⟩ := same
  exact ⟨twin, there, shapes.symm⟩

theorem keysExtend {parameters : List κ} {key : κ} (member : key ∈ Table.keys (bindings.extend parameters types)) :
    key ∈ Table.keys bindings ∨ key ∈ parameters := by
  induction types generalizing bindings parameters with
  | nil =>
    rw [extend, List.zip_nil_right] at member
    exact .inl member
  | cons type types ih =>
    cases parameters with
    | nil => exact .inl member
    | cons parameter parameters =>
      change key ∈ Table.keys (extend (Table.insert bindings parameter type) parameters types) at member
      rcases ih member with inserted | later
      · rw [Table.keysInsert] at inserted
        split at inserted
        · exact .inl inserted
        · rcases List.mem_append.mp inserted with here | new
          · exact .inl here
          · rw [List.mem_singleton.mp new]
            exact .inr List.mem_cons_self
      · exact .inr (List.mem_cons_of_mem parameter later)

end Bindings

namespace Site

variable {ι : Type} {name : ι → String} {source : String} {items : Option (List ι)}
  {arguments others : List ParamType} {stand meant : String → Except Fault ParamType}
  {types twins : List ParamType} {type : ParamType} {expr : TypeExpr}

def Follows (outcome other : Except Fault ParamType) : Prop :=
  ∀ type, outcome = .ok type → ∃ twin, other = .ok twin ∧ type.Alike twin

theorem followsRefl (outcome : Except Fault ParamType) : Follows outcome outcome :=
  fun type found => ⟨type, found, rfl⟩

theorem followsArray {outcome other : Except Fault ParamType} (follows : Follows outcome other)
    (length : Int) :
    Follows (outcome >>= fun type => pure (.array type length))
      (other >>= fun type => pure (.array type length)) := by
  intro type found
  obtain ⟨inner, step, last⟩ := Outcome.bindOk.mp found
  cases last
  obtain ⟨twin, rfl, alike⟩ := follows inner step
  refine ⟨_, rfl, ?_⟩
  rw [ParamType.Alike, shape, shape, alike]

theorem standaloneFollows (site other : Site (Except Fault)) (source : site.source = other.source)
    (stands : ∀ word, Follows (site.substitute word) (other.substitute word)) :
    (expr : TypeExpr) → Follows (site.standalone expr) (other.standalone expr)
  | .keyword word => by
    rw [standalone, standalone, source]
    exact followsRefl _
  | .str _ => followsRefl _
  | .array element length => followsArray (standaloneFollows site other source stands element) length
  | .generic word => stands word
  | .tuple _ => fun _ absurd => by cases absurd
  | .custom _ _ => fun _ absurd => by cases absurd

theorem besideAny {is : List ι} (aligned : types.length = is.length) :
    Forall₂ (fun _ _ => True) is types :=
  List.forall₂_iff_zip.mpr ⟨aligned.symm, fun _ => trivial⟩

theorem tupleFollows {elements : List TypeExpr} (each : Forall₂ ParamType.Alike types twins)
    (aligned : types.length = (items.getD []).length) :
    Follows ((settled name (types.map .ok) source items arguments stand).build (.tuple elements))
      ((settled name (twins.map .ok) source items others meant).build (.tuple elements)) := by
  match items, aligned with
  | none, _ => exact fun _ absurd => by cases absurd
  | some is, aligned =>
    have all := resolveAllOk name (besideAny aligned)
    have allTwins := resolveAllOk name (besideAny (each.length_eq ▸ aligned))
    simp only [Option.getD_some] at all allTwins
    intro type built
    simp only [build, settled, Option.map_some, List.length_map, List.length_zip] at built ⊢
    rw [all] at built
    rw [allTwins, ← each.length_eq]
    split at built
    · rename_i count
      cases built
      rw [if_pos count]
      refine ⟨_, rfl, ?_⟩
      rw [ParamType.Alike, shape, shape, ParamType.shapesOfAlike each]
    · cases built

theorem vectorFollows {m : Type → Type} {site other : Site m} {kind : CustomKind} {word : String}
    (alike : Forall₂ ParamType.Alike site.arguments other.arguments) :
    (∀ element, site.vectorElement? kind word = some element →
      ∃ twin, other.vectorElement? kind word = some twin ∧ element.Alike twin) ∧
    (site.vectorElement? kind word = none → other.vectorElement? kind word = none) := by
  obtain ⟨_, _, arguments, _⟩ := site
  obtain ⟨_, _, others, _⟩ := other
  cases kind with
  | enum => exact ⟨fun _ absurd => (by cases absurd), fun _ => rfl⟩
  | struct =>
    match arguments, others, alike with
    | [], [], _ => exact ⟨fun _ absurd => (by cases absurd), fun _ => rfl⟩
    | [element], [twin], .cons first _ =>
      by_cases vec : lastSegment word = "Vec" <;> simp [vectorElement?, vec, first]
    | _ :: _ :: _, _ :: _ :: _, _ => exact ⟨fun _ absurd => (by cases absurd), fun _ => rfl⟩

theorem customFollows {kind : CustomKind} {word : String}
    (alike : Forall₂ ParamType.Alike arguments others) (each : Forall₂ ParamType.Alike types twins)
    (aligned : types.length = (items.getD []).length) :
    Follows ((settled name (types.map .ok) source items arguments stand).build (.custom kind word))
      ((settled name (twins.map .ok) source items others meant).build (.custom kind word)) := by
  have follows : ∀ answers answers',
      (∀ element, (settled name answers source items arguments stand).vectorElement? kind word =
          some element →
        ∃ twin, (settled name answers' source items others meant).vectorElement? kind word = some twin ∧
          element.Alike twin) ∧
      ((settled name answers source items arguments stand).vectorElement? kind word = none →
        (settled name answers' source items others meant).vectorElement? kind word = none) :=
    fun _ _ => vectorFollows alike
  intro type built
  cases vector : (settled name (types.map .ok) source items arguments stand).vectorElement? kind word with
  | some element =>
    obtain ⟨twin, found, first⟩ := (follows _ (twins.map .ok)).1 element vector
    rw [build, custom, vector] at built
    cases built
    rw [build, custom, found]
    refine ⟨_, rfl, ?_⟩
    rw [ParamType.Alike, shape, shape, first]
  | none =>
    have none := fun answers => (follows _ answers).2 vector
    obtain _ | _ | ⟨first, rest⟩ := items
    · rw [build, custom, vector] at built
      cases built
    · rw [build, custom, vector] at built
      cases built
    · rw [customOk (fun _ => vector) (besideAny aligned)] at built
      rw [customOk none (besideAny (each.length_eq ▸ aligned))]
      cases built
      refine ⟨_, rfl, ?_⟩
      cases kind <;>
        simp only [ParamType.Alike, CustomKind.type, shape, ParamType.shapesOfAlike each,
          ParamType.shapesOfAlike alike]

theorem settledFollows (stands : ∀ word, Follows (stand word) (meant word))
    (alike : Forall₂ ParamType.Alike arguments others) (each : Forall₂ ParamType.Alike types twins)
    (aligned : types.length = (items.getD []).length) :
    Follows ((settled name (types.map .ok) source items arguments stand).build expr)
      ((settled name (twins.map .ok) source items others meant).build expr) := by
  cases expr with
  | keyword word => exact followsRefl _
  | str length => exact followsRefl _
  | generic word => exact stands word
  | array element length =>
    match items, types, twins, each, aligned with
    | none, [], [], _, _ =>
      exact followsArray (standaloneFollows (settled name [] source none arguments stand)
        (settled name [] source none others meant) rfl stands element) length
    | some [], [], [], _, _ =>
      exact followsArray (standaloneFollows (settled name [] source (some []) arguments stand)
        (settled name [] source (some []) others meant) rfl stands element) length
    | some [item], [type], [twin], .cons first _, _ =>
      have follows : Follows (.ok type) (.ok twin) := by
        intro other same
        cases same
        exact ⟨twin, rfl, first⟩
      exact followsArray follows length
    | some (_ :: _ :: _), _ :: _ :: _, _ :: _ :: _, _, _ => exact fun _ absurd => by cases absurd
  | tuple elements => exact tupleFollows each aligned
  | custom kind word => exact customFollows alike each aligned

theorem unaskedFollows (unasked : asks arguments expr = false)
    (stands : ∀ word, Follows (stand word) (meant word)) (alike : Forall₂ ParamType.Alike arguments others)
    (answers answersToo : List (Except Fault ParamType)) :
    Follows ((settled name answers source items arguments stand).build expr)
      ((settled name answersToo source items others meant).build expr) := by
  let types : List ParamType := (items.getD []).map fun _ => .tuple []
  have alikes : Forall₂ ParamType.Alike types types := List.forall₂_same.mpr fun _ _ => rfl
  have unaskedToo : asks others expr = false := (asksOfLength expr alike.length_eq).symm.trans unasked
  rw [settledUnasked unasked answers (types.map .ok), settledUnasked unaskedToo answersToo (types.map .ok)]
  exact settledFollows stands alike alikes (by simp [types])

theorem twinsOf {of further : ι → ParamType → Prop} {is : List ι}
    (twin : ∀ item type, of item type → ∃ twin, further item twin ∧ type.Alike twin)
    (each : Forall₂ of is types) : ∃ twins, Forall₂ further is twins ∧ Forall₂ ParamType.Alike types twins := by
  induction each with
  | nil => exact ⟨[], .nil, .nil⟩
  | cons first _ ih =>
    obtain ⟨type, there, alike⟩ := twin _ _ first
    obtain ⟨types, rest, alikes⟩ := ih
    exact ⟨type :: types, .cons there rest, .cons alike alikes⟩

theorem settlesFollows {of further : ι → ParamType → Prop}
    (twin : ∀ item type, of item type → ∃ twin, further item twin ∧ type.Alike twin)
    (alike : Forall₂ ParamType.Alike arguments others) (stands : ∀ word, Follows (stand word) (meant word))
    (settles : Settles name of source items arguments stand expr type) :
    ∃ twin, Settles name further source items others meant expr twin ∧ type.Alike twin := by
  cases asked : asks arguments expr with
  | true =>
    obtain ⟨types, each, built⟩ := settlesTypes settles asked
    obtain ⟨twins, there, alikes⟩ := twinsOf twin each
    obtain ⟨result, builtToo, same⟩ :=
      settledFollows stands alike alikes each.length_eq.symm type built
    exact ⟨result, ⟨_, answersOk there, builtToo⟩, same⟩
  | false =>
    obtain ⟨answers, _, built⟩ := settles
    obtain ⟨result, builtToo, same⟩ :=
      unaskedFollows asked stands alike answers (unused (items.getD [])) type built
    exact ⟨result, ⟨_, answersUnused further _, builtToo⟩, same⟩

end Site

end WordAbi
