import WordAbi.Proofs.Schema.Inline.Account
import WordAbi.Proofs.Schema.Shape
/-! The shape of the type of an inline node, as it is written: it follows from the node and from what the
names of generic parameters stand for, without a memory and without a limit. Types that a resolver finds
have this shape. -/
namespace WordAbi

open List (Forall₂)
open ParamType (shape shapes Alike)

namespace ParamType

mutual

@[simp] theorem shapeShape : (type : ParamType) → shape (shape type) = shape type
  | primitive _ => rfl
  | string _ => rfl
  | array element _ => by simp only [shape, shapeShape element]
  | vector element => by simp only [shape, shapeShape element]
  | tuple elements => by simp only [shape, shapesShapes elements]
  | struct fields generics _ _ => by simp only [shape, shapesShapes fields, shapesShapes generics]
  | enum variants generics _ _ => by simp only [shape, shapesShapes variants, shapesShapes generics]
  | unspecified => rfl

@[simp] theorem shapesShapes : (types : List ParamType) → shapes (shapes types) = shapes types
  | [] => rfl
  | type :: types => by simp only [shapes, shapeShape type, shapesShapes types]

end

theorem alikeShapes (types : List ParamType) : Forall₂ Alike types (shapes types) := by
  rw [shapesEqMap, List.forall₂_map_right_iff, List.forall₂_same]
  exact fun type _ => (shapeShape type).symm

end ParamType

theorem Site.asksShapes (arguments : List ParamType) (expr : TypeExpr) :
    asks (shapes arguments) expr = asks arguments expr :=
  (asksOfLength expr (ParamType.alikeShapes arguments).length_eq).symm

abbrev Standings := String → Option ParamType

namespace Bindings

variable {κ : Type} [DecidableEq κ]

def shapes (bindings : Bindings κ) (key : κ) : Option ParamType := (Table.get? bindings key).map shape

theorem shapesGetExtend (bindings : Bindings κ) (parameters : List κ) (types : List ParamType) (key : κ) :
    (bindings.extend parameters types).shapes key =
      ((extend [] parameters types).shapes key).or (bindings.shapes key) := by
  rw [shapes, shapes, shapes, getExtend, Option.map_or]

end Bindings

namespace Property

def rebound (standings : Standings) (parameters : List String) (arguments : List ParamType) : Standings :=
  fun word => ((Bindings.extend [] parameters arguments).shapes word).or (standings word)

theorem shapesExtend (bindings : Bindings String) (parameters : List String) (types : List ParamType) :
    (bindings.extend parameters types).shapes = rebound bindings.shapes parameters (shapes types) := by
  funext word
  have own : (Bindings.extend [] parameters types).Alike (Bindings.extend [] parameters (shapes types)) :=
    Bindings.alikeExtend parameters (fun _ => rfl) (ParamType.alikeShapes types)
  rw [Bindings.shapesGetExtend, rebound, Bindings.shapes, own word]
  rfl

def answer : Option ParamType → Except Fault ParamType
  | some type => .ok type
  | none => .error (.misuse .missingMember)

def assembled (source : String) (components : Option (List Property)) (parts : List (Option ParamType))
    (arguments : List ParamType) (standings : Standings) (expr : TypeExpr) : Option ParamType :=
  ((Site.settled Property.name (parts.map answer) source components arguments
    fun word => answer (standings word)).build expr).toOption.map shape

/-- What a memory is asked for, up to the names within types. -/
structure Kind where
  source : String
  components : Option (List Property)
  typeParameters : Option (List String)
  arguments : List ParamType
  standings : Standings

def Key.kind (key : Key) : Kind :=
  ⟨key.source, key.components, key.typeParameters, shapes key.arguments, key.bindings.shapes⟩

def ownKind (source : String) (components : Option (List Property)) (parameters : Option (List String))
    (arguments : List ParamType) (standings : Standings) : Kind :=
  ⟨source, components, parameters, shapes arguments,
    rebound standings (parameters.getD []) (shapes arguments)⟩

theorem kindOwnKey (source : String) (components : Option (List Property))
    (parameters : Option (List String)) (types : List ParamType) (bindings : Bindings String) :
    (ownKey source components parameters types bindings).kind =
      ownKind source components parameters types bindings.shapes := by
  rw [Key.kind, ownKind, ownKey, shapesExtend]

section

variable {ι : Type} {name : ι → String} {source : String} {items : Option (List ι)} {arguments : List ParamType}
  {stand : String → Except Fault ParamType} {cs : Option (List Property)}

theorem settledOfNames {answers : List (Except Fault ParamType)}
    (names : items.map (·.map name) = cs.map (·.map Property.name)) :
    Site.settled name answers source items arguments stand =
      Site.settled Property.name answers source cs arguments stand := by
  have byName : ∀ {ι : Type} (name : ι → String) (items : Option (List ι)),
      Site.settled name answers source items arguments stand =
        ⟨source, (items.map (·.map name)).map (·.zip answers), arguments, stand⟩ := by
    intro ι name items
    rw [Site.settled, Option.map_map]
    congr 2
    funext is
    rw [Function.comp, List.zip_map_left]
    rfl
  rw [byName, names, byName]

end

variable [Host]

mutual

def meaning : Property → Standings → Option ParamType
  | mk _ typeField components typeArguments typeParameters, standings =>
    match (TypeExpr.ofDatum typeField).toOption with
    | none => none
    | some (.generic word) => standings word
    | some expr => do
      let arguments ← (optionMeanings typeArguments standings).mapM id
      let inner := rebound standings (typeParameters.getD []) arguments
      assembled typeField.display components (optionMeanings components inner) arguments inner expr

def optionMeanings : Option (List Property) → Standings → List (Option ParamType)
  | none, _ => []
  | some ps, standings => meanings ps standings

def meanings : List Property → Standings → List (Option ParamType)
  | [], _ => []
  | p :: ps, standings => meaning p standings :: meanings ps standings

end

theorem meaningsEqMap (ps : List Property) (standings : Standings) :
    meanings ps standings = ps.map (meaning · standings) := by
  induction ps with
  | nil => rfl
  | cons p ps ih => rw [meanings, ih, List.map_cons]

theorem optionMeaningsEqMap (ps : Option (List Property)) (standings : Standings) :
    optionMeanings ps standings = (ps.getD []).map (meaning · standings) := by
  cases ps with
  | none => rfl
  | some ps => exact meaningsEqMap ps standings

def Means (p : Property) (standings : Standings) (type : ParamType) : Prop :=
  p.meaning standings = some type.shape

def Kind.meaning (kind : Kind) : Option ParamType := do
  let expr ← (TypeExpr.ofText kind.source).toOption
  assembled kind.source kind.components (optionMeanings kind.components kind.standings) kind.arguments
    kind.standings expr

section

variable {name : String} {typeField : Datum} {cs as : Option (List Property)} {ps : Option (List String)}
  {standings : Standings} {expr : TypeExpr} {types : List ParamType}

theorem meaningsOfMeans {qs : List Property} (each : Forall₂ (fun q => q.Means standings) qs types) :
    (qs.map (meaning · standings)).mapM id = some (shapes types) := by
  induction each with
  | nil => rfl
  | cons first _ ih =>
    rw [List.map_cons, List.mapM_cons, ih, id, first]
    rfl

theorem meaningOfPlain (reads : TypeExpr.ofDatum typeField = .ok expr) (plain : expr.Plain)
    (each : Forall₂ (fun a => a.Means standings) (as.getD []) types) :
    (mk name typeField cs as ps).meaning standings =
      (ownKind typeField.display cs ps types standings).meaning := by
  rw [meaning, reads, Kind.meaning, ownKind, readsText reads, optionMeaningsEqMap as, meaningsOfMeans each]
  cases expr with
  | generic word => exact absurd rfl (plain word)
  | _ => rfl

theorem meansOfGeneric {word : String} {bindings : Bindings String} {type : ParamType}
    (reads : TypeExpr.ofDatum typeField = .ok (.generic word))
    (found : Table.get? bindings word = some type) :
    (mk name typeField cs as ps).Means bindings.shapes type := by
  rw [Means, meaning, reads]
  exact congrArg (Option.map shape) found

end

section

variable {ι : Type} {name : ι → String} {of : ι → ParamType → Prop} {source : String}
  {items : Option (List ι)} {arguments twins : List ParamType} {stand : String → Except Fault ParamType}
  {cs : Option (List Property)} {standings : Standings} {expr : TypeExpr} {type : ParamType}

theorem meaningsOfEach {is : List ι} {qs : List Property} {types : List ParamType}
    (components : Forall₂ (fun item q => ∀ type, of item type → q.Means standings type) is qs)
    (each : Forall₂ of is types) :
    (qs.map (meaning · standings)).map answer = (shapes types).map .ok := by
  rw [ParamType.shapesEqMap]
  induction each generalizing qs with
  | nil =>
    cases components
    rfl
  | cons first _ ih =>
    cases components with
    | cons here rest =>
      rw [List.map_cons, List.map_cons, List.map_cons, List.map_cons, ih rest, here _ first]
      rfl

theorem assembledOfSettles (names : items.map (·.map name) = cs.map (·.map Property.name))
    (components : Forall₂ (fun item c => ∀ type, of item type → c.Means standings type)
      (items.getD []) (cs.getD []))
    (stands : ∀ word type, stand word = .ok type → standings word = some type.shape)
    (settles : Site.Settles name of source items arguments stand expr type) :
    assembled source cs (optionMeanings cs standings) (shapes arguments) standings expr =
      some type.shape := by
  have follows : ∀ word, Site.Follows (stand word) (answer (standings word)) := by
    intro word type found
    rw [stands word type found]
    exact ⟨_, rfl, (ParamType.shapeShape type).symm⟩
  have alike := ParamType.alikeShapes arguments
  have assembledOf : ∀ {twin}, type.Alike twin →
      (Site.settled Property.name ((optionMeanings cs standings).map answer) source cs (shapes arguments)
        fun word => answer (standings word)).build expr = .ok twin →
      assembled source cs (optionMeanings cs standings) (shapes arguments) standings expr =
        some type.shape := by
    intro twin same built
    rw [assembled, built, same]
    rfl
  cases asked : Site.asks arguments expr with
  | true =>
    obtain ⟨types, each, built⟩ := Site.settlesTypes settles asked
    obtain ⟨twin, builtToo, same⟩ := Site.settledFollows follows alike (ParamType.alikeShapes types)
      each.length_eq.symm type built
    refine assembledOf same ?_
    rw [optionMeaningsEqMap, meaningsOfEach components each, ← settledOfNames names]
    exact builtToo
  | false =>
    obtain ⟨answers, _, built⟩ := settles
    obtain ⟨twin, builtToo, same⟩ :=
      Site.unaskedFollows asked follows alike answers ((optionMeanings cs standings).map answer) type built
    refine assembledOf same ?_
    rw [← settledOfNames names]
    exact builtToo

end

end Property

end WordAbi
