import WordAbi.Proofs.ParamType.Height
import WordAbi.Proofs.Schema.Build
import WordAbi.Proofs.Schema.Names
/-! How deeply the type of a node nests, counted from how its parts nest. -/
namespace WordAbi

open List (Forall₂)
open ParamType (height heights)

def overlay {κ : Type} [DecidableEq κ] (levels : κ → Option Nat) (parameters : List κ)
    (arguments : List Nat) : κ → Option Nat :=
  (parameters.zip arguments).foldl
    (fun levels entry name => if entry.1 = name then some entry.2 else levels name) levels

namespace Bindings

variable {κ : Type} [DecidableEq κ]

def levels (bindings : Bindings κ) (name : κ) : Option Nat := (Table.get? bindings name).map height

theorem levelsExtend (bindings : Bindings κ) (parameters : List κ) (types : List ParamType) :
    (bindings.extend parameters types).levels = overlay bindings.levels parameters (types.map height) := by
  rw [extend, overlay, List.zip_map_right, List.foldl_map]
  generalize parameters.zip types = entries
  induction entries generalizing bindings with
  | nil => rfl
  | cons entry entries ih =>
    rw [List.foldl_cons, List.foldl_cons, ih]
    congr 1
    funext name
    simp only [levels, Table.getInsert, Prod.map_fst, Prod.map_snd, id]
    split <;> rfl

theorem levelsOfSame {bindings others : Bindings κ} (same : bindings.same others = true)
    (nodup : (Table.keys bindings).Nodup) : bindings.levels = others.levels := by
  have heights : height = height ∘ ParamType.shape := by
    funext type
    exact (ParamType.heightShape type).symm
  funext name
  rw [levels, levels, heights, ← Option.map_map, ← Option.map_map, shapesOfSame same nodup]

end Bindings

namespace TypeExpr

def writtenNesting (levels : String → Option Nat) : TypeExpr → Option Nat
  | keyword _ => some 0
  | str _ => some 0
  | array element _ => (writtenNesting levels element).map (· + 1)
  | generic name => levels name
  | _ => none

def around : List (Option Nat) → Option Nat
  | [] => some 0
  | part :: parts => do
    let first ← part
    let rest ← around parts
    some (max (first + 1) rest)

/-- Levels below the type of a node, from those of its arguments, components and parameters. -/
def nesting (arguments : List Nat) (parts : List (Option Nat)) (levels : String → Option Nat) :
    TypeExpr → Option Nat
  | keyword _ => some 0
  | str _ => some 0
  | array element _ =>
    match parts with
    | [] => (writtenNesting levels element).map (· + 1)
    | part :: _ => part.map (· + 1)
  | tuple _ => around parts
  | custom kind name =>
    match kind, arguments with
    | .struct, [element] => if Site.lastSegment name = "Vec" then some (element + 1) else around parts
    | _, _ => around parts
  | generic name => levels name

def Agree (count other : Option Nat) : Prop := ∀ m n, count = some m → other = some n → m = n

theorem agreeSome {count : Option Nat} : Agree count count := by
  intro m n one two
  exact Option.some.inj (one.symm.trans two)

theorem agreeMap {count other : Option Nat} (agree : Agree count other) (f : Nat → Nat) :
    Agree (count.map f) (other.map f) := by
  intro m n one two
  obtain ⟨m, known, rfl⟩ := Option.map_eq_some_iff.mp one
  obtain ⟨n, too, rfl⟩ := Option.map_eq_some_iff.mp two
  rw [agree m n known too]

section

variable {levels others : String → Option Nat} {parts twins : List (Option Nat)}

theorem writtenAgree (stands : ∀ word, Agree (levels word) (others word)) :
    (expr : TypeExpr) → Agree (writtenNesting levels expr) (writtenNesting others expr)
  | keyword _ => agreeSome
  | str _ => agreeSome
  | array element _ => agreeMap (writtenAgree stands element) _
  | generic word => stands word
  | tuple _ => agreeSome
  | custom _ _ => agreeSome

theorem aroundAgree (agree : Forall₂ Agree parts twins) : Agree (around parts) (around twins) := by
  induction agree with
  | nil => exact agreeSome
  | cons first rest ih =>
    intro m n one two
    rw [around, Option.bind_eq_bind, Option.bind_eq_some_iff] at one two
    obtain ⟨first₁, known₁, one⟩ := one
    obtain ⟨first₂, known₂, two⟩ := two
    obtain ⟨rest₁, all₁, one⟩ := Option.bind_eq_some_iff.mp one
    obtain ⟨rest₂, all₂, two⟩ := Option.bind_eq_some_iff.mp two
    cases one
    cases two
    rw [first _ _ known₁ known₂, ih _ _ all₁ all₂]

theorem nestingAgree (agree : Forall₂ Agree parts twins)
    (stands : ∀ word, Agree (levels word) (others word)) (arguments : List Nat) (expr : TypeExpr) :
    Agree (expr.nesting arguments parts levels) (expr.nesting arguments twins others) := by
  cases expr with
  | keyword _ => exact agreeSome
  | str _ => exact agreeSome
  | array element _ =>
    cases agree with
    | nil => exact agreeMap (writtenAgree stands element) _
    | cons first _ => exact agreeMap first _
  | tuple _ => exact aroundAgree agree
  | custom kind name =>
    have all := aroundAgree agree
    match kind, arguments with
    | .enum, _ => exact all
    | .struct, [] => exact all
    | .struct, _ :: _ :: _ => exact all
    | .struct, [element] =>
      rw [nesting, nesting]
      split
      · exact agreeSome
      · exact all
  | generic word => exact stands word

end

end TypeExpr

namespace Site

open TypeExpr (nesting writtenNesting around)

variable {ι : Type}

def Counts (answer : Except Fault ParamType) (part : Option Nat) : Prop :=
  ∀ type, answer = .ok type → part = some type.height

theorem heightOfKeyword {source word : String} {type : ParamType}
    (found : ParamType.ofKeyword source word = .ok type) : type.height = 0 := by
  unfold ParamType.ofKeyword at found
  split at found
  · cases found
    rfl
  · split at found <;> cases found

theorem nestingOfStandalone (site : Site (Except Fault)) {levels : String → Option Nat}
    (counts : ∀ word, Counts (site.substitute word) (levels word)) :
    (expr : TypeExpr) → Counts (site.standalone expr) (writtenNesting levels expr)
  | .keyword word, type, built => by
    rw [standalone, liftExcept] at built
    rw [writtenNesting, heightOfKeyword built]
  | .str length, type, built => by
    cases built
    rfl
  | .array element length, type, built => by
    rw [standalone, Outcome.bindOk] at built
    obtain ⟨inner, built, last⟩ := built
    cases last
    rw [writtenNesting, nestingOfStandalone site counts element inner built]
    rfl
  | .generic word, type, built => counts word type built
  | .tuple _, _, built => by cases built
  | .custom _ _, _, built => by cases built

theorem aroundOfTypes {answers : List (Except Fault ParamType)} {parts : List (Option Nat)}
    {types : List ParamType} (counts : Forall₂ Counts answers parts) (all : answers = types.map .ok) :
    around parts = some (heights types) := by
  induction counts generalizing types with
  | nil =>
    cases types with
    | nil => rfl
    | cons _ _ => cases all
  | cons first rest ih =>
    cases types with
    | nil => cases all
    | cons type types =>
      obtain ⟨head, tail⟩ := List.cons.inj all
      rw [around, first type head, ih tail]
      rfl

variable {name : ι → String} {answers : List (Except Fault ParamType)} {source : String}
  {items : Option (List ι)} {arguments : List ParamType} {stand : String → Except Fault ParamType}
  {parts : List (Option Nat)} {levels : String → Option Nat} {type : ParamType}

theorem nestingOfArray {element : TypeExpr} {length : Nat} (aligned : answers.length = (items.getD []).length)
    (counts : Forall₂ Counts answers parts) (stands : ∀ word, Counts (stand word) (levels word))
    (built : (settled name answers source items arguments stand).build (.array element length) = .ok type) :
    (TypeExpr.array element length).nesting (arguments.map height) parts levels = some type.height := by
  match items, answers, parts, aligned, counts with
  | none, [], [], _, _ =>
    obtain ⟨inner, step, last⟩ := Outcome.bindOk.mp built
    cases last
    rw [nesting, nestingOfStandalone _ stands element inner step]
    rfl
  | some [], [], [], _, _ =>
    obtain ⟨inner, step, last⟩ := Outcome.bindOk.mp built
    cases last
    rw [nesting, nestingOfStandalone _ stands element inner step]
    rfl
  | some [item], [answer], [part], _, .cons first _ =>
    obtain ⟨inner, step, last⟩ := Outcome.bindOk.mp built
    cases last
    rw [nesting, first inner step]
    rfl
  | some (_ :: _ :: _), _ :: _ :: _, _, _, _ => cases built

theorem nestingOfTuple {elements : List TypeExpr} (aligned : answers.length = (items.getD []).length)
    (counts : Forall₂ Counts answers parts)
    (built : (settled name answers source items arguments stand).build (.tuple elements) = .ok type) :
    (TypeExpr.tuple elements).nesting (arguments.map height) parts levels = some type.height := by
  match items, aligned with
  | none, _ => cases built
  | some is, aligned =>
    simp only [build, settled, Option.map_some] at built
    split at built
    · obtain ⟨types, all, last⟩ := Outcome.bindOk.mp built
      cases last
      exact aroundOfTypes counts (answersOfResolveAll name aligned all)
    · cases built

theorem nestingOfVector {m : Type → Type} {site : Site m} {kind : CustomKind} {word : String}
    {outcome : Option ParamType} (vector : site.vectorElement? kind word = outcome) :
    (TypeExpr.custom kind word).nesting (site.arguments.map height) parts levels =
      outcome.elim (around parts) fun element => some (element.height + 1) := by
  obtain ⟨_, _, arguments, _⟩ := site
  subst vector
  cases kind with
  | enum => rfl
  | struct =>
    match arguments with
    | [] => rfl
    | [element] =>
      simp only [vectorElement?, nesting, List.map_cons, List.map_nil]
      split <;> rfl
    | _ :: _ :: _ => rfl

theorem nestingOfCustom {kind : CustomKind} {word : String}
    (aligned : answers.length = (items.getD []).length) (counts : Forall₂ Counts answers parts)
    (built : (settled name answers source items arguments stand).build (.custom kind word) = .ok type) :
    (TypeExpr.custom kind word).nesting (arguments.map height) parts levels = some type.height := by
  rw [build, custom] at built
  cases vector : (settled name answers source items arguments stand).vectorElement? kind word with
  | some element =>
    rw [vector] at built
    cases built
    exact nestingOfVector vector
  | none =>
    rw [vector] at built
    refine (nestingOfVector vector).trans ?_
    obtain _ | _ | ⟨first, rest⟩ := items
    · cases built
    · cases built
    · obtain _ | ⟨answer, others⟩ := answers
      · cases aligned
      · obtain ⟨types, all, last⟩ := Outcome.bindOk.mp built
        have every := aroundOfTypes counts (answersOfResolveAll name aligned all)
        cases kind <;> cases last <;> exact every

theorem nestingOfSettled {expr : TypeExpr} (aligned : answers.length = (items.getD []).length)
    (counts : Forall₂ Counts answers parts) (stands : ∀ word, Counts (stand word) (levels word))
    (built : (settled name answers source items arguments stand).build expr = .ok type) :
    expr.nesting (arguments.map height) parts levels = some type.height := by
  cases expr with
  | keyword word =>
    rw [build, liftExcept] at built
    rw [nesting, heightOfKeyword built]
  | str length =>
    cases built
    rfl
  | array element length => exact nestingOfArray aligned counts stands built
  | tuple elements => exact nestingOfTuple aligned counts built
  | custom kind word => exact nestingOfCustom aligned counts built
  | generic word => exact stands word type built

end Site

end WordAbi
