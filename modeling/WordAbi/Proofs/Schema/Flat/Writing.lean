import Mathlib.Data.Fintype.Card
import Mathlib.Data.Fintype.EquivFin
import WordAbi.Proofs.Schema.Flat.Parameters
import WordAbi.Proofs.Schema.Inline.Kind
/-! Declared types written out as inline nodes: for every id what the declaration says, with its own
components written out and with the names of its parameters. Where references come to an end, there is a
way to write them out. -/
namespace WordAbi.Declarations

open List (Forall₂)

structure Template where
  typeField : Datum
  components : Option (List Property)
  typeParameters : Option (List String)

variable {table : Declarations} {templates : Int → Template}

/-- The node is the application with the templates of its ids. No arguments may be written as none. -/
inductive Writes (table : Declarations) (templates : Int → Template) : TypeApplication → Property → Prop
  | mk {name id applied d as} (found : find table id = .ok d)
      (arguments : Forall₂ (Writes table templates) applied (as.getD [])) :
      Writes table templates (.mk name id applied)
        (.mk name (templates id).typeField (templates id).components as (templates id).typeParameters)

mutual

def mentioned : TypeApplication → List Int
  | .mk _ id applied => id :: allMentioned applied

def allMentioned : List TypeApplication → List Int
  | [] => []
  | a :: as => mentioned a ++ allMentioned as

end

def Refers (table : Declarations) (id other : Int) : Prop :=
  ∃ d, find table id = .ok d ∧ other ∈ allMentioned (d.components.getD [])

theorem acyclicOfLess (less : ∀ id other, Refers table id other → other < id) (id : Int) :
    ¬ Relation.TransGen (Refers table) id id := by
  have lower : ∀ other, Relation.TransGen (Refers table) id other → other < id := by
    intro other path
    induction path with
    | single refers => exact less _ _ refers
    | tail _ refers ih => exact Int.lt_trans (less _ _ refers) ih
  exact fun cycle => Int.lt_irrefl id (lower id cycle)

theorem writesMk {a : TypeApplication} {name : String} {typeField : Datum} {cs as : Option (List Property)}
    {ps : Option (List String)} (writes : Writes table templates a (.mk name typeField cs as ps)) :
    ∃ id applied d, a = .mk name id applied ∧ find table id = .ok d ∧
      typeField = (templates id).typeField ∧ cs = (templates id).components ∧
      ps = (templates id).typeParameters ∧ Forall₂ (Writes table templates) applied (as.getD []) := by
  cases writes with
  | mk found arguments => exact ⟨_, _, _, rfl, found, rfl, rfl, rfl, arguments⟩

theorem writesOwn {name : String} {id : Int} {applied : List TypeApplication} {p : Property}
    (writes : Writes table templates (.mk name id applied) p) :
    ∃ as, p = .mk name (templates id).typeField (templates id).components as (templates id).typeParameters ∧
      Forall₂ (Writes table templates) applied (as.getD []) := by
  cases writes with
  | mk found arguments => exact ⟨_, rfl, arguments⟩

theorem writesName {a : TypeApplication} {p : Property} (writes : Writes table templates a p) :
    a.name = p.name := by
  cases writes
  rfl

theorem namesOfWritten {cs : Option (List TypeApplication)} {ps : Option (List Property)}
    (written : Option.Rel (Forall₂ (Writes table templates)) cs ps) :
    cs.map (·.map TypeApplication.name) = ps.map (·.map Property.name) := by
  cases written with
  | none => rfl
  | some each =>
    rw [Option.map_some, Option.map_some]
    congr 1
    induction each with
    | nil => rfl
    | cons first _ ih => rw [List.map_cons, List.map_cons, writesName first, ih]

theorem writtenEach {cs : Option (List TypeApplication)} {ps : Option (List Property)}
    (written : Option.Rel (Forall₂ (Writes table templates)) cs ps) :
    Forall₂ (Writes table templates) (cs.getD []) (ps.getD []) := by
  cases written with
  | none => exact .nil
  | some each => exact each

mutual

def write (templates : Int → Template) : TypeApplication → Property
  | .mk name id applied =>
    .mk name (templates id).typeField (templates id).components (some (writeAll templates applied))
      (templates id).typeParameters

def writeAll (templates : Int → Template) : List TypeApplication → List Property
  | [] => []
  | a :: as => write templates a :: writeAll templates as

end

mutual

theorem writesWrite {known : Int → Template} : (a : TypeApplication) →
    (∀ id ∈ mentioned a, (∃ d, find table id = .ok d) ∧ known id = templates id) →
    Writes table templates a (write known a)
  | .mk name id applied, each => by
    obtain ⟨⟨⟨d, found⟩, same⟩, arguments⟩ := List.forall_mem_cons.mp each
    rw [write, same]
    exact .mk found (writesWriteAll applied arguments)

theorem writesWriteAll {known : Int → Template} : (as : List TypeApplication) →
    (∀ id ∈ allMentioned as, (∃ d, find table id = .ok d) ∧ known id = templates id) →
    Forall₂ (Writes table templates) as (writeAll known as)
  | [], _ => .nil
  | a :: as, each => by
    obtain ⟨first, rest⟩ := List.forall_mem_append.mp each
    exact .cons (writesWrite a first) (writesWriteAll as rest)

end

variable [Host]

def Parameter (table : Declarations) (id : Int) (word : String) : Prop :=
  ∃ d, Node table id d (.generic word) ∧ declares d word = true

structure Fits (table : Declarations) (templates : Int → Template) (d : TypeDeclaration)
    (template : Template) : Prop where
  typeField : template.typeField = d.typeField
  components : Option.Rel (Forall₂ (Writes table templates)) d.components template.components
  typeParameters : Forall₂ (Parameter table) d.typeParameters (template.typeParameters.getD [])

def AllFit (table : Declarations) (templates : Int → Template) : Prop :=
  ∀ id d, find table id = .ok d → Fits table templates d (templates id)

def WrittenOut (table : Declarations) (a : TypeApplication) (p : Property) : Prop :=
  ∃ templates, AllFit table templates ∧ Writes table templates a p

structure Expandable (table : Declarations) : Prop where
  texts : ∀ id d, find table id = .ok d → ∃ text, d.typeField = .str text
  referred : ∀ id other, Refers table id other → ∃ d, find table other = .ok d
  acyclic : ∀ id, ¬ Relation.TransGen (Refers table) id id
  parameters : ∀ id d, find table id = .ok d → ∀ parameter ∈ d.typeParameters,
    ∃ word, Parameter table parameter word
  unambiguous : Unambiguous table

structure Expanded (table : Declarations) (templates : Int → Template) : Prop where
  indexed : Indexed table
  expandable : Expandable table
  fit : AllFit table templates

mutual

theorem textualOfWrites (expanded : Expanded table templates) :
    (p : Property) → ∀ {a}, Writes table templates a p → p.Textual
  | .mk _ _ cs as _, _, writes => by
    obtain ⟨id, applied, d, _, found, rfl, components, _, arguments⟩ := writesMk writes
    obtain ⟨text, isText⟩ := expanded.expandable.texts id d found
    have fits := expanded.fit id d found
    have inner : Forall₂ (Writes table templates) (d.components.getD []) (cs.getD []) := by
      rw [components]
      exact writtenEach fits.components
    exact ⟨⟨text, fits.typeField.trans isText⟩, optionTextualOfWrites expanded cs inner,
      optionTextualOfWrites expanded as arguments⟩

theorem optionTextualOfWrites (expanded : Expanded table templates) :
    (ps : Option (List Property)) → ∀ {as}, Forall₂ (Writes table templates) as (ps.getD []) →
      Property.OptionTextual ps
  | none, _, _ => trivial
  | some ps, _, each => allTextualOfWrites expanded ps each

theorem allTextualOfWrites (expanded : Expanded table templates) :
    (ps : List Property) → ∀ {as}, Forall₂ (Writes table templates) as ps → Property.AllTextual ps
  | [], _, _ => trivial
  | p :: ps, _, .cons first rest =>
    ⟨textualOfWrites expanded p first, allTextualOfWrites expanded ps rest⟩

end

theorem refersWellFounded (expandable : Expandable table) :
    WellFounded fun other id => Refers table id other := by
  -- what is referred to is declared, and only finitely many ids are
  let below (other id : { id // id ∈ Table.keys table }) : Prop :=
    Relation.TransGen (Refers table) id.1 other.1
  have : IsTrans _ below := ⟨fun _ _ _ one two => two.trans one⟩
  have : Std.Irrefl below := ⟨fun id => expandable.acyclic id.1⟩
  have finite : WellFounded below := Finite.wellFounded_of_trans_of_irrefl below
  have declared : ∀ {id other}, Refers table id other → other ∈ Table.keys table := by
    intro id other refers
    obtain ⟨d, found⟩ := expandable.referred id other refers
    by_contra absent
    rw [find, Table.getNone.mpr absent] at found
    cases found
  have accessible : ∀ id : { id // id ∈ Table.keys table }, Acc (fun other id => Refers table id other) id.1 := by
    intro id
    induction id using finite.induction with
    | h id ih => exact .intro _ fun other refers => ih ⟨other, declared refers⟩ (.single refers)
  exact ⟨fun id => .intro id fun other refers => accessible ⟨other, declared refers⟩⟩

def template (table : Declarations) (named : Int → String) (id : Int) (deeper : Int → Template) : Template :=
  match find table id with
  | .error _ => ⟨.null, none, none⟩
  | .ok d => ⟨d.typeField, d.components.map (writeAll deeper), some (d.typeParameters.map named)⟩

theorem fitsTemplate (expandable : Expandable table) {named : Int → String}
    (names : ∀ {id word}, Parameter table id word → Parameter table id (named id)) {id : Int}
    {d : TypeDeclaration} (found : find table id = .ok d) {deeper : Int → Template}
    (same : ∀ other, Refers table id other → deeper other = templates other) :
    Fits table templates d (template table named id deeper) := by
  rw [template, found]
  refine ⟨rfl, ?_, ?_⟩
  · have each : Forall₂ (Writes table templates) (d.components.getD [])
        (writeAll deeper (d.components.getD [])) := by
      refine writesWriteAll _ fun other mentions => ?_
      have refers : Refers table id other := ⟨d, found, mentions⟩
      exact ⟨expandable.referred id other refers, same other refers⟩
    change Option.Rel _ d.components (d.components.map (writeAll deeper))
    cases components : d.components with
    | none => exact .none
    | some cs =>
      rw [components] at each
      exact .some each
  · refine List.forall₂_map_right_iff.mpr (List.forall₂_same.mpr fun parameter member => ?_)
    obtain ⟨word, isParameter⟩ := expandable.parameters id d found parameter member
    exact names isParameter

open Classical in
/-- The templates of all ids, from the ids that refer to no other upwards. -/
noncomputable def templatesOf (wellFounded : WellFounded fun other id => Refers table id other)
    (named : Int → String) : Int → Template :=
  wellFounded.fix fun id deeper => template table named id fun other =>
    if refers : Refers table id other then deeper other refers else ⟨.null, none, none⟩

theorem allFitExists (expandable : Expandable table) : ∃ templates, AllFit table templates := by
  have named : ∀ id, ∃ name, ∀ word, Parameter table id word → Parameter table id name := by
    intro id
    by_cases some : ∃ word, Parameter table id word
    · exact ⟨some.choose, fun _ _ => some.choose_spec⟩
    · exact ⟨"", fun word isParameter => absurd ⟨word, isParameter⟩ some⟩
  choose named names using named
  refine ⟨templatesOf (refersWellFounded expandable) named, fun id d found => ?_⟩
  rw [templatesOf, WellFounded.fix_eq]
  exact fitsTemplate expandable (fun isParameter => names _ _ isParameter) found
    fun other refers => dif_pos refers

end WordAbi.Declarations
