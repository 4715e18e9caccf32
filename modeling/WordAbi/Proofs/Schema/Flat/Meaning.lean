import WordAbi.Proofs.Schema.Flat.Writing
/-! Types that a resolver of declared types finds have the shape that is the meaning of the written-out
node, where ids of parameters and their names are one to one. What it remembers are keys of kinds that
are known to whatever has looked up all that the node needs. -/
namespace WordAbi.Declarations

open List (Forall₂)
open Outcome (pairOfMem)
open ParamType (shape shapes)
open Property (Kind rebound)

variable {table : Declarations} {templates : Int → Template} {bindings others : Bindings Int}
  {id : Int} {word source : String} {type : ParamType}

def standings (table : Declarations) (bindings : Bindings Int) : Standings :=
  fun word => (substitute table "" word bindings).toOption.map shape

theorem declaresUnique {d : TypeDeclaration} {other : String} (one : declares d word = true)
    (two : declares d other = true) : word = other := by
  unfold declares at one two
  split at one
  · rename_i text field
    rw [beq_iff_eq] at one
    simp only [field, one, beq_iff_eq] at two
    have same := congrArg String.toList two
    simp only [String.toList_append, List.append_cancel_left_eq] at same
    exact String.toList_inj.mp same
  · cases one

theorem substituteSource (found : substitute table source word bindings = .ok type) (other : String) :
    substitute table other word bindings = .ok type := by
  induction bindings with
  | nil => cases found
  | cons entry rest ih =>
    obtain ⟨id, bound⟩ := entry
    rw [substitute, Outcome.bindOk] at found ⊢
    obtain ⟨d, declared, found⟩ := found
    refine ⟨d, declared, ?_⟩
    split at found
    · rename_i named
      rw [if_pos named]
      exact found
    · rename_i named
      rw [if_neg named]
      exact ih found

theorem standingsOfSubstitute (found : substitute table source word bindings = .ok type) :
    standings table bindings word = some type.shape := by
  rw [standings, substituteSource found ""]
  rfl

variable [Host]

structure Parametric (table : Declarations) (bindings : Bindings Int) : Prop where
  once : (Table.keys bindings).Nodup
  named : ∀ id ∈ Table.keys bindings, ∃ word, Parameter table id word

theorem parametricEmpty : Parametric table [] := ⟨List.nodup_nil, fun _ absurd => nomatch absurd⟩

theorem boundOfParametric (parametric : Parametric table bindings) : Bound table bindings := by
  refine ⟨parametric.once, fun id member => ?_⟩
  obtain ⟨_, d, node, _⟩ := parametric.named id member
  exact ⟨d, node.found⟩

theorem parameterUnique {other : String} (one : Parameter table id word) (two : Parameter table id other) :
    word = other := by
  obtain ⟨d, node, _⟩ := one
  obtain ⟨e, nodeToo, _⟩ := two
  exact TypeExpr.generic.inj (nodeUnique node nodeToo).2

theorem parameterInjective (unambiguous : Unambiguous table) {other : Int}
    (one : Parameter table id word) (two : Parameter table other word) : id = other := by
  obtain ⟨d, node, named⟩ := one
  obtain ⟨e, nodeToo, namedToo⟩ := two
  exact unambiguous node.found nodeToo.found named namedToo

theorem standingsOfNone (parametric : Parametric table bindings)
    (none : ∀ id, ¬ Parameter table id word) : standings table bindings word = .none := by
  cases found : substitute table "" word bindings with
  | error fault =>
    rw [standings, found]
    rfl
  | ok type =>
    obtain ⟨id, d, member, declared, named⟩ := substituteOk found
    obtain ⟨other, e, node, namedToo⟩ := parametric.named id (List.mem_map.mpr ⟨_, member, rfl⟩)
    obtain rfl := Except.ok.inj (declared.symm.trans node.found)
    obtain rfl := declaresUnique named namedToo
    exact absurd ⟨d, node, named⟩ (none id)

theorem standingsOfParameter (unambiguous : Unambiguous table) (parametric : Parametric table bindings)
    (parameter : Parameter table id word) : standings table bindings word = bindings.shapes id := by
  obtain ⟨d, node, named⟩ := parameter
  cases stands : Table.get? bindings id with
  | some type =>
    have found := @substituteOfMem _ _ _ "" _ unambiguous (boundOfParametric parametric) _ _
      (Table.memOfGet stands) node.found named
    rw [standingsOfSubstitute found, Bindings.shapes, stands, Option.map_some]
  | none =>
    rw [Bindings.shapes, stands, Option.map_none, standings]
    cases found : substitute table "" word bindings with
    | error fault => rfl
    | ok type =>
      obtain ⟨other, e, member, declared, namedToo⟩ := substituteOk found
      obtain rfl := unambiguous node.found declared named namedToo
      rw [Table.getOfMem parametric.once member] at stands
      cases stands

theorem standingsAlike (unambiguous : Unambiguous table) (parametric : Parametric table bindings)
    (parametricToo : Parametric table others) (alike : bindings.Alike others) :
    standings table bindings = standings table others := by
  funext word
  by_cases some : ∃ id, Parameter table id word
  · obtain ⟨id, parameter⟩ := some
    rw [standingsOfParameter unambiguous parametric parameter,
      standingsOfParameter unambiguous parametricToo parameter]
    exact alike id
  · have none : ∀ id, ¬ Parameter table id word := fun id parameter => some ⟨id, parameter⟩
    rw [standingsOfNone parametric none, standingsOfNone parametricToo none]

theorem parametricExtend (parametric : Parametric table bindings) {ids : List Int} {names : List String}
    (parameters : Forall₂ (Parameter table) ids names) (types : List ParamType) :
    Parametric table (bindings.extend ids types) := by
  refine ⟨Bindings.nodupExtend parametric.once, fun id member => ?_⟩
  rcases Bindings.keysExtend member with here | new
  · exact parametric.named id here
  · obtain ⟨word, _, parameter⟩ := pairOfMem parameters id new
    exact ⟨word, parameter⟩

theorem shapesRenamed (unambiguous : Unambiguous table) (parameter : Parameter table id word)
    {ids : List Int} {names : List String} (parameters : Forall₂ (Parameter table) ids names)
    (types : List ParamType) {one : Bindings Int} {two : Bindings String}
    (same : one.shapes id = two.shapes word) :
    (one.extend ids types).shapes id = (two.extend names types).shapes word := by
  induction parameters generalizing types one two with
  | nil => exact same
  | @cons other name ids names first _ ih =>
    cases types with
    | nil => exact same
    | cons type types =>
      refine @ih types (Table.insert one other type) (Table.insert two name type) ?_
      have sameKey : other = id ↔ name = word := by
        constructor
        · rintro rfl
          exact parameterUnique first parameter
        · rintro rfl
          exact parameterInjective unambiguous first parameter
      simp only [Bindings.shapes, Table.getInsert, sameKey]
      split
      · rfl
      · exact same

theorem standingsExtend (unambiguous : Unambiguous table) (parametric : Parametric table bindings)
    {ids : List Int} {names : List String} (parameters : Forall₂ (Parameter table) ids names)
    (types : List ParamType) :
    standings table (bindings.extend ids types) =
      rebound (standings table bindings) names (shapes types) := by
  have inner := parametricExtend parametric parameters types
  have own : (Bindings.extend [] names types).Alike (Bindings.extend [] names (shapes types)) :=
    Bindings.alikeExtend names (fun _ => rfl) (ParamType.alikeShapes types)
  funext word
  by_cases some : ∃ id, Parameter table id word
  · obtain ⟨id, parameter⟩ := some
    have renamed : Bindings.shapes (Bindings.extend [] ids types) id =
        Bindings.shapes (Bindings.extend [] names types) word :=
      shapesRenamed unambiguous parameter parameters types rfl
    rw [standingsOfParameter unambiguous inner parameter, Bindings.shapesGetExtend, renamed, rebound,
      standingsOfParameter unambiguous parametric parameter]
    exact congrArg (Option.or · _) (own word)
  · have none : ∀ id, ¬ Parameter table id word := fun id parameter => some ⟨id, parameter⟩
    have new : (Bindings.extend [] names (shapes types)).shapes word = .none := by
      rw [Bindings.shapes, Option.map_eq_none_iff, Table.getNone]
      intro member
      rcases Bindings.keysExtend member with absurd | here
      · cases absurd
      · obtain ⟨id, _, parameter⟩ := pairOfMem parameters.flip word here
        exact none id parameter
    rw [standingsOfNone inner none, rebound, new, standingsOfNone parametric none]
    rfl

def Key.kind (table : Declarations) (templates : Int → Template) (key : Key) : Kind :=
  ⟨(templates key.typeId).typeField.display, (templates key.typeId).components,
    (templates key.typeId).typeParameters, shapes key.arguments, standings table key.bindings⟩

theorem kindOwnKey (expanded : Expanded table templates) (parametric : Parametric table bindings)
    {d : TypeDeclaration} (found : find table id = .ok d) (types : List ParamType) :
    (ownKey d types bindings).kind table templates =
      Property.ownKind (templates id).typeField.display (templates id).components
        (templates id).typeParameters types (standings table bindings) := by
  obtain rfl := expanded.indexed id d found
  rw [Key.kind, ownKey, Property.ownKind, standingsExtend expanded.expandable.unambiguous parametric
    (expanded.fit _ d found).typeParameters types]

theorem kindSame (unambiguous : Unambiguous table) {key other : Key}
    (parametric : Parametric table key.bindings) (parametricToo : Parametric table other.bindings)
    (same : key.same other = true) : key.kind table templates = other.kind table templates := by
  simp only [Key.same, Bool.and_eq_true, beq_iff_eq] at same
  obtain ⟨⟨id, arguments⟩, bindings⟩ := same
  have alike := Bindings.shapesOfSame bindings parametric.once
  rw [Key.kind, Key.kind, id, (ParamType.sameListIff _ _).mp arguments,
    standingsAlike unambiguous parametric parametricToo alike]

theorem templateReads (expanded : Expanded table templates) {d : TypeDeclaration} {expr : TypeExpr}
    (node : Node table id d expr) : TypeExpr.ofDatum (templates id).typeField = .ok expr := by
  rw [(expanded.fit id d node.found).typeField]
  exact node.reads

theorem standingsOfBound (expanded : Expanded table templates) (parametric : Parametric table bindings)
    {d : TypeDeclaration} (node : Node table id d (.generic word))
    (bound : Table.get? bindings id = some type) : standings table bindings word = some type.shape := by
  obtain ⟨other, e, nodeToo, named⟩ := parametric.named id (List.mem_map.mpr ⟨_, Table.memOfGet bound, rfl⟩)
  obtain ⟨_, same⟩ := nodeUnique node nodeToo
  cases same
  have parameter : Parameter table id word := ⟨e, nodeToo, named⟩
  rw [standingsOfParameter expanded.expandable.unambiguous parametric parameter, Bindings.shapes, bound,
    Option.map_some]

def Denotes (table : Declarations) (templates : Int → Template) (a : TypeApplication)
    (bindings : Bindings Int) (type : ParamType) : Prop :=
  Parametric table bindings → ∀ p, Writes table templates a p → p.Means (standings table bindings) type

theorem denotesEach {applied : List TypeApplication} {ps : List Property} {types : List ParamType}
    (parametric : Parametric table bindings)
    (each : Forall₂ (fun a => Denotes table templates a bindings) applied types)
    (written : Forall₂ (Writes table templates) applied ps) :
    Forall₂ (fun p => p.Means (standings table bindings)) ps types := by
  induction each generalizing ps with
  | nil =>
    cases written
    exact .nil
  | cons first _ ih =>
    cases written with
    | cons here rest => exact .cons (first parametric _ here) (ih rest)

theorem meaningOfSettles (expanded : Expanded table templates) {key : Key} {d : TypeDeclaration}
    {expr : TypeExpr} (parametric : Parametric table key.bindings) (node : Node table key.typeId d expr)
    (settles : key.Settles table (Denotes table templates) d expr type) :
    (key.kind table templates).meaning = some type.shape := by
  have fits := expanded.fit key.typeId d node.found
  have reads := Property.readsText (templateReads expanded node)
  have components : Forall₂ (fun c p => ∀ type, Denotes table templates c key.bindings type →
      p.Means (standings table key.bindings) type) (d.components.getD [])
      ((templates key.typeId).components.getD []) :=
    (writtenEach fits.components).imp fun c p writes type means => means parametric p writes
  have whole := Property.assembledOfSettles (namesOfWritten fits.components) components
    (fun word type found => standingsOfSubstitute found) settles
  rw [← fits.typeField] at whole
  rw [Kind.meaning, Key.kind, reads]
  exact whole

theorem denotesOfOwn (expanded : Expanded table templates) {name : String}
    {applied : List TypeApplication} {d : TypeDeclaration} {expr : TypeExpr} {types : List ParamType}
    (node : Node table id d expr) (plain : expr.Plain)
    (each : Forall₂ (fun a => Denotes table templates a bindings) applied types)
    (own : ((ownKey d types bindings).kind table templates).meaning = some type.shape) :
    Denotes table templates (.mk name id applied) bindings type := by
  intro parametric p writes
  obtain ⟨as, rfl, arguments⟩ := writesOwn writes
  rw [Property.Means, Property.meaningOfPlain (templateReads expanded node) plain
    (denotesEach parametric each arguments), ← kindOwnKey expanded parametric node.found]
  exact own

def writtenAccount (expanded : Expanded table templates) (known : Kind → Prop)
    (closed : Property.Closed known) : Account table where
  allows a bindings := Parametric table bindings ∧
    ∃ p, Writes table templates a p ∧ Property.Complete known p (standings table bindings)
  of := Denotes table templates
  meets key := Parametric table key.bindings ∧ known (key.kind table templates)
  found key type := (key.kind table templates).meaning = some type.shape
  bound := by
    intro name id applied d word bindings type node found parametric p writes
    obtain ⟨as, rfl, _⟩ := writesOwn writes
    rw [Property.Means, Property.meaning, templateReads expanded node]
    exact standingsOfBound expanded parametric node found
  argument := by
    intro name id applied d expr bindings allowed node plain a member
    obtain ⟨parametric, p, writes, complete⟩ := allowed
    obtain ⟨as, rfl, arguments⟩ := writesOwn writes
    obtain ⟨q, there, written⟩ := pairOfMem arguments a member
    refine ⟨parametric, q, written, fun kind needs => complete kind ?_⟩
    exact .argument (templateReads expanded node) plain there needs
  applied := by
    intro name id applied d expr types bindings allowed node plain each arity
    obtain ⟨parametric, p, writes, complete⟩ := allowed
    obtain ⟨as, rfl, arguments⟩ := writesOwn writes
    have inner := parametricExtend parametric (expanded.fit id d node.found).typeParameters types
    refine ⟨⟨inner, ?_⟩, fun type own => denotesOfOwn expanded node plain each own⟩
    rw [kindOwnKey expanded parametric node.found]
    exact complete _ (.own (templateReads expanded node) plain (denotesEach parametric each arguments))
  component := by
    intro d expr key meets node asked c member
    obtain ⟨parametric, isKnown⟩ := meets
    obtain ⟨p, there, written⟩ := pairOfMem (writtenEach (expanded.fit _ d node.found).components) c member
    refine ⟨parametric, p, written, ?_⟩
    have reads := Property.readsText (templateReads expanded node)
    exact closed _ isKnown expr reads ((Site.asksShapes key.arguments expr).trans asked) p there
  settled meets node _ settles := meaningOfSettles expanded meets.1 node settles
  shared meets meetsToo found same := by
    rw [← kindSame expanded.expandable.unambiguous meets.1 meetsToo.1 same]
    exact found

end WordAbi.Declarations
