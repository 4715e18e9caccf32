import WordAbi.Proofs.Schema.Inline.Meaning
/-! Kinds of keys: nodes whose types are texts are looked up by what is written, and by the shapes of the
types that they are applied to. All that is known for a kind has the meaning of the kind. -/
namespace WordAbi

open List (Forall₂)
open ParamType (shape shapes Alike)

namespace Bindings

variable {κ : Type} [DecidableEq κ] {bindings others : Bindings κ}

theorem sameOfShapes (nodup : (Table.keys bindings).Nodup) (nodupToo : (Table.keys others).Nodup)
    (alike : bindings.shapes = others.shapes) : bindings.same others = true := by
  have found : ∀ {one two : Bindings κ}, (Table.keys one).Nodup → one.shapes = two.shapes →
      ∀ key type, (key, type) ∈ one → ∃ twin, Table.get? two key = some twin ∧ type.same twin = true := by
    intro one two nodup alike key type member
    obtain ⟨twin, there, same⟩ := alikeFound (fun key => congrFun alike key) (Table.getOfMem nodup member)
    exact ⟨twin, there, (ParamType.sameIff type twin).mpr same⟩
  have inside : ∀ {one two : Bindings κ}, (Table.keys one).Nodup → one.shapes = two.shapes →
      Table.keys one ⊆ Table.keys two := by
    intro one two nodup alike key member
    obtain ⟨⟨_, type⟩, here, rfl⟩ := List.mem_map.mp member
    obtain ⟨twin, there, _⟩ := found nodup alike _ type here
    exact List.mem_map.mpr ⟨_, Table.memOfGet there, rfl⟩
  have length : bindings.length = others.length := by
    have one := (List.subperm_of_subset nodup (inside nodup alike)).length_le
    have two := (List.subperm_of_subset nodupToo (inside nodupToo alike.symm)).length_le
    simp only [Table.keys, List.length_map] at one two
    exact Nat.le_antisymm one two
  simp only [Bindings.same, length, BEq.rfl, Bool.true_and, List.all_eq_true]
  rintro ⟨key, type⟩ member
  obtain ⟨twin, there, same⟩ := found nodup alike key type member
  simp only [there, Option.any_some, same]

theorem sameIffShapes (nodup : (Table.keys bindings).Nodup) (nodupToo : (Table.keys others).Nodup) :
    bindings.same others = true ↔ bindings.shapes = others.shapes :=
  ⟨fun same => funext (shapesOfSame same nodup), sameOfShapes nodup nodupToo⟩

end Bindings

namespace Property

mutual

def Textual : Property → Prop
  | mk _ typeField components typeArguments _ =>
    (∃ text, typeField = .str text) ∧ OptionTextual components ∧ OptionTextual typeArguments

def OptionTextual : Option (List Property) → Prop
  | none => True
  | some ps => AllTextual ps

def AllTextual : List Property → Prop
  | [] => True
  | p :: ps => Textual p ∧ AllTextual ps

end

theorem textualOfMem {ps : List Property} (textual : AllTextual ps) : ∀ p ∈ ps, p.Textual := by
  induction ps with
  | nil => exact fun _ absurd => nomatch absurd
  | cons p ps ih => exact List.forall_mem_cons.mpr ⟨textual.1, ih textual.2⟩

theorem textualOfMemOption {ps : Option (List Property)} (textual : OptionTextual ps) :
    ∀ p ∈ ps.getD [], p.Textual := by
  cases ps with
  | none => exact fun _ absurd => nomatch absurd
  | some ps => exact textualOfMem textual

mutual

theorem sameTextual : (p q : Property) → p.Textual → (p.same q = true ↔ p = q)
  | mk n t cs as ps, mk m u ds bs qs, textual => by
    obtain ⟨⟨text, rfl⟩, components, arguments⟩ := textual
    simp only [same, Bool.and_eq_true, beq_iff_eq, optionSameTextual cs ds components,
      optionSameTextual as bs arguments, mk.injEq, and_assoc]
    refine and_congr_right fun _ => and_congr_left fun _ => ?_
    cases u with
    | str other => simp [Datum.same, Native.same]
    | _ => simp [Datum.same, Native.same]

theorem optionSameTextual : (ps qs : Option (List Property)) → OptionTextual ps →
    (sameOption ps qs = true ↔ ps = qs)
  | none, none, _ => by simp [sameOption]
  | none, some _, _ => by simp [sameOption]
  | some _, none, _ => by simp [sameOption]
  | some ps, some qs, textual => by
    simp only [sameOption, sameListTextual ps qs textual, Option.some.injEq]

theorem sameListTextual : (ps qs : List Property) → AllTextual ps → (sameList ps qs = true ↔ ps = qs)
  | [], [], _ => by simp [sameList]
  | [], _ :: _, _ => by simp [sameList]
  | _ :: _, [], _ => by simp [sameList]
  | p :: ps, q :: qs, textual => by
    simp only [sameList, Bool.and_eq_true, sameTextual p q textual.1, sameListTextual ps qs textual.2,
      List.cons.injEq]

end

mutual

theorem hasKeyOfTextual : (p : Property) → p.Textual → p.hasKey = true
  | mk _ _ cs as _, textual => by
    obtain ⟨⟨text, rfl⟩, components, arguments⟩ := textual
    simp only [hasKey, isKey, optionHasKeyOfTextual cs components, optionHasKeyOfTextual as arguments,
      Bool.and_self]

theorem optionHasKeyOfTextual : (ps : Option (List Property)) → OptionTextual ps →
    optionHasKey ps = true
  | none, _ => rfl
  | some ps, textual => allHaveKeysOfTextual ps textual

theorem allHaveKeysOfTextual : (ps : List Property) → AllTextual ps → allHaveKeys ps = true
  | [], _ => rfl
  | p :: ps, textual => by
    simp only [allHaveKeys, hasKeyOfTextual p textual.1, allHaveKeysOfTextual ps textual.2, Bool.and_self]

end

structure Key.Told (key : Key) : Prop where
  once : (Table.keys key.bindings).Nodup
  textual : OptionTextual key.components

theorem sameIffKind {key other : Key} (told : key.Told) (toldToo : other.Told) :
    key.same other = true ↔ key.kind = other.kind := by
  simp only [Key.same, Key.kind, Kind.mk.injEq, Bool.and_eq_true, beq_iff_eq, and_assoc,
    optionSameTextual _ _ told.textual, ParamType.sameListIff, Bindings.sameIffShapes told.once toldToo.once]

theorem alikeOfKind {key other : Key} (same : key.kind = other.kind) :
    key.source = other.source ∧ key.components = other.components ∧
      Forall₂ Alike key.arguments other.arguments ∧ key.bindings.shapes = other.bindings.shapes := by
  simp only [Key.kind, Kind.mk.injEq] at same
  obtain ⟨source, components, _, arguments, bindings⟩ := same
  exact ⟨source, components, ParamType.alikeOfShapes arguments, bindings⟩

theorem standingAlike {bindings others : Bindings String} (alike : bindings.shapes = others.shapes)
    (source other word : String) :
    Site.Follows (standing source bindings word) (standing other others word) := by
  intro type found
  unfold standing at found
  split at found
  · rename_i bound
    cases found
    obtain ⟨twin, there, same⟩ := Bindings.alikeFound (fun key => congrFun alike key) bound
    exact ⟨twin, by rw [standing, there], same⟩
  · cases found

variable [Host]

def meaningAccount : Account where
  allows p bindings := p.Textual ∧ (Table.keys bindings).Nodup
  of p bindings type := p.Means bindings.shapes type
  meets key := key.Told
  found key type := key.kind.meaning = some type.shape
  bound reads found := meansOfGeneric reads found
  argument := by
    intro name typeField cs as ps expr bindings allowed _ _ a member
    obtain ⟨⟨_, _, arguments⟩, once⟩ := allowed
    exact ⟨textualOfMemOption arguments a member, once⟩
  applied := by
    intro name typeField cs as ps expr types bindings allowed reads plain each _ _
    obtain ⟨⟨_, components, _⟩, once⟩ := allowed
    refine ⟨⟨Bindings.nodupExtend once, components⟩, fun type found => ?_⟩
    rw [Means, meaningOfPlain reads plain each, ← kindOwnKey]
    exact found
  component := by
    intro key expr told _ _ c member
    exact ⟨textualOfMemOption told.textual c member, told.once⟩
  settled := by
    intro key expr type _ reads _ settles
    have stands : ∀ word type, standing key.source key.bindings word = .ok type →
        key.bindings.shapes word = some type.shape := by
      intro word type found
      unfold standing at found
      split at found
      · rename_i bound
        cases found
        rw [Bindings.shapes, bound, Option.map_some]
      · cases found
    have whole := assembledOfSettles rfl (List.forall₂_same.mpr fun _ _ _ means => means) stands settles
    rw [Kind.meaning, Key.kind, reads]
    exact whole
  shared told toldToo found same := by
    rw [← (sameIffKind told toldToo).mp same]
    exact found

/-- What is looked up for a node before any of its components: its own kind and those of its arguments. -/
inductive Needs : Property → Standings → Kind → Prop
  | own {name typeField cs as ps expr types standings} (reads : TypeExpr.ofDatum typeField = .ok expr)
      (plain : expr.Plain) (each : Forall₂ (fun a => a.Means standings) (as.getD []) types) :
      Needs (mk name typeField cs as ps) standings (ownKind typeField.display cs ps types standings)
  | argument {name typeField cs as ps expr a standings kind}
      (reads : TypeExpr.ofDatum typeField = .ok expr) (plain : expr.Plain) (member : a ∈ as.getD [])
      (needs : Needs a standings kind) : Needs (mk name typeField cs as ps) standings kind

def Complete (known : Kind → Prop) (p : Property) (standings : Standings) : Prop :=
  ∀ kind, Needs p standings kind → known kind

def Closed (known : Kind → Prop) : Prop :=
  ∀ kind, known kind → ∀ expr, TypeExpr.ofText kind.source = .ok expr →
    Site.asks kind.arguments expr = true → ∀ c ∈ kind.components.getD [], Complete known c kind.standings

theorem completeMono {known more : Kind → Prop} (le : ∀ kind, known kind → more kind) {p : Property}
    {standings : Standings} (complete : Complete known p standings) : Complete more p standings :=
  fun kind needs => le kind (complete kind needs)

section

variable {known : Kind → Prop} {name : String} {typeField : Datum} {cs as : Option (List Property)}
  {ps : Option (List String)} {standings : Standings} {expr : TypeExpr} {types : List ParamType}

theorem completeGeneric {word : String} (reads : TypeExpr.ofDatum typeField = .ok (.generic word)) :
    Complete known (mk name typeField cs as ps) standings := by
  intro kind needs
  cases needs with
  | own readsToo plain _ =>
    cases reads.symm.trans readsToo
    exact absurd rfl (plain word)
  | argument readsToo plain _ _ =>
    cases reads.symm.trans readsToo
    exact absurd rfl (plain word)

theorem completeOfOwn (each : Forall₂ (fun a => a.Means standings) (as.getD []) types)
    (own : known (ownKind typeField.display cs ps types standings))
    (arguments : ∀ a ∈ as.getD [], Complete known a standings) :
    Complete known (mk name typeField cs as ps) standings := by
  intro kind needs
  cases needs with
  | own _ _ eachToo =>
    have same := Option.some.inj ((meaningsOfMeans each).symm.trans (meaningsOfMeans eachToo))
    rw [ownKind, ← same]
    exact own
  | argument _ _ member needs => exact arguments _ member kind needs

end

end Property

namespace Memory

open Property (Kind)

variable [Host]

def Knows (memory : Memory Property.Key) (kind : Kind) : Prop :=
  ∃ key type, (key, type) ∈ memory.known ∧ key.kind = kind

theorem knowsIff {memory : Memory Property.Key} (keeps : memory.Keeps Property.meaningAccount.known)
    {key : Property.Key} (told : key.Told) :
    memory.Knows key.kind ↔ ∃ type, memory.find? Property.Key.same key = some type := by
  constructor
  · rintro ⟨other, type, member, same⟩
    have toldToo := (keeps other type member).1
    have alike := (Property.sameIffKind toldToo told).mpr same
    rw [← Option.isSome_iff_exists, find?, Option.isSome_map, List.find?_isSome]
    exact ⟨_, member, alike⟩
  · rintro ⟨type, found⟩
    obtain ⟨other, member, same⟩ := memOfFind found
    exact ⟨other, type, member, (Property.sameIffKind (keeps other type member).1 told).mp same⟩

end Memory

end WordAbi
