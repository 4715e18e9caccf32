import WordAbi.Proofs.Schema.Inline.Account
import WordAbi.Proofs.Schema.Nesting
/-! Types of inline nodes nest as deeply as the nodes are written, whatever a resolver remembers. -/
namespace WordAbi.Property

open List (Forall₂)
open ParamType (height)

def allCounted : List (Option Nat) → Option (List Nat)
  | [] => some []
  | count :: counts => do
    let n ← count
    let ns ← allCounted counts
    some (n :: ns)

theorem textOfSame {t u : Datum} (same : t.same u = true) : t = u ∨ ∀ text, t ≠ .str text ∧ u ≠ .str text := by
  cases t with
  | str text =>
    cases u with
    | str other =>
      simp only [Datum.same, Native.same, beq_iff_eq] at same
      exact .inl (congrArg _ same)
    | _ => cases same
  | _ =>
    refine .inr fun text => ⟨?_, ?_⟩
    · intro equal
      cases equal
    · rintro rfl
      cases same

theorem standsOfStanding {source word : String} {bindings : Bindings String} :
    Site.Counts (standing source bindings word) (bindings.levels word) := by
  intro type found
  unfold standing at found
  split at found
  · rename_i bound
    cases found
    rw [Bindings.levels, bound, Option.map_some]
  · cases found

variable [Host]

mutual

def nesting : Property → (String → Option Nat) → Option Nat
  | mk _ typeField components typeArguments typeParameters, levels =>
    match (TypeExpr.ofDatum typeField).toOption with
    | none => none
    | some (.generic name) => levels name
    | some expr => do
      let arguments ← allCounted (optionNestings typeArguments levels)
      let inner := overlay levels (typeParameters.getD []) arguments
      expr.nesting arguments (optionNestings components inner) inner

def optionNestings : Option (List Property) → (String → Option Nat) → List (Option Nat)
  | none, _ => []
  | some ps, levels => nestings ps levels

def nestings : List Property → (String → Option Nat) → List (Option Nat)
  | [], _ => []
  | p :: ps, levels => nesting p levels :: nestings ps levels

end

theorem nestingsEqMap (ps : List Property) (levels : String → Option Nat) :
    nestings ps levels = ps.map (nesting · levels) := by
  induction ps with
  | nil => rfl
  | cons p ps ih => rw [nestings, ih, List.map_cons]

theorem optionNestingsEqMap (ps : Option (List Property)) (levels : String → Option Nat) :
    optionNestings ps levels = (ps.getD []).map (nesting · levels) := by
  cases ps with
  | none => rfl
  | some ps => exact nestingsEqMap ps levels

theorem exprOfSame {t u : Datum} (same : t.same u = true) :
    (TypeExpr.ofDatum t).toOption = (TypeExpr.ofDatum u).toOption := by
  rcases textOfSame same with rfl | other
  · rfl
  · have none : ∀ v : Datum, (∀ text, v ≠ .str text) → (TypeExpr.ofDatum v).toOption = none := by
      intro v noText
      cases v with
      | str text => exact absurd rfl (noText text)
      | _ => rfl
    rw [none t fun text => (other text).1, none u fun text => (other text).2]

mutual

theorem nestingOfSame : (p q : Property) → p.same q = true → p.nesting = q.nesting
  | mk _ t cs as ps, mk _ u ds bs qs, alike => by
    simp only [same, Bool.and_eq_true, beq_iff_eq] at alike
    obtain ⟨⟨⟨⟨_, field⟩, components⟩, arguments⟩, rfl⟩ := alike
    funext levels
    rw [nesting, nesting, exprOfSame field, optionNestingsOfSame cs ds components,
      optionNestingsOfSame as bs arguments]

theorem optionNestingsOfSame : (ps qs : Option (List Property)) → sameOption ps qs = true →
    optionNestings ps = optionNestings qs
  | none, none, _ => rfl
  | some ps, some qs, alike => by
    funext levels
    rw [optionNestings, optionNestings, nestingsOfSame ps qs alike]

theorem nestingsOfSame : (ps qs : List Property) → sameList ps qs = true → nestings ps = nestings qs
  | [], [], _ => rfl
  | p :: ps, q :: qs, alike => by
    simp only [sameList, Bool.and_eq_true] at alike
    funext levels
    rw [nestings, nestings, nestingOfSame p q alike.1, nestingsOfSame ps qs alike.2]

end

def Key.Nests (key : Key) (n : Nat) : Prop :=
  ∃ expr, TypeExpr.ofText key.source = .ok expr ∧
    expr.nesting (key.arguments.map height) (optionNestings key.components key.bindings.levels)
      key.bindings.levels = some n

theorem nestingPlain {name : String} {typeField : Datum} {cs as : Option (List Property)}
    {ps : Option (List String)} {expr : TypeExpr} {levels : String → Option Nat}
    (reads : TypeExpr.ofDatum typeField = .ok expr) (plain : expr.Plain) :
    (mk name typeField cs as ps).nesting levels =
      (allCounted (optionNestings as levels)).bind fun arguments =>
        expr.nesting arguments (optionNestings cs (overlay levels (ps.getD []) arguments))
          (overlay levels (ps.getD []) arguments) := by
  rw [nesting, reads]
  cases expr with
  | generic word => exact absurd rfl (plain word)
  | _ => rfl

theorem allCountedOfTypes {ps : List Property} {levels : String → Option Nat} {types : List ParamType}
    (each : Forall₂ (fun p type => p.nesting levels = some (height type)) ps types) :
    allCounted (ps.map (nesting · levels)) = some (types.map height) := by
  induction each with
  | nil => rfl
  | cons first rest ih =>
    rw [List.map_cons, allCounted, first, ih]
    rfl

theorem nestsOfSettles {key : Key} {expr : TypeExpr} {type : ParamType}
    (reads : TypeExpr.ofText key.source = .ok expr)
    (settles : key.Settles (fun c bindings type => c.nesting bindings.levels = some type.height)
      expr type) : key.Nests type.height := by
  obtain ⟨answers, each, built⟩ := settles
  have counts : Forall₂ Site.Counts answers (optionNestings key.components key.bindings.levels) := by
    rw [optionNestingsEqMap, List.forall₂_map_right_iff]
    exact (each.imp fun c answer answers type same => answers type same).flip
  exact ⟨expr, reads,
    Site.nestingOfSettled each.length_eq.symm counts (fun _ => standsOfStanding) built⟩

theorem nestsOfSame {key other : Key} {n : Nat} (nodup : (Table.keys key.bindings).Nodup)
    (nests : key.Nests n) (alike : key.same other = true) : other.Nests n := by
  obtain ⟨expr, reads, counted⟩ := nests
  simp only [Key.same, Bool.and_eq_true, beq_iff_eq] at alike
  obtain ⟨⟨⟨⟨source, components⟩, _⟩, arguments⟩, bindings⟩ := alike
  rw [source] at reads
  rw [ParamType.mapHeightOfSame arguments, Bindings.levelsOfSame bindings nodup,
    optionNestingsOfSame _ _ components] at counted
  exact ⟨expr, reads, counted⟩

theorem nestingOfOwn {name : String} {typeField : Datum} {cs as : Option (List Property)}
    {ps : Option (List String)} {expr : TypeExpr} {bindings : Bindings String} {types : List ParamType}
    {n : Nat} (reads : TypeExpr.ofDatum typeField = .ok expr) (plain : expr.Plain)
    (each : Forall₂ (fun a type => a.nesting bindings.levels = some (height type)) (as.getD []) types)
    (own : (ownKey typeField.display cs ps types bindings).Nests n) :
    (mk name typeField cs as ps).nesting bindings.levels = some n := by
  obtain ⟨other, readsOther, counted⟩ := own
  obtain rfl := Except.ok.inj ((readsText reads).symm.trans readsOther)
  rw [nestingPlain reads plain, optionNestingsEqMap as, allCountedOfTypes each, Option.bind_some]
  simpa only [ownKey, Bindings.levelsExtend] using counted

def nestingAccount : Account where
  allows _ bindings := (Table.keys bindings).Nodup
  of p bindings type := p.nesting bindings.levels = some type.height
  meets key := (Table.keys key.bindings).Nodup
  found key type := key.Nests type.height
  bound := by
    intro name typeField cs as ps word bindings type reads found
    rw [nesting, reads]
    exact congrArg (Option.map height) found
  argument nodup _ _ _ _ := nodup
  applied nodup reads plain each _ _ :=
    ⟨Bindings.nodupExtend nodup, fun _ own => nestingOfOwn reads plain each own⟩
  component nodup _ _ _ _ := nodup
  settled _ reads _ settles := nestsOfSettles reads settles
  shared nodup _ nests alike := nestsOfSame nodup nests alike

theorem nestingOfResolve {limit : Int} {history : List (Property × Bindings String)} {p : Property}
    {bindings : Bindings String} {type : ParamType}
    (once : ∀ step ∈ history, (Table.keys step.2).Nodup) (nodup : (Table.keys bindings).Nodup)
    (resolved : (resolve limit p bindings (memoryAfter limit history)).1 = .ok type) :
    p.nesting bindings.levels = some type.height :=
  nestingAccount.ofResolve once nodup resolved

end WordAbi.Property
