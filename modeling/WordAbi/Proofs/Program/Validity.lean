import WordAbi.Program.Basic
import WordAbi.Proofs.Outcome
/-! Documents that have no violation can be read: each part is of a kind that is allowed for it, has the
members that are required of it, and its members and items are as they are asked to be. -/
namespace WordAbi

open Outcome (bindOk mapOk Succeeds succeedsAfter succeedsBind succeedsMapM)

def DocumentPart.Requires (part : DocumentPart) (name : String) (inner : DocumentPart) : Prop :=
  name ∈ part.rules.required ∧ (name, inner) ∈ part.rules.members

namespace Violation

variable {part inner : DocumentPart} {name : String} {members : List (String × Json)} {v : Json}

def Meets (part : DocumentPart) (v : Json) : Prop := ∃ path, within path part v = []

theorem aroundEmpty {path : List String} {parts : List Placed} (empty : around path part v parts = []) :
    ownFirst part.rules v = [] ∧ parts = [] := by
  rw [around, List.append_eq_nil_iff, List.append_eq_nil_iff, placedAt, List.map_eq_nil_iff] at empty
  exact empty.1

theorem ownFirstEmpty (meets : Meets part v) : ownFirst part.rules v = [] := by
  obtain ⟨path, empty⟩ := meets
  cases v <;> exact (aroundEmpty empty).1

theorem kindOfMeets (meets : Meets part v) : ∃ k ∈ part.rules.kinds, k.has v = true := by
  have absent : .kind v part.rules.kinds ∉ ownFirst part.rules v := by
    rw [ownFirstEmpty meets]
    exact List.not_mem_nil
  simpa [kindMemOwnFirstIff] using absent

theorem requiredOfMeets (meets : Meets part (.obj members)) (asked : name ∈ part.rules.required) :
    ∃ v, Table.get? members name = some v := by
  have empty := (List.append_eq_nil_iff.mp (ownFirstEmpty meets)).2
  have absent := List.filter_eq_nil_iff.mp (List.map_eq_nil_iff.mp empty) name asked
  simpa [Option.ne_none_iff_exists'] using absent

theorem getMemberChecks (path : List String) (members : List (String × Json)) (name : String) :
    Table.get? (memberChecks path members) name =
      (Table.get? members name).map fun v part => within (path ++ [name]) part v := by
  induction members with
  | nil => rfl
  | cons member rest ih =>
    obtain ⟨other, v⟩ := member
    simp only [Table.get?] at ih ⊢
    by_cases same : other = name
    · simp [memberChecks, same]
    · simp [memberChecks, same, ih]

theorem memberOfMeets (meets : Meets part (.obj members)) (asked : (name, inner) ∈ part.rules.members)
    (held : Table.get? members name = some v) : Meets inner v := by
  obtain ⟨path, empty⟩ := meets
  rw [within] at empty
  have checked := List.flatMap_eq_nil_iff.mp (aroundEmpty empty).2 (name, inner) asked
  simp only [getMemberChecks, held, Option.map_some] at checked
  exact ⟨_, checked⟩

theorem meetsItems {path : List String} {index : Nat} {vs : List Json}
    (empty : withinItems path part index vs = []) : ∀ v ∈ vs, Meets part v := by
  induction vs generalizing index with
  | nil => exact List.forall_mem_nil _
  | cons v vs ih =>
    obtain ⟨first, rest⟩ := List.append_eq_nil_iff.mp empty
    exact List.forall_mem_cons.mpr ⟨⟨_, first⟩, ih rest⟩

theorem itemsOfMeets {vs : List Json} (meets : Meets part (.arr vs)) (asked : part.rules.items = some inner) :
    ∀ v ∈ vs, Meets inner v := by
  obtain ⟨path, empty⟩ := meets
  have items := (aroundEmpty empty).2
  rw [asked] at items
  exact meetsItems items

theorem meetsOfNone {document : Json} (none : ofDocument document = []) : Meets .document document := by
  have same : (ofDocument document).Perm (within [] .document document) := List.mergeSort_perm _ _
  rw [none, List.nil_perm] at same
  exact ⟨[], same⟩

end Violation

open DocumentPart (Requires rules)
open Violation

section

variable {part inner item : DocumentPart} {name : String} {members : List (String × Json)} {v : Json}

theorem JsonKind.objectOfHas (has : object.has v = true) : ∃ members, v = .obj members := by
  cases v with
  | obj members => exact ⟨members, rfl⟩
  | _ => cases has

theorem JsonKind.arrayOfHas (has : array.has v = true) : ∃ vs, v = .arr vs := by
  cases v with
  | arr vs => exact ⟨vs, rfl⟩
  | _ => cases has

theorem JsonKind.nullOfHas (has : null.has v = true) : v = .null := by
  cases v with
  | null => rfl
  | _ => cases has

theorem membersOfMeets (meets : Meets part v) (kinds : part.rules.kinds = [.object]) :
    ∃ members, v = .obj members := by
  obtain ⟨k, allowed, has⟩ := kindOfMeets meets
  rw [kinds] at allowed
  obtain rfl := List.mem_singleton.mp allowed
  exact JsonKind.objectOfHas has

theorem listOfMeets (meets : Meets part v) (kinds : part.rules.kinds = [.array])
    (items : part.rules.items = some item) : ∃ vs, v = .arr vs ∧ ∀ v ∈ vs, Meets item v := by
  obtain ⟨k, allowed, has⟩ := kindOfMeets meets
  rw [kinds] at allowed
  obtain rfl := List.mem_singleton.mp allowed
  obtain ⟨vs, rfl⟩ := JsonKind.arrayOfHas has
  exact ⟨vs, rfl, itemsOfMeets meets items⟩

theorem optionalListOfMeets (meets : Meets part v) (kinds : part.rules.kinds = [.array, .null])
    (items : part.rules.items = some item) : v = .null ∨ ∃ vs, v = .arr vs ∧ ∀ v ∈ vs, Meets item v := by
  obtain ⟨k, allowed, has⟩ := kindOfMeets meets
  rw [kinds, List.mem_cons, List.mem_singleton] at allowed
  rcases allowed with rfl | rfl
  · obtain ⟨vs, rfl⟩ := JsonKind.arrayOfHas has
    exact .inr ⟨vs, rfl, itemsOfMeets meets items⟩
  · exact .inl (JsonKind.nullOfHas has)

namespace Json

theorem wholeSucceeds (meets : Meets .natural v) : Succeeds v.whole := by
  obtain ⟨k, allowed, has⟩ := kindOfMeets meets
  obtain rfl := List.mem_singleton.mp allowed
  cases v with
  | int n => exact ⟨n, rfl⟩
  | float x =>
    cases x with
    | finite negative m e => exact ⟨_, rfl⟩
    | _ => cases has
  | _ => cases has

theorem requiredSucceeds (meets : Meets part (.obj members)) (asked : name ∈ part.rules.required) :
    Succeeds (required members name) := by
  obtain ⟨v, held⟩ := requiredOfMeets meets asked
  refine ⟨v, ?_⟩
  rw [required, held]

theorem requiredMeets (meets : Meets part (.obj members)) (asked : part.Requires name inner) :
    ∃ v, required members name = .ok v ∧ Meets inner v := by
  obtain ⟨v, held⟩ := requiredOfMeets meets asked.1
  refine ⟨v, ?_, memberOfMeets meets asked.2 held⟩
  rw [required, held]

theorem requiredWholeSucceeds (meets : Meets part (.obj members)) (asked : part.Requires name .natural) :
    Succeeds (requiredWhole members name) := by
  obtain ⟨v, held, whole⟩ := requiredMeets meets asked
  obtain ⟨n, read⟩ := wholeSucceeds whole
  exact ⟨n, bindOk.mpr ⟨v, held, read⟩⟩

theorem optionalItemsSucceed (meets : Meets part (.obj members)) (within : (name, inner) ∈ part.rules.members)
    (kinds : inner.rules.kinds = [.array, .null]) (items : inner.rules.items = some item) :
    ∃ vs, optionalItems members name = .ok vs ∧ ∀ v ∈ vs.getD [], Meets item v := by
  unfold optionalItems
  cases held : Table.get? members name with
  | none => exact ⟨none, rfl, List.forall_mem_nil _⟩
  | some v =>
    rcases optionalListOfMeets (memberOfMeets meets within held) kinds items with rfl | ⟨vs, rfl, each⟩
    · exact ⟨none, rfl, List.forall_mem_nil _⟩
    · exact ⟨some vs, rfl, each⟩

end Json

theorem optionalNodesSucceed {α : Type} {nodes : Table String (Json × Except Fault (List α))}
    (each : ∀ v result, Table.get? nodes name = some (v, result) → v = .null ∨ Succeeds result) :
    Succeeds (optionalNodes nodes name) := by
  unfold optionalNodes
  split
  · exact ⟨none, rfl⟩
  · exact ⟨none, rfl⟩
  · rename_i v result filled held
    obtain ⟨as, done⟩ := (each v result held).resolve_left filled
    exact ⟨some as, mapOk.mpr ⟨as, done, rfl⟩⟩

end

namespace TypeApplication

mutual

theorem ofJsonSucceeds : (v : Json) → Meets .application v → Succeeds (ofJson v)
  | .obj members, meets => by
    have nodes := memberNodesSucceed "typeArguments" members fun _ held =>
      memberOfMeets meets (by simp [rules]) held
    exact succeedsBind (Json.requiredWholeSucceeds meets (by simp [Requires, rules])) fun _ =>
      succeedsBind (optionalNodesSucceed nodes) fun _ => ⟨_, rfl⟩
  | .null, meets | .bool _, meets | .int _, meets | .float _, meets | .str _, meets | .arr _, meets =>
    nomatch membersOfMeets meets rfl

theorem memberNodesSucceed (name : String) : (members : List (String × Json)) →
    (∀ v, Table.get? members name = some v → Meets .applications v) →
    ∀ v result, Table.get? (memberNodes members) name = some (v, result) → v = .null ∨ Succeeds result
  | [], _, _, _, held => nomatch held
  | (other, node) :: rest, meets, v, result, held => by
    by_cases same : other = name
    · simp only [memberNodes, Table.get?, List.find?_cons, same, decide_true] at held
      cases held
      exact nodesOfSucceeds node (meets node (by simp [Table.get?, same]))
    · refine memberNodesSucceed name rest (fun v held => meets v ?_) v result ?_
      · simpa [Table.get?, same] using held
      · simpa [memberNodes, Table.get?, same] using held

theorem nodesOfSucceeds : (v : Json) → Meets .applications v → v = .null ∨ Succeeds (nodesOf v)
  | .arr vs, meets => .inr (ofJsonListSucceeds vs (itemsOfMeets meets rfl))
  | .null, _ => .inl rfl
  | .bool _, meets | .int _, meets | .float _, meets | .str _, meets | .obj _, meets =>
    nomatch optionalListOfMeets meets rfl rfl

theorem ofJsonListSucceeds : (vs : List Json) → (∀ v ∈ vs, Meets .application v) → Succeeds (ofJsonList vs)
  | [], _ => ⟨[], rfl⟩
  | v :: vs, each => by
    obtain ⟨first, rest⟩ := List.forall_mem_cons.mp each
    exact succeedsBind (ofJsonSucceeds v first) fun a =>
      succeedsBind (ofJsonListSucceeds vs rest) fun as => ⟨a :: as, rfl⟩

end

end TypeApplication

section

variable {part inner item : DocumentPart} {name : String} {members : List (String × Json)} {v : Json}
  {α : Type} {read : Json → Except Fault α}

theorem TypeApplication.ofMemberSucceeds (meets : Meets part (.obj members))
    (asked : part.Requires name .application) : Succeeds (ofMember members name) := by
  obtain ⟨v, held, applied⟩ := Json.requiredMeets meets asked
  exact succeedsAfter held (ofJsonSucceeds v applied)

theorem TypeDeclaration.ofJsonSucceeds (meets : Meets .declaration v) : Succeeds (ofJson v) := by
  obtain ⟨members, rfl⟩ := membersOfMeets meets rfl
  have nodes := TypeApplication.memberNodesSucceed "components" members fun _ held =>
    memberOfMeets meets (by simp [rules]) held
  obtain ⟨parameters, read, naturals⟩ : ∃ vs, Json.optionalItems members "typeParameters" = .ok vs ∧
      ∀ v ∈ vs.getD [], Meets .natural v :=
    Json.optionalItemsSucceed meets (by simp [rules] : (_, .typeIds) ∈ _) rfl rfl
  exact succeedsBind (Json.requiredWholeSucceeds meets (by simp [Requires, rules])) fun _ =>
    succeedsBind (Json.requiredSucceeds meets (by simp [rules])) fun _ =>
    succeedsBind (optionalNodesSucceed nodes) fun _ =>
    succeedsAfter read (succeedsBind (succeedsMapM fun v member => Json.wholeSucceeds (naturals v member))
      fun _ => ⟨_, rfl⟩)

namespace Program

theorem readListSucceeds (meets : Meets part (.obj members)) (asked : part.Requires name inner)
    (kinds : inner.rules.kinds = [.array]) (items : inner.rules.items = some item)
    (each : ∀ v, Meets item v → Succeeds (read v)) : Succeeds (readList members name read) := by
  obtain ⟨v, held, list⟩ := Json.requiredMeets meets asked
  obtain ⟨vs, rfl, inside⟩ := listOfMeets list kinds items
  exact succeedsAfter held (succeedsMapM fun v member => each v (inside v member))

theorem readOptionalListSucceeds (meets : Meets part (.obj members))
    (within : (name, inner) ∈ part.rules.members) (kinds : inner.rules.kinds = [.array, .null])
    (items : inner.rules.items = some item) (each : ∀ v, Meets item v → Succeeds (read v)) :
    Succeeds (readOptionalList members name read) := by
  obtain ⟨vs, held, inside⟩ := Json.optionalItemsSucceed meets within kinds items
  exact succeedsAfter held (succeedsMapM fun v member => each v (inside v member))

theorem readFunctionSucceeds (meets : Meets .function v) : Succeeds (readFunction v) := by
  obtain ⟨members, rfl⟩ := membersOfMeets meets rfl
  have read : Succeeds (readList members "inputs" TypeApplication.ofJson) :=
    readListSucceeds meets (by simp [Requires, rules] : Requires .function _ .inputs) rfl rfl
      TypeApplication.ofJsonSucceeds
  exact succeedsAfter rfl (succeedsBind (Json.requiredSucceeds meets (by simp [rules])) fun _ =>
    succeedsBind read fun _ =>
    succeedsBind (TypeApplication.ofMemberSucceeds meets (by simp [Requires, rules])) fun _ => ⟨_, rfl⟩)

theorem readLoggedTypeSucceeds (meets : Meets .loggedType v) : Succeeds (readLoggedType v) := by
  obtain ⟨members, rfl⟩ := membersOfMeets meets rfl
  exact succeedsAfter rfl (succeedsBind (Json.requiredWholeSucceeds meets (by simp [Requires, rules])) fun _ =>
    succeedsBind (TypeApplication.ofMemberSucceeds meets (by simp [Requires, rules])) fun _ => ⟨_, rfl⟩)

theorem readConfigurableSucceeds (meets : Meets .configurable v) : Succeeds (readConfigurable v) := by
  obtain ⟨members, rfl⟩ := membersOfMeets meets rfl
  exact succeedsAfter rfl (succeedsBind (Json.requiredSucceeds meets (by simp [rules])) fun _ =>
    succeedsBind (TypeApplication.ofMemberSucceeds meets (by simp [Requires, rules])) fun _ =>
    succeedsBind (Json.requiredWholeSucceeds meets (by simp [Requires, rules])) fun _ => ⟨_, rfl⟩)

theorem checkNone {document : Json} (none : ofDocument document = []) : check document = .ok () := by
  rw [check, none]
  rfl

theorem checkSome {document : Json} (found : ofDocument document ≠ []) :
    ∃ cause, check document = .error (.invalidType cause) := by
  unfold check
  split
  · rename_i none
    exact absurd (List.map_eq_nil_iff.mp none) found
  · exact ⟨_, rfl⟩

theorem ofJsonSucceeds {document : Json} (limit : Int) (none : ofDocument document = []) :
    Succeeds (ofJson limit document) := by
  have meets := meetsOfNone none
  obtain ⟨members, rfl⟩ := membersOfMeets meets rfl
  have declared : Succeeds (readList members "types" TypeDeclaration.ofJson) :=
    readListSucceeds meets (by simp [Requires, rules] : Requires .document _ .declarations) rfl rfl
      fun _ => TypeDeclaration.ofJsonSucceeds
  have callable : Succeeds (readList members "functions" readFunction) :=
    readListSucceeds meets (by simp [Requires, rules] : Requires .document _ .functions) rfl rfl
      fun _ => readFunctionSucceeds
  have logged : Succeeds (readOptionalList members "loggedTypes" readLoggedType) :=
    readOptionalListSucceeds meets (by simp [rules] : (_, .loggedTypes) ∈ _) rfl rfl
      fun _ => readLoggedTypeSucceeds
  have slots : Succeeds (readOptionalList members "configurables" readConfigurable) :=
    readOptionalListSucceeds meets (by simp [rules] : (_, .configurables) ∈ _) rfl rfl
      fun _ => readConfigurableSucceeds
  exact succeedsAfter (checkNone none) (succeedsAfter rfl (succeedsBind declared fun _ =>
    succeedsBind callable fun _ => succeedsBind logged fun _ => succeedsBind slots fun _ => ⟨_, rfl⟩))

theorem ofJsonEnds (limit : Int) (document : Json) :
    (ofDocument document ≠ [] ∧ ∃ cause, ofJson limit document = .error (.invalidType cause)) ∨
      (ofDocument document = [] ∧ Succeeds (ofJson limit document)) := by
  by_cases none : ofDocument document = []
  · exact .inr ⟨none, ofJsonSucceeds limit none⟩
  · obtain ⟨cause, refused⟩ := checkSome none
    refine .inl ⟨none, cause, ?_⟩
    rw [ofJson, refused]
    rfl

end Program

end

end WordAbi
