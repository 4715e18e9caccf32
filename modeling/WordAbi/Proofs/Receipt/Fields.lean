import WordAbi.Proofs.Outcome
import WordAbi.Receipt
/-! How receipts are read from JSON. Whatever the value is, it is a receipt or is told to be invalid data, but for two
kinds of field that no check guards: an infinite number in the place of a whole one, and bytes that are no text. -/
namespace WordAbi

open Outcome

namespace Receipt

inductive Form where
  | whole
  | bytes

def fieldsOf (kind : String) : List (String × Form) :=
  match kind with
  | "Log" => [("logId", .whole), ("value", .whole)]
  | "LogData" => [("logId", .whole), ("data", .bytes)]
  | "Return" => [("value", .whole)]
  | "ReturnData" => [("data", .bytes)]
  | _ => []

/-- A value in the place of a field whose reading fails otherwise than in the ways that are told. -/
inductive Unguarded : Form → Json → Misuse → Prop
  | infinite (negative : Bool) : Unguarded .whole (.float (.infinite negative)) .tooLarge
  | textless {value : Json} : (∀ text, value ≠ .str text) → Unguarded .bytes value .missingMember

def Reads (json : Json) : String × Form → Prop
  | (name, .whole) => Succeeds (wholeField json name)
  | (name, .bytes) => Succeeds (bytesField json name)

inductive Escapes (json : Json) (cause : Misuse) : List (String × Form) → Prop
  | here {name form value fields} : json.member? name = some value → Unguarded form value cause →
      Escapes json cause ((name, form) :: fields)
  | later {field fields} : Reads json field → Escapes json cause fields → Escapes json cause (field :: fields)

inductive Refused (json : Json) : DataFault → Prop
  | shapeless : (∀ members, json ≠ .obj members) → Refused json (.receiptExpected (Datum.kindName json.toNative))
  | unknown : (∀ kind, json.member? "type" = some (.str kind) → fieldsOf kind = []) →
      Refused json (.unknownReceipt (Datum.repr ((json.member? "type").getD .null).toNative))
  | malformed {kind} (reason) : json.member? "type" = some (.str kind) → fieldsOf kind ≠ [] →
      Refused json (.malformedReceipt kind reason json.toNative)

variable {json : Json} {name kind : String} {cause : Misuse}

theorem fieldFound {value : Json} : field json name = .ok value ↔ json.member? name = some value := by
  unfold field
  split
  · rename_i found
    rw [found, Except.ok.injEq, Option.some.injEq]
  · rename_i missing
    simp [missing]

theorem fieldGuarded : field json name ≠ .error (.misuse cause) := by
  unfold field
  split <;> nofun

theorem toWholeFailed {value : Json} (failed : Native.toWhole (value.toNative : Datum) = .error cause) :
    cause = .wrongKind ∨ cause = .badValue ∨ Unguarded .whole value cause := by
  cases value with
  | float x =>
    cases x with
    | finite negative mantissa exponent => cases failed
    | infinite negative =>
      cases failed
      exact .inr (.inr (.infinite negative))
    | nan =>
      cases failed
      exact .inr (.inl rfl)
  | str text =>
    simp only [Json.toNative, Native.toWhole] at failed
    split at failed <;> cases failed
    exact .inr (.inl rfl)
  | bool b => cases failed
  | int n => cases failed
  | _ =>
    cases failed
    exact .inl rfl

theorem wholeFieldMisused : wholeField json name = .error (.misuse cause) ↔
    ∃ value, json.member? name = some value ∧ Unguarded .whole value cause := by
  rw [wholeField, bindError]
  simp only [fieldGuarded, false_or, fieldFound]
  refine exists_congr fun value => and_congr_right fun _ => ?_
  constructor
  · intro failed
    split at failed
    · cases failed
    · cases failed
    · cases failed
    · rename_i wrongKind badValue whole
      cases failed
      exact ((toWholeFailed whole).resolve_left wrongKind).resolve_left badValue
  · rintro ⟨negative⟩
    rfl

theorem bytesFieldMisused : bytesField json name = .error (.misuse cause) ↔
    ∃ value, json.member? name = some value ∧ Unguarded .bytes value cause := by
  rw [bytesField, bindError]
  simp only [fieldGuarded, false_or, fieldFound]
  refine exists_congr fun value => and_congr_right fun _ => ?_
  constructor
  · intro failed
    split at failed
    · split at failed <;> cases failed
    · rename_i textless
      cases failed
      exact .textless textless
  · rintro ⟨_⟩
    rename_i textless
    split
    · exact absurd rfl (textless _)
    · rfl

theorem escapesNil : ¬ Escapes json cause [] := nofun

theorem escapesCons {name : String} {form : Form} {fields : List (String × Form)} :
    Escapes json cause ((name, form) :: fields) ↔
      (∃ value, json.member? name = some value ∧ Unguarded form value cause) ∨
        Reads json (name, form) ∧ Escapes json cause fields := by
  constructor
  · rintro (⟨found, unguarded⟩ | ⟨reads, later⟩)
    · exact .inl ⟨_, found, unguarded⟩
    · exact .inr ⟨reads, later⟩
  · rintro (⟨value, found, unguarded⟩ | ⟨reads, later⟩)
    · exact .here found unguarded
    · exact .later reads later

theorem ofFieldsMisused :
    ofFields kind json = some (.error (.misuse cause)) ↔ Escapes json cause (fieldsOf kind) := by
  unfold ofFields fieldsOf
  split
  all_goals simp [escapesCons, escapesNil, bindError, wholeFieldMisused, bytesFieldMisused, Reads, Succeeds]

theorem ofFieldsUnknown : ofFields kind json = none ↔ fieldsOf kind = [] := by
  unfold ofFields fieldsOf
  split <;> simp

section

variable {members : List (String × Json)}

theorem ofJsonTyped (typed : (Json.obj members).member? "type" = some (.str kind)) :
    ofJson (.obj members) = match ofFields kind (.obj members) with
      | some (.ok receipt) => .ok receipt
      | some (.error (.told reason)) =>
        .error (.invalidData (.malformedReceipt kind reason (Json.obj members).toNative))
      | some (.error (.misuse cause)) => .error (.misuse cause)
      | none => .error (.invalidData (.unknownReceipt (Datum.repr (Json.str kind).toNative))) := by
  have typed : Table.get? members "type" = some (.str kind) := typed
  simp only [ofJson, typed, Option.getD_some]
  cases ofFields kind (.obj members) with
  | none => rfl
  | some read =>
    cases read with
    | ok receipt => rfl
    | error problem => cases problem <;> rfl

theorem ofJsonUntyped (untyped : ∀ kind, (Json.obj members).member? "type" ≠ some (.str kind)) :
    ofJson (.obj members) = .error (.invalidData (.unknownReceipt
      (Datum.repr (((Json.obj members).member? "type").getD .null).toNative))) := by
  have untyped : ∀ kind, Table.get? members "type" ≠ some (.str kind) := untyped
  simp only [ofJson, Json.member?]
  cases found : Table.get? members "type" with
  | none => rfl
  | some value =>
    cases value with
    | str kind => exact absurd found (untyped kind)
    | _ => rfl

end

/-- A JSON value is a receipt, or it is refused as invalid data for what is wrong with it, unless a field escapes: that
is when, behind fields which are read, a whole number is infinite or bytes are no text. -/
theorem ofJsonTold (json : Json) :
    ((∃ receipt, ofJson json = .ok receipt) ∨
      (∃ cause, ofJson json = .error (.invalidData cause) ∧ Refused json cause ∧
        (Fault.invalidData cause).report = .codec .invalidData cause.message cause.context) ∨
      ∃ cause, ofJson json = .error (.misuse cause)) ∧
    ∀ cause, ofJson json = .error (.misuse cause) ↔
      ∃ kind, json.member? "type" = some (.str kind) ∧ Escapes json cause (fieldsOf kind) := by
  cases json with
  | obj members =>
    by_cases typed : ∃ kind, (Json.obj members).member? "type" = some (.str kind)
    · obtain ⟨kind, typed⟩ := typed
      have escapes (cause : Misuse) : (∃ other, (Json.obj members).member? "type" = some (.str other) ∧
          Escapes (.obj members) cause (fieldsOf other)) ↔
          ofFields kind (.obj members) = some (.error (.misuse cause)) := by
        rw [ofFieldsMisused, typed]
        simp
      simp only [escapes, ofJsonTyped typed]
      cases read : ofFields kind (.obj members) with
      | none =>
        have unknown := ofFieldsUnknown.mp read
        have shown : ((Json.obj members).member? "type").getD .null = .str kind := by rw [typed]; rfl
        refine ⟨.inr (.inl ⟨_, rfl, shown ▸ .unknown fun other same => ?_, rfl⟩), by simp⟩
        cases typed.symm.trans same
        exact unknown
      | some outcome =>
        have known : fieldsOf kind ≠ [] := fun none => by cases (ofFieldsUnknown.mpr none).symm.trans read
        cases outcome with
        | ok receipt => exact ⟨.inl ⟨receipt, rfl⟩, by simp⟩
        | error problem =>
          cases problem with
          | told reason => exact ⟨.inr (.inl ⟨_, rfl, .malformed reason typed known, rfl⟩), by simp⟩
          | misuse other => exact ⟨.inr (.inr ⟨other, rfl⟩), by simp⟩
    · have untyped := not_exists.mp typed
      rw [ofJsonUntyped untyped]
      refine ⟨.inr (.inl ⟨_, rfl, .unknown fun kind same => absurd same (untyped kind), rfl⟩), fun cause => ?_⟩
      simp [untyped]
  | _ => exact ⟨.inr (.inl ⟨_, rfl, .shapeless nofun, rfl⟩), fun cause => ⟨nofun, nofun⟩⟩

theorem unguardedFieldsEscape :
    let logData (data : Json) : Json := .obj [("type", .str "LogData"), ("logId", .int 1), ("data", data)]
    let returned (value : Json) : Json := .obj [("type", .str "Return"), ("value", value)]
    ofJson (logData (.int 5)) = .error (.misuse .missingMember) ∧
      ofJson (returned (.float (.infinite false))) = .error (.misuse .tooLarge) ∧
      (∃ reason, ofJson (logData (.str "0xzz")) =
        .error (.invalidData (.malformedReceipt "LogData" reason (logData (.str "0xzz")).toNative))) ∧
      ∀ value ∈ [.null, .arr [], .float .nan, .str "x"], ∃ reason, ofJson (returned value) =
        .error (.invalidData (.malformedReceipt "Return" reason (returned value).toNative)) := by
  intro logData returned
  refine ⟨rfl, rfl, ⟨_, rfl⟩, ?_⟩
  simp only [List.forall_mem_cons, List.not_mem_nil, false_implies, implies_true, and_true]
  exact ⟨⟨_, rfl⟩, ⟨_, rfl⟩, ⟨_, rfl⟩, ⟨_, rfl⟩⟩

end Receipt

end WordAbi
