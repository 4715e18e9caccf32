import WordAbi.Json.Basic
import WordAbi.Proofs.Decoder.Failure
import WordAbi.Proofs.Token.Parts
/-! How values of JSON text are refused. By a type without unspecified parts such a value has a token, or is told to
be invalid data, or gives something that is no whole number as the index of a variant. -/
namespace WordAbi

namespace Native

variable {ε : Type} (embedded : ε → ε → Bool)

theorem insertText (text : String) {values : List (Native ε)} (texts : ∀ value ∈ values, ∃ s, value = .str s) :
    ∃ sorted, insertSorted embedded (.str text) values = some sorted ∧ ∀ value ∈ sorted, ∃ s, value = .str s := by
  induction values with
  | nil => exact ⟨_, rfl, by simp⟩
  | cons value values ih =>
    obtain ⟨⟨word, rfl⟩, later⟩ := List.forall_mem_cons.mp texts
    obtain ⟨sorted, inserted, all⟩ := ih later
    by_cases less : text < word
    · exact ⟨.str text :: .str word :: values, by simp [insertSorted, less?, less], by simpa using later⟩
    · exact ⟨.str word :: sorted, by simp [insertSorted, less?, less, inserted], by simpa using all⟩

theorem insertTexts {values before : List (Native ε)} (texts : ∀ value ∈ values, ∃ s, value = .str s)
    (sorted : ∀ value ∈ before, ∃ s, value = .str s) :
    ∃ after, values.foldlM (fun sorted v => insertSorted embedded v sorted) before = some after := by
  induction values generalizing before with
  | nil => exact ⟨before, rfl⟩
  | cons value values ih =>
    obtain ⟨⟨word, rfl⟩, later⟩ := List.forall_mem_cons.mp texts
    obtain ⟨next, inserted, remain⟩ := insertText embedded word sorted
    obtain ⟨after, done⟩ := ih later remain
    exact ⟨after, by simp [List.foldlM_cons, inserted, done]⟩

theorem sortTexts {values : List (Native ε)} (texts : ∀ value ∈ values, ∃ s, value = .str s) :
    ∃ sorted, sort? embedded values = some sorted :=
  insertTexts embedded texts (by simp)

end Native

namespace Token
open Outcome

def Denoted (value : Written) : Prop := ∃ json : Json, value = json.toNative

theorem denotedHereditary : Hereditary Denoted where
  null := ⟨.null, rfl⟩
  list := by
    intro items denoted item member
    obtain ⟨json, same⟩ := denoted
    cases json <;> cases same
    rw [Json.toNativeListEqMap] at member
    obtain ⟨inner, _, rfl⟩ := List.mem_map.mp member
    exact ⟨inner, rfl⟩
  tuple := by
    intro items denoted
    obtain ⟨json, same⟩ := denoted
    cases json <;> cases same
  dict := by
    intro entries denoted entry member
    obtain ⟨json, same⟩ := denoted
    cases json <;> cases same
    rw [Json.toNativeMembersEqMap] at member
    obtain ⟨inner, _, rfl⟩ := List.mem_map.mp member
    exact ⟨inner.2, rfl⟩

theorem textsOfDenoted {entries : List (Written × Written)} (denoted : Denoted (.dict entries)) :
    ∀ key ∈ entries.map (·.1), ∃ text, key = .str text := by
  obtain ⟨json, same⟩ := denoted
  cases json <;> cases same
  rw [Json.toNativeMembersEqMap, List.map_map]
  intro key member
  obtain ⟨inner, _, rfl⟩ := List.mem_map.mp member
  exact ⟨inner.1, rfl⟩

theorem readDenoted {value : Written} {read : Written → Except Fault Token} (denoted : Denoted value) :
    unlessToken value read = read value := by
  obtain ⟨json, rfl⟩ := denoted
  cases json <;> rfl

/-- The ways in which a value is refused: as invalid data, in a message that names types with names only, or for
an index that cannot be read as a whole number. -/
inductive Refusal (type : ParamType) (value : Written) : Fault → Prop
  | invalid {cause : DataFault} : cause.types.all (·.hasName) = true → Refusal type value (.invalidData cause)
  | misread {head : Written} {cause : Misuse} : TakesIndex type value head → head.toWhole = .error cause →
      Refusal type value (.misuse cause)

variable {type : ParamType} {value : Written} {α : Type}

theorem refusalOfPart {inner : ParamType} {part : Written} {fault : Fault} (refused : Refusal inner part fault)
    (within : ∀ head, TakesIndex inner part head → TakesIndex type value head) : Refusal type value fault := by
  cases refused with
  | invalid named => exact .invalid named
  | misread takes whole => exact .misread (within _ takes) whole

theorem endsItemsOf (named : type.hasName = true) :
    Ends (fun _ => True) (Refusal type value) (itemsOf type value) := by
  unfold itemsOf
  split
  · trivial
  · trivial
  · exact .invalid (by simp [DataFault.types, named])

theorem endsItemsOfLength {length : Int} (named : type.hasName = true) :
    Ends (fun _ => True) (Refusal type value) (itemsOfLength type length value) := by
  refine endsBind (endsItemsOf named) fun items _ => ?_
  split
  · trivial
  · exact .invalid (by simp [DataFault.types, named])

theorem endsFieldValues {count : Nat} {names : List String} (named : type.hasName = true) :
    Ends (fun _ => True) (Refusal type value) (fieldValues type count names value) := by
  unfold fieldValues
  split
  · split
    · exact .invalid rfl
    · dsimp only
      split
      · trivial
      · exact .invalid rfl
  · exact endsItemsOfLength named

theorem endsVariantNamed {names : List String} {key : Written} :
    Ends (fun _ => True) (Refusal type value) (variantNamed names key) := by
  unfold variantNamed
  split
  · trivial
  · exact .invalid rfl

theorem endsVariantOf {variants generics : List ParamType} {name : String} {names : List String}
    (denoted : Denoted value) : Ends (fun _ => True) (Refusal (.enum variants generics name names) value)
      (variantOf (.enum variants generics name names) names value) := by
  unfold variantOf
  split
  · exact endsBind endsVariantNamed fun _ _ => trivial
  · exact endsBind endsVariantNamed fun _ _ => trivial
  · obtain ⟨sorted, sorts⟩ := Native.sortTexts Token.same (textsOfDenoted denoted)
    rw [sorts]
    exact .invalid rfl
  · refine endsBindOk (endsItemsOfLength rfl) fun items found => ?_
    obtain ⟨ordered, two⟩ := itemsOfLengthOk.mp found
    obtain ⟨head, second, rfl⟩ := List.length_eq_two.mp (Int.natCast_inj.mp two)
    simp only [List.getD_cons_zero, List.getD_cons_succ]
    split
    · exact endsBind endsVariantNamed fun _ _ => trivial
    · rename_i other
      split
      · trivial
      · rename_i whole
        exact .misread (.here ordered other) whole

theorem endsBytesOf : Ends (fun _ => True) (Refusal type value) (bytesOf value) := by
  have checks (bs : Bytes) : Ends (fun _ => True) (Refusal type value) (bytesOf.check bs) := by
    unfold bytesOf.check
    split
    · trivial
    · exact .invalid rfl
  unfold bytesOf
  split
  · split
    · exact checks _
    · exact .invalid rfl
  · exact checks _
  · exact .invalid rfl

theorem endsOfPrimitive {p : Primitive} :
    Ends (fun _ => True) (Refusal type value) (ofPrimitive p value) := by
  unfold ofPrimitive
  cases p with
  | b256 => exact endsMap endsBytesOf fun _ _ => trivial
  | _ =>
    dsimp only
    split <;> first | trivial | exact .invalid rfl

theorem endsOfItems {element : ParamType} {items : List Written} {make : List Token → Token}
    (each : ∀ item ∈ items, Ends (fun _ => True) (Refusal element item) (ofWritten element item))
    (within : ∀ item ∈ items, ∀ head, TakesIndex element item head → TakesIndex type value head) :
    Ends (fun _ => True) (Refusal type value) (items.mapM (ofWritten element) >>= fun tokens => .ok (make tokens)) := by
  have every : ∀ item ∈ items, Ends (fun _ => True) (Refusal type value) (ofWritten element item) :=
    fun item member => endsBlamed (each item member) fun _ refused =>
      refusalOfPart refused (within item member)
  exact endsBind (endsMapM every) fun _ _ => trivial

mutual

theorem endsOfWritten : (type : ParamType) → type.isClosed = true → ∀ {value : Written}, Denoted value →
    Ends (fun _ => True) (Refusal type value) (ofWritten type value)
  | .primitive p, _, _, denoted => by
    rw [ofWritten, readDenoted denoted]
    exact endsOfPrimitive
  | .string length, _, _, denoted => by
    rw [ofWritten, readDenoted denoted]
    split
    · trivial
    · exact .invalid rfl
  | .array element length, closed, _, denoted => by
    rw [ofWritten, readDenoted denoted]
    refine endsBindOk (endsItemsOfLength (ParamType.hasNameOfIsClosed _ closed)) fun items found => ?_
    have ordered := (itemsOfLengthOk.mp found).1
    exact endsOfItems (fun item member =>
      endsOfWritten element closed (holdsItems denotedHereditary denoted ordered item member))
      fun item member _ takes => .array ordered member takes
  | .vector element, closed, _, denoted => by
    rw [ofWritten, readDenoted denoted]
    refine endsBindOk (endsItemsOf (ParamType.hasNameOfIsClosed _ closed)) fun items found => ?_
    have ordered := itemsOfOk.mp found
    exact endsOfItems (fun item member =>
      endsOfWritten element closed (holdsItems denotedHereditary denoted ordered item member))
      fun item member _ takes => .vector ordered member takes
  | .tuple elements, closed, _, denoted => by
    rw [ofWritten, readDenoted denoted]
    refine endsBindOk (endsItemsOfLength (ParamType.hasNameOfIsClosed _ closed)) fun items found => ?_
    have ordered := (itemsOfLengthOk.mp found).1
    refine endsBind (endsBlamed (endsOfWrittens elements closed (holdsItems denotedHereditary denoted ordered)) ?_)
      fun _ _ => trivial
    intro fault refused
    obtain ⟨element, item, member, refused⟩ := refused
    exact refusalOfPart refused fun _ takes => .tuple ordered member takes
  | .struct fields generics name names, closed, _, denoted => by
    rw [ofWritten, readDenoted denoted]
    refine endsBindOk (endsFieldValues (ParamType.hasNameOfIsClosed _ closed)) fun items found => ?_
    simp only [ParamType.isClosed, Bool.and_eq_true] at closed
    refine endsBind (endsBlamed (endsOfWrittens fields closed.2 (holdsFields denotedHereditary denoted found)) ?_)
      fun _ _ => trivial
    intro fault refused
    obtain ⟨field, item, member, refused⟩ := refused
    exact refusalOfPart refused fun _ takes => .struct found member takes
  | .enum variants generics name names, closed, _, denoted => by
    rw [ofWritten, readDenoted denoted]
    refine endsBindOk (endsVariantOf denoted) fun chosen found => ?_
    obtain ⟨index, payload⟩ := chosen
    simp only [ParamType.isClosed, Bool.and_eq_true] at closed
    dsimp only
    refine endsBind (endsBlamed (endsOfVariant variants closed.2 (holdsPayload denotedHereditary denoted found)) ?_)
      fun token _ => ?_
    · intro fault refused
      obtain ⟨place, inner, rfl, there, refused⟩ := refused
      exact refusalOfPart refused fun _ takes => .payload found there takes
    · split
      · trivial
      · exact .invalid rfl

theorem endsOfWrittens : (types : List ParamType) → ParamType.allClosed types = true →
    ∀ {values : List Written}, (∀ value ∈ values, Denoted value) →
    Ends (fun _ => True) (fun fault => ∃ type value, (type, value) ∈ types.zip values ∧ Refusal type value fault)
      (ofWrittens types values)
  | [], _, _, _ => trivial
  | _ :: _, _, [], _ => trivial
  | type :: types, closed, value :: values, denoted => by
    simp only [ParamType.allClosed, Bool.and_eq_true] at closed
    obtain ⟨here, later⟩ := List.forall_mem_cons.mp denoted
    refine endsBind (endsBlamed (endsOfWritten type closed.1 here) ?_) fun _ _ =>
      endsBind (endsBlamed (endsOfWrittens types closed.2 later) ?_) fun _ _ => trivial
    · exact fun fault refused => ⟨type, value, by simp, refused⟩
    · intro fault refused
      obtain ⟨inner, item, member, refused⟩ := refused
      exact ⟨inner, item, by simp [member], refused⟩

theorem endsOfVariant : (types : List ParamType) → ParamType.allClosed types = true → ∀ {index : Int}
    {payload : Written}, Denoted payload →
    Ends (fun _ => True) (fun fault => ∃ (place : Nat) (inner : ParamType), index = place ∧
      types[place]? = some inner ∧ Refusal inner payload fault) (ofVariant types index payload)
  | [], _, _, _, _ => trivial
  | type :: types, closed, index, payload, denoted => by
    simp only [ParamType.allClosed, Bool.and_eq_true] at closed
    rw [ofVariant]
    split
    · rename_i here
      refine endsMap (endsBlamed (endsOfWritten type closed.1 denoted) ?_) fun _ _ => trivial
      exact fun fault refused => ⟨0, type, here, rfl, refused⟩
    · refine endsBlamed (endsOfVariant types closed.2 denoted) fun fault refused => ?_
      obtain ⟨place, inner, same, there, refused⟩ := refused
      exact ⟨place + 1, inner, by omega, by simpa using there, refused⟩

end

end Token

open Token Outcome

/-- By a closed type, a value of JSON text has a token or is told to be invalid data; or else the index of a variant
in it cannot be read as a whole number, and then it is a misuse. -/
theorem ofWrittenOfJson {type : ParamType} (closed : type.isClosed = true) (json : Json) :
    (∃ token, ofWritten type json.toNative = .ok token) ∨
      (∃ cause : DataFault, ofWritten type json.toNative = .error (.invalidData cause) ∧
        (Fault.invalidData cause).report = .codec .invalidData cause.message cause.context) ∨
      ∃ (cause : Misuse) (head : Written), ofWritten type json.toNative = .error (.misuse cause) ∧
        TakesIndex type json.toNative head ∧ head.toWhole = .error cause := by
  have ends := endsOfWritten type closed ⟨json, rfl⟩
  cases outcome : ofWritten type json.toNative with
  | ok token => exact .inl ⟨token, rfl⟩
  | error fault =>
    rw [outcome] at ends
    cases ends with
    | @invalid cause named => exact .inr (.inl ⟨cause, rfl, if_pos named⟩)
    | @misread head cause takes whole => exact .inr (.inr ⟨cause, head, rfl, takes, whole⟩)

theorem ofWrittenOfJsonNested :
    let choice : ParamType := .enum [.primitive .u64, .vector (.string 3)] [] "Choice" ["left", "right"]
    let type : ParamType := .vector choice
    let json : Json := .arr [.obj [("right", .arr [.str "abc"])], .obj [("right", .null), ("left", .int 1)]]
    type.isClosed = true ∧
      ofWritten type json.toNative = .error (.invalidData (.oneVariantExpected choice "['left', 'right']")) ∧
      ((∃ token, ofWritten type json.toNative = .ok token) ∨
        (∃ cause : DataFault, ofWritten type json.toNative = .error (.invalidData cause) ∧
          (Fault.invalidData cause).report = .codec .invalidData cause.message cause.context) ∨
        ∃ (cause : Misuse) (head : Written), ofWritten type json.toNative = .error (.misuse cause) ∧
          TakesIndex type json.toNative head ∧ head.toWhole = .error cause) := by
  intro choice type json
  exact ⟨rfl, by rfl, ofWrittenOfJson rfl json⟩

theorem indexMisread :
    let type : ParamType := .enum [.primitive .u64, .primitive .u64] [] "Choice" ["left", "right"]
    ∀ wrong ∈ [(.null, .wrongKind), (.arr [.int 0], .wrongKind), (.obj [("left", .int 0)], .wrongKind),
        (.float (.infinite false), .tooLarge), ((.float .nan : Json), Misuse.badValue)],
      ofWritten type (Json.arr [wrong.1, .int 7]).toNative = .error (.misuse wrong.2) ∧
        (Fault.misuse wrong.2).report = .misuse wrong.2 := by
  intro type
  simp only [List.forall_mem_cons, List.not_mem_nil, false_implies, implies_true, and_true]
  exact ⟨⟨rfl, rfl⟩, ⟨rfl, rfl⟩, ⟨rfl, rfl⟩, ⟨rfl, rfl⟩, ⟨rfl, rfl⟩⟩

end WordAbi
