import WordAbi.Proofs.Outcome
import WordAbi.Token.Native
/-! The parts of written values: items in order, fields in order or by names, the variant that a value selects
and its payload. What each of them is read from is said once here, and what holds of a value holds of its parts. -/
namespace WordAbi

namespace Native

variable {ε : Type} {embedded : ε → ε → Bool}

theorem sameText {text other : String} :
    same embedded (.str text) (.str other) = true ↔ text = other := by
  simp [same]

theorem textOfSame {text : String} {key : Native ε} (alike : same embedded (.str text) key = true) :
    key = .str text := by
  cases key with
  | str word => rw [sameText.mp alike]
  | _ => cases alike

theorem keyOfSame {text : String} {key : Native ε} (alike : same embedded key (.str text) = true) :
    key = .str text := by
  cases key with
  | str word => rw [sameText.mp alike]
  | _ => simp [same, sameNumber, wholeNumber?] at alike

theorem entryOfLookup {text : String} {value : Native ε} {entries : List (Native ε × Native ε)}
    (found : lookup embedded (.str text) entries = some value) : (.str text, value) ∈ entries := by
  induction entries with
  | nil => cases found
  | cons entry entries ih =>
    rw [lookup] at found
    split at found
    · rename_i alike
      have here : entry = (.str text, value) := Prod.ext (keyOfSame alike) (Option.some.inj found)
      simp [here]
    · simp [ih found]

section

variable {entries others : List (Native ε × Native ε)}

theorem lookupIff (distinct : (entries.map Prod.fst).Nodup) {text : String} {value : Native ε} :
    lookup embedded (.str text) entries = some value ↔ (.str text, value) ∈ entries := by
  refine ⟨entryOfLookup, fun member => ?_⟩
  induction entries with
  | nil => cases member
  | cons entry entries ih =>
    obtain ⟨new, distinct⟩ := List.nodup_cons.mp distinct
    rw [lookup]
    rcases List.mem_cons.mp member with rfl | later
    · exact if_pos (sameText.mpr rfl)
    · rw [if_neg, ih distinct later]
      intro alike
      rw [keyOfSame alike] at new
      exact new (List.mem_map_of_mem later)

theorem lookupPerm (distinct : (entries.map Prod.fst).Nodup) (same : entries.Perm others) (text : String) :
    lookup embedded (.str text) entries = lookup embedded (.str text) others := by
  have again : (others.map Prod.fst).Nodup := (same.map Prod.fst).nodup_iff.mp distinct
  refine Option.ext fun value => ?_
  rw [lookupIff distinct, lookupIff again, same.mem_iff]

end

section

variable {before after : List (Native ε × Native ε)} {word : String} {value other : Native ε}

theorem keysReplaced : (before ++ (.str word, other) :: after).map Prod.fst =
    (before ++ (.str word, value) :: after).map Prod.fst := by
  simp

variable (distinct : ((before ++ (.str word, value) :: after).map Prod.fst).Nodup)
include distinct

theorem lookupReplaced :
    lookup embedded (.str word) (before ++ (.str word, other) :: after) = some other := by
  rw [← keysReplaced] at distinct
  exact (lookupIff distinct).mpr (by simp)

theorem lookupElsewhere {text : String} (elsewhere : text ≠ word) :
    lookup embedded (.str text) (before ++ (.str word, other) :: after) =
      lookup embedded (.str text) (before ++ (.str word, value) :: after) := by
  have again : ((before ++ (.str word, other) :: after).map Prod.fst).Nodup := by rwa [keysReplaced]
  refine Option.ext fun found => ?_
  rw [lookupIff distinct, lookupIff again]
  simp [elsewhere]

end

end Native

namespace Token
open Outcome

variable {type : ParamType} {value : Written} {items : List Written}

inductive InOrder : Written → List Written → Prop
  | list (items : List Written) : InOrder (.list items) items
  | tuple (items : List Written) : InOrder (.tuple items) items

structure ByName (names : List String) (entries : List (Written × Written)) (items : List Written) : Prop where
  given : names ≠ []
  known : ∀ entry ∈ entries, ∃ name ∈ names, entry.1 = .str name
  found : names.map (fun name => Native.lookup Token.same (.str name) entries) = items.map some

inductive Selects (names : List String) : Written → Int → Written → Prop
  | bare {name} {index : Nat} : names[index]? = some name → Selects names (.str name) index .null
  | entry {name payload} {index : Nat} : names[index]? = some name →
      Selects names (.dict [(.str name, payload)]) index payload
  | named {name value payload} {index : Nat} : names[index]? = some name → InOrder value [.str name, payload] →
      Selects names value index payload
  | counted {value index payload} : InOrder value [.int index, payload] → Selects names value index payload

theorem bytesCheckOk {found bytes : Bytes} : bytesOf.check found = .ok bytes ↔ found.length = 32 ∧ found = bytes := by
  unfold bytesOf.check
  split
  · rename_i length
    simp [length]
  · rename_i length
    simp [length]

theorem inOrderList {own : List Written} : InOrder (.list own) items ↔ items = own := by
  constructor
  · intro ordered
    cases ordered
    rfl
  · intro same
    rw [same]
    exact .list own

theorem itemsOfOk : itemsOf type value = .ok items ↔ InOrder value items := by
  constructor
  · intro found
    unfold itemsOf at found
    split at found <;> cases found
    · exact .list _
    · exact .tuple _
  · intro ordered
    cases ordered <;> rfl

theorem itemsOfLengthOk {length : Int} :
    itemsOfLength type length value = .ok items ↔ InOrder value items ∧ (items.length : Int) = length := by
  rw [itemsOfLength, bindOk]
  constructor
  · intro read
    obtain ⟨found, same, last⟩ := read
    split at last
    · rename_i count
      cases last
      exact ⟨itemsOfOk.mp same, count⟩
    · cases last
  · intro held
    obtain ⟨ordered, count⟩ := held
    exact ⟨items, itemsOfOk.mpr ordered, if_pos count⟩

theorem mapFound {α β : Type} {find : α → Option β} {keys : List α}
    (found : ∀ key ∈ keys, (find key).isSome = true) : keys.map find = (keys.filterMap find).map some := by
  induction keys with
  | nil => rfl
  | cons key keys ih =>
    obtain ⟨first, rest⟩ := List.forall_mem_cons.mp found
    obtain ⟨item, same⟩ := Option.isSome_iff_exists.mp first
    simp [same, ih rest]

theorem fieldValuesOk {count : Nat} {names : List String}
    (found : fieldValues type count names value = .ok items) :
    InOrder value items ∧ items.length = count ∨ ∃ entries, value = .dict entries ∧ ByName names entries items := by
  unfold fieldValues at found
  split at found
  · rename_i entries
    split at found
    · cases found
    · rename_i given
      dsimp only at found
      split at found
      · rename_i complete
        cases found
        simp only [Bool.and_eq_true, List.isEmpty_iff, List.filter_eq_nil_iff] at complete
        refine .inr ⟨entries, rfl, by simpa using given, fun entry member => ?_, ?_⟩
        · have named := complete.2 entry.1 (List.mem_map_of_mem member)
          simp only [Bool.not_eq_true', Bool.not_eq_false, List.any_eq_true] at named
          obtain ⟨name, own, alike⟩ := named
          exact ⟨name, own, Native.keyOfSame alike⟩
        · have looked : ∀ name ∈ names, (Native.lookup Token.same (.str name) entries).isSome = true := by
            intro name member
            simpa [Option.isSome_iff_ne_none] using complete.1 name member
          exact mapFound looked
      · cases found
  · obtain ⟨ordered, length⟩ := itemsOfLengthOk.mp found
    exact .inl ⟨ordered, by omega⟩

theorem fieldValuesOfNames {count : Nat} {names : List String} {entries : List (Written × Written)}
    (named : ByName names entries items) : fieldValues type count names (.dict entries) = .ok items := by
  have missing : (names.filter fun name => (Native.lookup Token.same (.str name) entries).isNone) = [] := by
    refine List.filter_eq_nil_iff.mpr fun name member none => ?_
    have looked : Native.lookup Token.same (.str name) entries ∈ items.map some :=
      named.found ▸ List.mem_map.mpr ⟨name, member, rfl⟩
    obtain ⟨value, _, same⟩ := List.mem_map.mp looked
    rw [← same] at none
    cases none
  have unexpected : ((entries.map (·.1)).filter fun key =>
      !names.any fun name => Written.same key (.str name)) = [] := by
    refine List.filter_eq_nil_iff.mpr fun key member => ?_
    obtain ⟨entry, among, rfl⟩ := List.mem_map.mp member
    obtain ⟨name, own, same⟩ := named.known entry among
    rw [Bool.not_eq_true', Bool.not_eq_false, List.any_eq_true]
    exact ⟨name, own, same ▸ Native.sameText.mpr rfl⟩
  rw [fieldValues, if_neg (by simpa using named.given)]
  dsimp only
  rw [missing, unexpected]
  have kept := congrArg (List.filterMap id) named.found
  rw [List.filterMap_map, List.filterMap_map] at kept
  exact (if_pos rfl).trans (congrArg Except.ok (kept.trans List.filterMap_some))

theorem fieldValuesDictOk {count : Nat} {names : List String} {entries : List (Written × Written)} :
    fieldValues type count names (.dict entries) = .ok items ↔ ByName names entries items := by
  refine ⟨fun found => ?_, fieldValuesOfNames⟩
  rcases fieldValuesOk found with ⟨ordered, _⟩ | ⟨_, same, named⟩
  · cases ordered
  · cases same
    exact named

theorem lengthFieldValues {count : Nat} {names : List String}
    (labelled : names.isEmpty = true ∨ names.length = count)
    (found : fieldValues type count names value = .ok items) : items.length = count := by
  rcases fieldValuesOk found with ⟨_, length⟩ | ⟨entries, _, named⟩
  · exact length
  · have length : names.length = items.length := by simpa using congrArg List.length named.found
    rw [← length]
    exact labelled.resolve_left (by simpa using named.given)

theorem variantNamedOk {names : List String} {key : Written} {index : Int}
    (found : variantNamed names key = .ok index) :
    ∃ (place : Nat) (name : String), index = place ∧ names[place]? = some name ∧ key = .str name := by
  unfold variantNamed at found
  split at found
  · rename_i place there
    cases found
    obtain ⟨inside, alike, _⟩ := List.findIdx?_eq_some_iff_getElem.mp there
    exact ⟨place, names[place], rfl, List.getElem?_eq_getElem inside, Native.textOfSame alike⟩
  · cases found

theorem variantOfOk {names : List String} {index : Int} {payload : Written}
    (found : variantOf type names value = .ok (index, payload)) :
    Selects names value index payload ∨ ∃ head, InOrder value [head, payload] ∧ (∀ text, head ≠ .str text) ∧
      head.toWhole = .ok index := by
  unfold variantOf at found
  split at found
  · obtain ⟨_, named, last⟩ := bindOk.mp found
    cases last
    obtain ⟨place, name, rfl, there, same⟩ := variantNamedOk named
    cases same
    exact .inl (.bare there)
  · obtain ⟨_, named, last⟩ := bindOk.mp found
    cases last
    obtain ⟨place, name, rfl, there, rfl⟩ := variantNamedOk named
    exact .inl (.entry there)
  · split at found <;> cases found
  · obtain ⟨items, both, found⟩ := bindOk.mp found
    obtain ⟨ordered, two⟩ := itemsOfLengthOk.mp both
    obtain ⟨head, second, rfl⟩ := List.length_eq_two.mp (Int.natCast_inj.mp two)
    simp only [List.getD_cons_zero, List.getD_cons_succ] at found
    split at found
    · obtain ⟨_, named, last⟩ := bindOk.mp found
      cases last
      obtain ⟨place, name, rfl, there, same⟩ := variantNamedOk named
      cases same
      exact .inl (.named there ordered)
    · rename_i other
      split at found <;> cases found
      rename_i whole
      exact .inr ⟨head, ordered, other, whole⟩

/-- Somewhere in the value, as it is read by the type, a pair has the head where an index or a name selects the
variant of an enum, and the head is no text. -/
inductive TakesIndex : ParamType → Written → Written → Prop
  | here {variants generics name names value head payload} : InOrder value [head, payload] →
      (∀ text, head ≠ .str text) → TakesIndex (.enum variants generics name names) value head
  | payload {variants generics name names value payload inner head} {index : Nat} :
      variantOf (.enum variants generics name names) names value = .ok (index, payload) →
      variants[index]? = some inner → TakesIndex inner payload head →
      TakesIndex (.enum variants generics name names) value head
  | array {element length value items item head} : InOrder value items → item ∈ items →
      TakesIndex element item head → TakesIndex (.array element length) value head
  | vector {element value items item head} : InOrder value items → item ∈ items →
      TakesIndex element item head → TakesIndex (.vector element) value head
  | tuple {elements value items element item head} : InOrder value items → (element, item) ∈ elements.zip items →
      TakesIndex element item head → TakesIndex (.tuple elements) value head
  | struct {fields generics name names value items field item head} :
      fieldValues (.struct fields generics name names) fields.length names value = .ok items →
      (field, item) ∈ fields.zip items → TakesIndex field item head →
      TakesIndex (.struct fields generics name names) value head

structure Hereditary (holds : Written → Prop) : Prop where
  null : holds .null
  list : ∀ {items}, holds (.list items) → ∀ item ∈ items, holds item
  tuple : ∀ {items}, holds (.tuple items) → ∀ item ∈ items, holds item
  dict : ∀ {entries}, holds (.dict entries) → ∀ entry ∈ entries, holds entry.2

section

variable {holds : Written → Prop}

theorem holdsItems (hereditary : Hereditary holds) (whole : holds value) (ordered : InOrder value items) :
    ∀ item ∈ items, holds item := by
  cases ordered with
  | list => exact hereditary.list whole
  | tuple => exact hereditary.tuple whole

theorem holdsFields {count : Nat} {names : List String} (hereditary : Hereditary holds) (whole : holds value)
    (found : fieldValues type count names value = .ok items) : ∀ item ∈ items, holds item := by
  rcases fieldValuesOk found with ⟨ordered, _⟩ | ⟨entries, rfl, named⟩
  · exact holdsItems hereditary whole ordered
  · intro item member
    have among : some item ∈ names.map fun name => Native.lookup Token.same (.str name) entries := by
      simp [named.found, member]
    obtain ⟨name, _, looked⟩ := List.mem_map.mp among
    exact hereditary.dict whole _ (Native.entryOfLookup looked)

theorem holdsPayload {names : List String} {index : Int} {payload : Written} (hereditary : Hereditary holds)
    (whole : holds value) (found : variantOf type names value = .ok (index, payload)) : holds payload := by
  have second {head : Written} (ordered : InOrder value [head, payload]) : holds payload :=
    holdsItems hereditary whole ordered payload (by simp)
  rcases variantOfOk found with selects | ⟨head, ordered, _⟩
  · cases selects with
    | bare => exact hereditary.null
    | entry => exact hereditary.dict whole _ List.mem_cons_self
    | named _ ordered => exact second ordered
    | counted ordered => exact second ordered
  · exact second ordered

end

end Token

end WordAbi
