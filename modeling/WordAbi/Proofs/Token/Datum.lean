import Mathlib.Data.List.Nodup
import WordAbi.Proofs.Token.Written
/-! Native values and their tokens. Tokens fit among values that hold none; and the value that a token of a
type stands for has that token again, when the members of each struct and enum have names of their own. -/
namespace WordAbi

namespace ParamType

mutual

/-- The members of a struct or an enum have different names, wherever a value of the type has a part. -/
def isDistinct : ParamType → Bool
  | array element _ => isDistinct element
  | vector element => isDistinct element
  | tuple elements => allDistinct elements
  | struct fields _ _ names => decide names.Nodup && allDistinct fields
  | enum variants _ _ names => decide names.Nodup && allDistinct variants
  | primitive _ => true
  | string _ => true
  | unspecified => true

def allDistinct : List ParamType → Bool
  | [] => true
  | type :: types => isDistinct type && allDistinct types

end

theorem allDistinctEqAll (types : List ParamType) : allDistinct types = types.all isDistinct := by
  induction types with
  | nil => rfl
  | cons type types ih => rw [allDistinct, ih, List.all_cons]

end ParamType

namespace Native

variable {ε δ : Type} {embedded : ε → ε → Bool}

theorem mapItemsEq (f : ε → δ) (values : List (Native ε)) : map.mapItems f values = values.map (map f) := by
  induction values with
  | nil => rfl
  | cons value values ih => rw [map.mapItems, ih, List.map_cons]

theorem mapEntriesEq (f : ε → δ) (entries : List (Native ε × Native ε)) :
    map.mapEntries f entries = entries.map fun entry => (map f entry.1, map f entry.2) := by
  induction entries with
  | nil => rfl
  | cons entry entries ih => rw [map.mapEntries, ih, List.map_cons]

theorem insertNew {key value : Native ε} {entries : List (Native ε × Native ε)}
    (new : ∀ entry ∈ entries, same embedded entry.1 key = false) :
    insert embedded key value entries = entries ++ [(key, value)] := by
  induction entries with
  | nil => rfl
  | cons entry entries ih =>
    obtain ⟨here, later⟩ := List.forall_mem_cons.mp new
    rw [insert, if_neg (by simp [here]), ih later]
    rfl

def entriesOf (names : List String) (values : List (Native ε)) : List (Native ε × Native ε) :=
  (names.map .str).zip values

theorem insertAllNew {names : List String} (distinct : names.Nodup) {values : List (Native ε)}
    {before : List (Native ε × Native ε)}
    (new : ∀ entry ∈ before, ∀ name ∈ names, same embedded entry.1 (.str name) = false) :
    (entriesOf names values).foldl (fun es e => insert embedded e.1 e.2 es) before =
      before ++ entriesOf names values := by
  induction names generalizing values before with
  | nil => simp [entriesOf]
  | cons name names ih =>
    cases values with
    | nil => simp [entriesOf]
    | cons value values =>
      obtain ⟨other, distinct⟩ := List.nodup_cons.mp distinct
      change (entriesOf names values).foldl _ (insert embedded (.str name) value before) =
        before ++ (.str name, value) :: entriesOf names values
      rw [insertNew fun entry member => new entry member name List.mem_cons_self, ih distinct,
        List.append_assoc]
      · rfl
      · intro entry member later among
        rcases List.mem_append.mp member with member | last
        · exact new entry member later (List.mem_cons_of_mem _ among)
        · rw [List.mem_singleton.mp last, Bool.eq_false_iff, Ne, sameText]
          rintro rfl
          exact other among

theorem ofEntriesNamed {names : List String} (distinct : names.Nodup) (values : List (Native ε)) :
    ofEntries embedded (entriesOf names values) = .dict (entriesOf names values) := by
  rw [ofEntries, insertAllNew distinct (by simp), List.nil_append]

theorem lookupNamed {names : List String} {values : List (Native ε)} (distinct : names.Nodup)
    (aligned : names.length = values.length) :
    names.map (fun name => lookup embedded (.str name) (entriesOf names values)) = values.map some := by
  induction names generalizing values with
  | nil =>
    obtain rfl := List.length_eq_zero_iff.mp aligned.symm
    rfl
  | cons name names ih =>
    match values, aligned with
    | value :: values, aligned =>
      obtain ⟨other, distinct⟩ := List.nodup_cons.mp distinct
      have here : lookup embedded (.str name) (entriesOf (name :: names) (value :: values)) = some value :=
        if_pos (sameText.mpr rfl)
      have later : ∀ word ∈ names, lookup embedded (.str word) (entriesOf (name :: names) (value :: values)) =
          lookup embedded (.str word) (entriesOf names values) := by
        rintro word member
        refine if_neg fun same => ?_
        rw [sameText.mp same] at other
        exact other member
      rw [List.map_cons, List.map_cons, here, List.map_congr_left later, ih distinct (by simpa using aligned)]

end Native

namespace Datum

variable {ε : Type}

theorem liftList (values : List Datum) : (Datum.lift (.list values) : Native ε) = .list (values.map lift) :=
  congrArg Native.list (Native.mapItemsEq _ values)

theorem liftTuple (values : List Datum) : (Datum.lift (.tuple values) : Native ε) = .tuple (values.map lift) :=
  congrArg Native.tuple (Native.mapItemsEq _ values)

theorem liftDict (entries : List (Datum × Datum)) :
    (Datum.lift (.dict entries) : Native ε) = .dict (entries.map fun entry => (entry.1.lift, entry.2.lift)) :=
  congrArg Native.dict (Native.mapEntriesEq _ entries)

theorem liftNamed (names : List String) (values : List Datum) :
    (Datum.lift (.dict (Native.entriesOf names values)) : Native ε) =
      .dict (Native.entriesOf names (values.map lift)) := by
  rw [liftDict, Native.entriesOf, Native.entriesOf]
  congr 1
  induction names generalizing values with
  | nil => rfl
  | cons name names ih =>
    cases values with
    | nil => rfl
    | cons value values => exact congrArg _ (ih values)

end Datum

namespace Token
open Outcome

def Plain (value : Written) : Prop := ∃ datum : Datum, value = datum.lift

theorem plainOfLifts (values : List Datum) : ∀ value ∈ (values.map Datum.lift : List Written), Plain value := by
  intro value member
  obtain ⟨datum, _, same⟩ := List.mem_map.mp member
  exact ⟨datum, same.symm⟩

theorem plainHereditary : Hereditary Plain where
  null := ⟨.null, rfl⟩
  list := by
    intro items plain
    obtain ⟨datum, same⟩ := plain
    cases datum with
    | list values =>
      cases same.trans (Datum.liftList values)
      exact plainOfLifts values
    | embedded e => exact e.elim
    | _ => cases same
  tuple := by
    intro items plain
    obtain ⟨datum, same⟩ := plain
    cases datum with
    | tuple values =>
      cases same.trans (Datum.liftTuple values)
      exact plainOfLifts values
    | embedded e => exact e.elim
    | _ => cases same
  dict := by
    intro entries plain
    obtain ⟨datum, same⟩ := plain
    cases datum with
    | dict own =>
      cases same.trans (Datum.liftDict own)
      intro entry member
      obtain ⟨one, _, rfl⟩ := List.mem_map.mp member
      exact ⟨one.2, rfl⟩
    | embedded e => exact e.elim
    | _ => cases same

section

variable {type : ParamType} {value : Written}

theorem fitsOrPlain {parts : Prop} (plain : Plain value) (holds : parts) : FitsOr type value parts := by
  obtain ⟨datum, rfl⟩ := plain
  cases datum with
  | embedded e => exact e.elim
  | _ => exact holds

end

mutual

theorem tokensFitOfPlain : (type : ParamType) → ∀ {value : Written}, Plain value → TokensFit type value
  | .primitive _, _, plain => fitsOrPlain plain trivial
  | .string _, _, plain => fitsOrPlain plain trivial
  | .array element _, _, plain => fitsOrPlain plain fun _ found item member =>
      tokensFitOfPlain element (holdsItems plainHereditary plain (itemsOfLengthOk.mp found).1 item member)
  | .vector element, _, plain => fitsOrPlain plain fun _ found item member =>
      tokensFitOfPlain element (holdsItems plainHereditary plain (itemsOfOk.mp found) item member)
  | .tuple elements, _, plain => fitsOrPlain plain fun _ found =>
      allTokensFitOfPlain elements (holdsItems plainHereditary plain (itemsOfLengthOk.mp found).1)
  | .struct fields _ _ _, _, plain => fitsOrPlain plain fun _ found =>
      allTokensFitOfPlain fields (holdsFields plainHereditary plain found)
  | .enum variants _ _ _, _, plain => fitsOrPlain plain fun index _ found =>
      variantTokensFitOfPlain variants index (holdsPayload plainHereditary plain found)
  | .unspecified, _, plain => fitsOrPlain plain trivial

theorem allTokensFitOfPlain : (types : List ParamType) → ∀ {values : List Written},
    (∀ value ∈ values, Plain value) → AllTokensFit types values
  | [], _, _ => trivial
  | _ :: _, [], _ => trivial
  | type :: types, value :: values, plain => by
    obtain ⟨here, later⟩ := List.forall_mem_cons.mp plain
    exact ⟨tokensFitOfPlain type here, allTokensFitOfPlain types later⟩

theorem variantTokensFitOfPlain : (types : List ParamType) → ∀ (index : Int) {payload : Written},
    Plain payload → VariantTokensFit types index payload
  | [], _, _, _ => trivial
  | type :: types, index, _, plain => by
    rw [VariantTokensFit]
    split
    · exact tokensFitOfPlain type plain
    · exact variantTokensFitOfPlain types (index - 1) plain

end

structure Restores (type : ParamType) (token : Token) (value : Datum) : Prop where
  stands : toDatum (some type) token = .ok value
  written : ofWritten type value.lift = .ok token

structure RestoresAll (types : List ParamType) (tokens : List Token) (values : List Datum) : Prop where
  stand : toDataZip (types.map some) tokens = .ok values
  written : ofWrittens types (values.map Datum.lift) = .ok tokens
  aligned : values.length = types.length

theorem restoresScalar {p : Primitive} {token : Token} (value : IsScalarValue p token) :
    ∃ datum, Restores (.primitive p) token datum := by
  cases p with
  | unit =>
    obtain rfl := value
    exact ⟨.null, rfl, rfl⟩
  | bool =>
    obtain ⟨b, rfl⟩ := value
    exact ⟨.bool b, rfl, rfl⟩
  | b256 =>
    obtain ⟨bs, rfl, length⟩ := value
    refine ⟨.bytes bs, rfl, mapOk.mpr ⟨bs, if_pos length, rfl⟩⟩
  | _ =>
    obtain ⟨n, rfl, _, _⟩ := value
    exact ⟨.int n, rfl, rfl⟩

theorem restoresEach {element : ParamType} {items : List Token}
    (each : ∀ item ∈ items, ∃ datum, Restores element item datum) :
    ∃ values : List Datum, toDataEach (some element) items = .ok values ∧
      (values.map Datum.lift).mapM (ofWritten element) = .ok items ∧ values.length = items.length := by
  induction items with
  | nil => exact ⟨[], rfl, rfl, rfl⟩
  | cons item items ih =>
    obtain ⟨here, later⟩ := List.forall_mem_cons.mp each
    obtain ⟨value, stands, written⟩ := here
    obtain ⟨values, stand, writtens, aligned⟩ := ih later
    refine ⟨value :: values, ?_, ?_, congrArg Nat.succ aligned⟩
    · rw [toDataEach, stands, stand]
      rfl
    · rw [List.map_cons, List.mapM_cons, written, writtens]
      rfl

theorem restoresArray {element : ParamType} {length : Int} {items : List Token}
    (count : (items.length : Int) = length) (each : ∀ item ∈ items, ∃ datum, Restores element item datum) :
    ∃ datum, Restores (.array element length) (.sequence .array items) datum := by
  obtain ⟨values, stand, written, aligned⟩ := restoresEach each
  refine ⟨.list values, ?_, ?_⟩
  · simp only [toDatum, elementOf, stand]
    rfl
  · rw [Datum.liftList]
    have found : itemsOfLength (.array element length) length (.list (values.map Datum.lift)) =
        .ok (values.map Datum.lift) := itemsOfLengthOk.mpr ⟨.list _, by rw [List.length_map, aligned, count]⟩
    exact bindOk.mpr ⟨_, found, bindOk.mpr ⟨_, written, rfl⟩⟩

theorem restoresVector {element : ParamType} {items : List Token}
    (each : ∀ item ∈ items, ∃ datum, Restores element item datum) :
    ∃ datum, Restores (.vector element) (.sequence .vector items) datum := by
  obtain ⟨values, stand, written, _⟩ := restoresEach each
  refine ⟨.list values, ?_, ?_⟩
  · simp only [toDatum, elementOf, stand]
    rfl
  · rw [Datum.liftList]
    exact bindOk.mpr ⟨_, rfl, bindOk.mpr ⟨_, written, rfl⟩⟩

theorem restoresTuple {elements : List ParamType} {items : List Token} {values : List Datum}
    (all : RestoresAll elements items values) :
    Restores (.tuple elements) (.sequence .tuple items) (.tuple values) := by
  refine ⟨?_, ?_⟩
  · simp only [toDatum, all.stand]
    rfl
  · rw [Datum.liftTuple]
    have found : itemsOfLength (.tuple elements) elements.length (.tuple (values.map Datum.lift)) =
        .ok (values.map Datum.lift) := itemsOfLengthOk.mpr ⟨.tuple _, by rw [List.length_map, all.aligned]⟩
    exact bindOk.mpr ⟨_, found, bindOk.mpr ⟨_, all.written, rfl⟩⟩

theorem fieldValuesNamed {type : ParamType} {count : Nat} {names : List String} {values : List Written}
    (given : ¬ names.isEmpty = true) (distinct : names.Nodup) (aligned : names.length = values.length) :
    fieldValues type count names (.dict (Native.entriesOf names values)) = .ok values := by
  have known : ∀ entry ∈ Native.entriesOf names values, ∃ name ∈ names, entry.1 = .str name := by
    intro entry member
    obtain ⟨name, own, same⟩ := List.mem_map.mp (List.of_mem_zip member).1
    exact ⟨name, own, same.symm⟩
  exact fieldValuesOfNames ⟨by simpa using given, known, Native.lookupNamed distinct aligned⟩

theorem liftOfNamed {names : List String} (distinct : names.Nodup) (values : List Datum) :
    ((named names values).lift : Written) =
      if names.isEmpty then .list (values.map Datum.lift)
      else .dict (Native.entriesOf names (values.map Datum.lift)) := by
  unfold named
  split
  · rw [Datum.liftList]
  · rw [← Native.entriesOf, Native.ofEntriesNamed distinct, Datum.liftNamed]

theorem restoresStruct {fields generics : List ParamType} {name : String} {names : List String}
    {items : List Token} {values : List Datum} (labelled : names.isEmpty = true ∨ names.length = fields.length)
    (distinct : names.Nodup) (all : RestoresAll fields items values) :
    Restores (.struct fields generics name names) (.sequence .struct items) (named names values) := by
  refine ⟨?_, ?_⟩
  · simp only [toDatum, all.stand]
    rfl
  · have count : (values.map (Datum.lift : Datum → Written)).length = fields.length := by
      rw [List.length_map, all.aligned]
    rw [liftOfNamed distinct]
    split
    · have found : fieldValues (.struct fields generics name names) fields.length names
          (.list (values.map Datum.lift)) = .ok (values.map Datum.lift) :=
        itemsOfLengthOk.mpr ⟨.list _, by rw [count]⟩
      exact bindOk.mpr ⟨_, found, bindOk.mpr ⟨_, all.written, rfl⟩⟩
    · rename_i given
      have found : fieldValues (.struct fields generics name names) fields.length names
          (.dict (Native.entriesOf names (values.map Datum.lift))) = .ok (values.map Datum.lift) :=
        fieldValuesNamed given distinct (by rw [count, labelled.resolve_left given])
      exact bindOk.mpr ⟨_, found, bindOk.mpr ⟨_, all.written, rfl⟩⟩

theorem variantNamedAt {names : List String} {name : String} {index : Nat} (distinct : names.Nodup)
    (there : names[index]? = some name) : variantNamed names (.str name) = .ok index := by
  obtain ⟨inside, same⟩ := List.getElem?_eq_some_iff.mp there
  have found : (names.findIdx? fun word => Written.same (.str word) (.str name)) = some index := by
    refine List.findIdx?_eq_some_iff_getElem.mpr ⟨inside, Native.sameText.mpr same, fun j before like => ?_⟩
    have twice := (Native.sameText.mp like).trans same.symm
    exact absurd (distinct.getElem_inj_iff.mp twice) (Nat.ne_of_lt before)
  rw [variantNamed, found]

def variantDatum (names : List String) (index : Nat) (payload : Datum) : Datum :=
  match names[index]? with
  | some name => .dict [(.str name, payload)]
  | none => .tuple [.int index, payload]

theorem toDatumEnum {type : Option ParamType} {variants : List ParamType} (names : List String) {index : Nat}
    {inner : ParamType} (payload : Token) (there : variants[index]? = some inner) :
    toDatum type (.enum index payload ⟨variants, names⟩) =
      (toDatum (some inner) payload).map (variantDatum names index) := by
  have typed : EnumVariants.typeOf ⟨variants, names⟩ index = .ok inner := by
    rw [EnumVariants.typeOf, EnumVariants.typeOfNat, there]
  have named : EnumVariants.name? ⟨variants, names⟩ index = names[index]? := by
    rw [EnumVariants.name?, if_neg (by omega), Int.toNat_natCast]
  rw [toDatum, typed]
  cases stands : toDatum (some inner) payload with
  | error fault => simp [bind, Except.bind, Except.map, stands]
  | ok value =>
    cases label : names[index]? <;>
      simp [bind, Except.bind, Except.map, variantDatum, stands, named, label]

theorem restoresEnum {variants generics : List ParamType} {name : String} {names : List String} {index : Nat}
    {inner : ParamType} {payload : Token} {datum : Datum} (distinct : names.Nodup)
    (there : variants[index]? = some inner) (restores : Restores inner payload datum)
    (chosen : ofVariant variants index datum.lift = .ok (some payload)) :
    Restores (.enum variants generics name names) (.enum index payload ⟨variants, names⟩)
      (variantDatum names index datum) := by
  have stands : toDatum (some (.enum variants generics name names)) (.enum index payload ⟨variants, names⟩) =
      .ok (variantDatum names index datum) := by
    rw [toDatumEnum names payload there, restores.stands]
    rfl
  refine ⟨stands, ?_⟩
  unfold variantDatum
  cases label : names[index]? with
  | some word =>
    have found : variantOf (.enum variants generics name names) names (.dict [(.str word, datum.lift)]) =
        .ok (index, datum.lift) := bindOk.mpr ⟨index, variantNamedAt distinct label, rfl⟩
    rw [Datum.liftDict]
    exact bindOk.mpr ⟨_, found, bindOk.mpr ⟨_, chosen, rfl⟩⟩
  | none =>
    rw [Datum.liftTuple]
    exact bindOk.mpr ⟨(index, datum.lift), rfl, bindOk.mpr ⟨_, chosen, rfl⟩⟩

mutual

theorem restoresOfValue : (type : ParamType) → type.isLabelled = true → type.isDistinct = true →
    ∀ {token : Token}, IsValue type token → ∃ datum, Restores type token datum
  | .primitive _, _, _, _, value => restoresScalar value
  | .string length, _, _, _, value => by
    obtain ⟨text, rfl, ascii, count⟩ := value
    have checked : checkedText text length = .ok text := checkedTextOk.mpr ⟨ascii, count, rfl⟩
    exact ⟨.str text, by rw [toDatum, checked]; rfl, rfl⟩
  | .array element _, labelled, distinct, _, value => by
    obtain ⟨items, rfl, count, _, values⟩ := value
    exact restoresArray count fun item member => restoresOfValue element labelled distinct (values item member)
  | .vector element, labelled, distinct, _, value => by
    obtain ⟨items, rfl, _, values⟩ := value
    exact restoresVector fun item member => restoresOfValue element labelled distinct (values item member)
  | .tuple elements, labelled, distinct, _, value => by
    obtain ⟨items, rfl, values⟩ := value
    obtain ⟨values, all⟩ := restoresAllOfValues elements labelled distinct values
    exact ⟨_, restoresTuple all⟩
  | .struct fields _ _ names, labelled, distinct, _, value => by
    obtain ⟨items, rfl, values⟩ := value
    simp only [ParamType.isLabelled, Bool.and_eq_true, Bool.or_eq_true, beq_iff_eq] at labelled
    simp only [ParamType.isDistinct, Bool.and_eq_true, decide_eq_true_eq] at distinct
    obtain ⟨values, all⟩ := restoresAllOfValues fields labelled.2 distinct.2 values
    exact ⟨_, restoresStruct labelled.1 distinct.1 all⟩
  | .enum variants _ _ names, labelled, distinct, _, value => by
    obtain ⟨index, payload, rfl, _, _, value⟩ := value
    simp only [ParamType.isLabelled, Bool.and_eq_true] at labelled
    simp only [ParamType.isDistinct, Bool.and_eq_true, decide_eq_true_eq] at distinct
    obtain ⟨inner, there, datum, restores, chosen⟩ := restoresVariant variants labelled.2 distinct.2 value
    exact ⟨_, restoresEnum distinct.1 there restores chosen⟩
  | .unspecified, _, _, _, value => value.elim

theorem restoresAllOfValues : (types : List ParamType) → ParamType.allLabelled types = true →
    ParamType.allDistinct types = true → ∀ {tokens : List Token}, AreValues types tokens →
    ∃ values, RestoresAll types tokens values
  | [], _, _, _, values => by
    obtain rfl := values
    exact ⟨[], rfl, rfl, rfl⟩
  | type :: types, labelled, distinct, _, values => by
    obtain ⟨token, tokens, rfl, value, values⟩ := values
    simp only [ParamType.allLabelled, Bool.and_eq_true] at labelled
    simp only [ParamType.allDistinct, Bool.and_eq_true] at distinct
    obtain ⟨datum, stands, written⟩ := restoresOfValue type labelled.1 distinct.1 value
    obtain ⟨data, stand, writtens, aligned⟩ := restoresAllOfValues types labelled.2 distinct.2 values
    refine ⟨datum :: data, bindOk.mpr ⟨datum, stands, bindOk.mpr ⟨data, stand, rfl⟩⟩, ?_,
      congrArg Nat.succ aligned⟩
    exact bindOk.mpr ⟨token, written, bindOk.mpr ⟨tokens, writtens, rfl⟩⟩

theorem restoresVariant : (types : List ParamType) → ParamType.allLabelled types = true →
    ParamType.allDistinct types = true → ∀ {index : Nat} {token : Token}, IsVariantValue types index token →
    ∃ type, types[index]? = some type ∧ ∃ datum, Restores type token datum ∧
      ofVariant types index datum.lift = .ok (some token)
  | [], _, _, _, _, value => value.elim
  | type :: types, labelled, distinct, index, token, value => by
    simp only [ParamType.allLabelled, Bool.and_eq_true] at labelled
    simp only [ParamType.allDistinct, Bool.and_eq_true] at distinct
    cases index with
    | zero =>
      obtain ⟨datum, restores⟩ := restoresOfValue type labelled.1 distinct.1 value
      exact ⟨type, rfl, datum, restores, mapOk.mpr ⟨token, restores.written, rfl⟩⟩
    | succ index =>
      obtain ⟨inner, there, datum, restores, chosen⟩ := restoresVariant types labelled.2 distinct.2 value
      refine ⟨inner, there, datum, restores, ?_⟩
      rw [ofVariant, if_neg (by omega)]
      simpa using chosen

end

end Token

open Token

/-- By a type that gives the members of each struct and enum names of their own or none, a value stands for a
native value, and that is written as the same token. -/
theorem ofWrittenToDatum {type : ParamType} (labelled : type.isLabelled = true) (distinct : type.isDistinct = true)
    {token : Token} (value : IsValue type token) :
    ∃ datum : Datum, toDatum (some type) token = .ok datum ∧ ofWritten type datum.lift = .ok token := by
  obtain ⟨datum, stands, written⟩ := restoresOfValue type labelled distinct value
  exact ⟨datum, stands, written⟩

theorem ofWrittenToDatumNested :
    let pair : List ParamType := [.primitive .unit, .tuple [.primitive .u8, .primitive .bool]]
    let word : List ParamType := [.string 3, .array (.primitive .u16) 1]
    let type : ParamType := .vector (.struct [.primitive .b256, .enum pair [] "Choice" ["none", "both"],
      .enum word [] "" []] [] "Entry" ["key", "choice", "word"])
    let token : Token := .sequence .vector [.sequence .struct [.b256 (Bytes.zeros 32),
      .enum 1 (.sequence .tuple [.number .u8 255, .bool true]) ⟨pair, ["none", "both"]⟩,
      .enum 0 (.string "abc" 3) ⟨word, []⟩]]
    type.isLabelled = true ∧ type.isDistinct = true ∧ IsValue type token ∧
      ∃ datum : Datum, toDatum (some type) token = .ok datum ∧ ofWritten type datum.lift = .ok token := by
  intro pair word type token
  have labelled : type.isLabelled = true := rfl
  have distinct : type.isDistinct = true := rfl
  have both : IsValue (.enum pair [] "Choice" ["none", "both"])
      (.enum 1 (.sequence .tuple [.number .u8 255, .bool true]) ⟨pair, ["none", "both"]⟩) :=
    ⟨1, _, rfl, by decide, rfl, _, rfl, _, _, rfl, ⟨255, rfl, by decide, by decide⟩, _, _, rfl, ⟨true, rfl⟩, rfl⟩
  have text : IsValue (.enum word [] "" []) (.enum 0 (.string "abc" 3) ⟨word, []⟩) :=
    ⟨0, _, rfl, by decide, rfl, "abc", rfl, by simp, rfl⟩
  have value : IsValue type token :=
    ⟨_, rfl, rfl, List.forall_mem_singleton.mpr
      ⟨_, rfl, _, _, rfl, ⟨_, rfl, rfl⟩, _, _, rfl, both, _, _, rfl, text, rfl⟩⟩
  exact ⟨labelled, distinct, value, ofWrittenToDatum labelled distinct value⟩

end WordAbi
