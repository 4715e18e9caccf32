import WordAbi.Proofs.Token.Form
/-! Tokens of written values. Whatever way a value is written in, its token is a value of the type as soon as
it can be encoded, when the tokens that are written among it are. -/
namespace WordAbi

namespace ParamType

mutual

def isSpecified : ParamType → Bool
  | primitive _ => true
  | string _ => true
  | array element _ => isSpecified element
  | vector element => isSpecified element
  | tuple elements => allSpecified elements
  | struct fields _ _ _ => allSpecified fields
  | enum variants _ _ _ => allSpecified variants
  | unspecified => false

def allSpecified : List ParamType → Bool
  | [] => true
  | type :: types => isSpecified type && allSpecified types

end

mutual

def isLabelled : ParamType → Bool
  | array element _ => isLabelled element
  | vector element => isLabelled element
  | tuple elements => allLabelled elements
  | struct fields _ _ names => (names.isEmpty || names.length == fields.length) && allLabelled fields
  | enum variants _ _ names => (names.isEmpty || names.length == variants.length) && allLabelled variants
  | primitive _ => true
  | string _ => true
  | unspecified => true

def allLabelled : List ParamType → Bool
  | [] => true
  | type :: types => isLabelled type && allLabelled types

end

theorem allLabelledEqAll (types : List ParamType) : allLabelled types = types.all isLabelled := by
  induction types with
  | nil => rfl
  | cons type types ih => rw [allLabelled, ih, List.all_cons]

mutual

theorem coveredOfIsLabelled : (type : ParamType) → type.isLabelled = true → type.isCovered = true
  | primitive _, _ => rfl
  | string _, _ => rfl
  | array element _, labelled => coveredOfIsLabelled element labelled
  | vector element, labelled => coveredOfIsLabelled element labelled
  | tuple elements, labelled => allCoveredOfAllLabelled elements labelled
  | struct fields _ _ names, labelled => by
    simp only [isLabelled, Bool.and_eq_true, Bool.or_eq_true, beq_iff_eq] at labelled
    simp only [isCovered, Bool.and_eq_true, Bool.or_eq_true, decide_eq_true_eq]
    exact ⟨labelled.1.imp_right fun same => Nat.le_of_eq same.symm, allCoveredOfAllLabelled fields labelled.2⟩
  | enum variants _ _ _, labelled => by
    simp only [isLabelled, Bool.and_eq_true] at labelled
    exact allCoveredOfAllLabelled variants labelled.2
  | unspecified, _ => rfl

theorem allCoveredOfAllLabelled : (types : List ParamType) → allLabelled types = true → allCovered types = true
  | [], _ => rfl
  | type :: types, labelled => by
    simp only [allLabelled, Bool.and_eq_true] at labelled
    simp [allCovered, coveredOfIsLabelled type labelled.1, allCoveredOfAllLabelled types labelled.2]

end

mutual

theorem hasSizeOfIsSpecified : (type : ParamType) → type.isSpecified = true → type.hasSize = true
  | primitive _, _ => rfl
  | string _, _ => rfl
  | array element _, specified => hasSizeOfIsSpecified element specified
  | vector _, _ => rfl
  | tuple elements, specified => allHaveSizeOfAllSpecified elements specified
  | struct fields _ _ _, specified => allHaveSizeOfAllSpecified fields specified
  | enum variants _ _ _, specified => allHaveSizeOfAllSpecified variants specified

theorem allHaveSizeOfAllSpecified : (types : List ParamType) → allSpecified types = true →
    allHaveSize types = true
  | [], _ => rfl
  | type :: types, specified => by
    simp only [allSpecified, Bool.and_eq_true] at specified
    simp [allHaveSize, hasSizeOfIsSpecified type specified.1, allHaveSizeOfAllSpecified types specified.2]

end

end ParamType

namespace Token
open Outcome Chunk

def FitsOr (type : ParamType) (value : Written) (parts : Prop) : Prop :=
  match value with
  | .embedded token => IsValue type token
  | _ => parts

mutual

/-- Every token that is written among the value is a value of the type in whose place it stands. -/
def TokensFit : ParamType → Written → Prop
  | .array element length, value => FitsOr (.array element length) value
    (∀ items, itemsOfLength (.array element length) length value = .ok items →
      ∀ item ∈ items, TokensFit element item)
  | .vector element, value => FitsOr (.vector element) value
    (∀ items, itemsOf (.vector element) value = .ok items → ∀ item ∈ items, TokensFit element item)
  | .tuple elements, value => FitsOr (.tuple elements) value
    (∀ items, itemsOfLength (.tuple elements) elements.length value = .ok items → AllTokensFit elements items)
  | .struct fields generics name names, value => FitsOr (.struct fields generics name names) value
    (∀ items, fieldValues (.struct fields generics name names) fields.length names value = .ok items →
      AllTokensFit fields items)
  | .enum variants generics name names, value => FitsOr (.enum variants generics name names) value
    (∀ index payload, variantOf (.enum variants generics name names) names value = .ok (index, payload) →
      VariantTokensFit variants index payload)
  | .primitive p, value => FitsOr (.primitive p) value True
  | .string length, value => FitsOr (.string length) value True
  | .unspecified, value => FitsOr .unspecified value True

def AllTokensFit : List ParamType → List Written → Prop
  | type :: types, value :: values => TokensFit type value ∧ AllTokensFit types values
  | _, _ => True

def VariantTokensFit : List ParamType → (index : Int) → Written → Prop
  | [], _, _ => True
  | type :: types, index, payload =>
    if index = 0 then TokensFit type payload else VariantTokensFit types (index - 1) payload

end

section

variable {limit other : Int} {depth : Nat}

theorem formUnlessToken {type : ParamType} {value : Written} {read : Written → Except Fault Token} {token : Token}
    {parts : Prop} (written : unlessToken value read = .ok token) (fits : FitsOr type value parts)
    (form : read value = .ok token → parts → HasForm type token) : HasForm type token := by
  unfold unlessToken at written
  split at written
  · cases written
    exact formOfValue type fits
  · rename_i other
    unfold FitsOr at fits
    split at fits
    · exact absurd rfl (other _)
    · exact form written fits

theorem encodedEach {tokens : List Token} {chunks : List Chunk}
    (encoded : encodeAllAt limit depth tokens = .ok chunks) :
    ∀ token ∈ tokens, ∃ own, encodeAt limit depth token = .ok own := by
  induction tokens generalizing chunks with
  | nil => simp
  | cons token tokens ih =>
    obtain ⟨first, rest, head, tail, _⟩ := encodeAllAtConsOk.mp encoded
    exact List.forall_mem_cons.mpr ⟨⟨first, head⟩, ih tail⟩

theorem encodedItems {kind : SequenceKind} {items : List Token} {chunks : List Chunk}
    (encoded : encodeAt limit depth (.sequence kind items) = .ok chunks) :
    (depth : Int) ≤ limit ∧ ∃ own, encodeAllAt limit (depth + 1) items = .ok own := by
  cases kind with
  | vector =>
    obtain ⟨here, own, encoded, _⟩ := encodeVectorOk.mp encoded
    exact ⟨here, own, encoded⟩
  | _ =>
    obtain ⟨here, encoded⟩ := (encodeSequenceOk (by decide)).mp encoded
    exact ⟨here, _, encoded⟩

theorem encodeForeignsOk {values : List Datum} {chunks : List Chunk} :
    encodeForeigns limit depth values = .ok chunks ↔ values = [] ∧ [] = chunks := by
  cases values with
  | nil => simp [encodeForeigns]
  | cons value values => simp [encodeForeigns, encodeForeign, bindOk]

theorem encodeMisfitOk {kind : CompoundKind} {payload : Datum} {chunks : List Chunk} :
    encodeAt limit depth (.misfit kind payload) = .ok chunks ↔
      (depth : Int) ≤ limit ∧ ∃ sort, kind = .sequence sort ∧ payload.items? = some [] ∧
        (if sort = .vector then vectorChunks [] 0 else []) = chunks := by
  cases kind with
  | sequence sort =>
    cases found : payload.items? with
    | none => simp [encodeAt, bindOk, found]
    | some items =>
      simp only [encodeAt, bindOk, checkDepthOk, found, encodeForeignsOk]
      cases items <;> simp
  | string => simp [encodeAt, bindOk]
  | enum => cases found : payload.items? <;> simp [encodeAt, bindOk, found]

mutual

theorem withinOfEncodeAt : (token : Token) → ∀ {depth : Nat} {chunks : List Chunk},
    encodeAt limit depth token = .ok chunks → (depth + token.depth : Int) ≤ limit
  | .scalar _ _, _, _, encoded => by simpa [Token.depth] using (encodeScalarOk.mp encoded).1
  | .string _ _, _, _, encoded => by simpa [Token.depth] using (encodeStringOk.mp encoded).1
  | .sequence kind items, depth, _, encoded => by
    obtain ⟨here, _, encoded⟩ := encodedItems encoded
    exact sequenceWithin here (withinOfEncodeAllAt items encoded)
  | .enum _ payload _, _, _, encoded => by
    obtain ⟨_, _, _, _, inner, _⟩ := encodeEnumOk.mp encoded
    have := withinOfEncodeAt payload inner
    rw [Token.depth]
    omega
  | .misfit kind payload, _, _, encoded => by simpa [Token.depth] using (encodeMisfitOk.mp encoded).1
  | .foreign _, _, _, encoded => by
    obtain ⟨_, here, _⟩ := bindOk.mp encoded
    simpa [Token.depth] using checkDepthOk.mp here

theorem withinOfEncodeAllAt : (tokens : List Token) → ∀ {depth : Nat} {chunks : List Chunk},
    encodeAllAt limit depth tokens = .ok chunks → Within limit depth tokens
  | [], _, _, _ => by simp [Within]
  | token :: tokens, _, _, encoded => by
    obtain ⟨_, _, head, tail, _⟩ := encodeAllAtConsOk.mp encoded
    exact List.forall_mem_cons.mpr ⟨withinOfEncodeAt token head, withinOfEncodeAllAt tokens tail⟩

end

mutual

theorem encodeAtUnder : (token : Token) → ∀ {depth : Nat} {chunks : List Chunk},
    encodeAt limit depth token = .ok chunks → (depth + token.depth : Int) ≤ other →
    encodeAt other depth token = .ok chunks
  | .scalar _ _, depth, _, encoded, within =>
    encodeScalarOk.mpr ⟨by omega, (encodeScalarOk.mp encoded).2⟩
  | .string _ _, depth, _, encoded, within =>
    encodeStringOk.mpr ⟨by omega, (encodeStringOk.mp encoded).2⟩
  | .sequence kind items, depth, _, encoded, within => by
    have deeper := withinItems within
    cases kind with
    | vector =>
      obtain ⟨_, elements, inner, same⟩ := encodeVectorOk.mp encoded
      exact encodeVectorOk.mpr ⟨by omega, elements, encodeAllAtUnder items inner deeper, same⟩
    | _ =>
      obtain ⟨_, inner⟩ := (encodeSequenceOk (by decide)).mp encoded
      exact (encodeSequenceOk (by decide)).mpr ⟨by omega, encodeAllAtUnder items inner deeper⟩
  | .enum _ payload _, depth, _, encoded, within => by
    rw [Token.depth] at within
    obtain ⟨_, type, found, inner, encoded, laid⟩ := encodeEnumOk.mp encoded
    exact encodeEnumOk.mpr ⟨by omega, type, found, inner, encodeAtUnder payload encoded (by omega), laid⟩
  | .misfit _ _, depth, _, encoded, within =>
    encodeMisfitOk.mpr ⟨by omega, (encodeMisfitOk.mp encoded).2⟩
  | .foreign _, _, _, encoded, _ => by
    obtain ⟨_, _, refused⟩ := bindOk.mp encoded
    contradiction

theorem encodeAllAtUnder : (tokens : List Token) → ∀ {depth : Nat} {chunks : List Chunk},
    encodeAllAt limit depth tokens = .ok chunks → Within other depth tokens →
    encodeAllAt other depth tokens = .ok chunks
  | [], _, _, encoded, _ => encoded
  | token :: tokens, _, _, encoded, within => by
    obtain ⟨first, rest, head, tail, same⟩ := encodeAllAtConsOk.mp encoded
    obtain ⟨here, later⟩ := List.forall_mem_cons.mp within
    exact encodeAllAtConsOk.mpr
      ⟨first, rest, encodeAtUnder token head here, encodeAllAtUnder tokens tail later, same⟩

end

theorem formOfEach {element : ParamType} {items : List Written} {tokens : List Token}
    (each : ∀ item ∈ items, ∀ {token}, ofWritten element item = .ok token → HasForm element token)
    (written : items.mapM (ofWritten element) = .ok tokens) : ∀ token ∈ tokens, HasForm element token := by
  intro token member
  obtain ⟨item, inside, first⟩ := mapMMem written token member
  exact each item inside first

mutual

theorem formOfWritten : (type : ParamType) → type.isCovered = true → ∀ {value : Written} {token : Token},
    ofWritten type value = .ok token → TokensFit type value → HasForm type token
  | .primitive _, _, _, _, written, fits =>
    formUnlessToken written fits fun read _ => scalarFormOfWritten read
  | .string length, _, _, _, written, fits => by
    refine formUnlessToken written fits fun read _ => ?_
    split at read <;> cases read
    exact ⟨_, rfl⟩
  | .array element length, covered, _, _, written, fits => by
    refine formUnlessToken written fits fun read parts => ?_
    obtain ⟨items, found, read⟩ := bindOk.mp read
    obtain ⟨tokens, each, last⟩ := bindOk.mp read
    cases last
    have count := (itemsOfLengthOk.mp found).2
    rw [(mapMOk.mp each).length_eq] at count
    exact ⟨tokens, rfl, count, formOfEach (fun item member _ first =>
      formOfWritten element covered first (parts items found item member)) each⟩
  | .vector element, covered, _, _, written, fits => by
    refine formUnlessToken written fits fun read parts => ?_
    obtain ⟨items, found, read⟩ := bindOk.mp read
    obtain ⟨tokens, each, last⟩ := bindOk.mp read
    cases last
    exact ⟨tokens, rfl, formOfEach (fun item member _ first =>
      formOfWritten element covered first (parts items found item member)) each⟩
  | .tuple elements, covered, _, _, written, fits => by
    refine formUnlessToken written fits fun read parts => ?_
    obtain ⟨items, found, read⟩ := bindOk.mp read
    obtain ⟨tokens, all, last⟩ := bindOk.mp read
    cases last
    have count := (itemsOfLengthOk.mp found).2
    exact ⟨tokens, rfl, formsOfWrittens elements covered (by omega) all (parts items found)⟩
  | .struct fields _ _ names, covered, _, _, written, fits => by
    refine formUnlessToken written fits fun read parts => ?_
    obtain ⟨items, found, read⟩ := bindOk.mp read
    obtain ⟨tokens, all, last⟩ := bindOk.mp read
    cases last
    simp only [ParamType.isCovered, Bool.and_eq_true, Bool.or_eq_true, decide_eq_true_eq] at covered
    exact ⟨tokens, rfl, formsOfWrittens fields covered.2 (fieldsCovered covered.1 found) all (parts items found)⟩
  | .enum variants _ _ names, covered, _, _, written, fits => by
    refine formUnlessToken written fits fun read parts => ?_
    obtain ⟨⟨index, payload⟩, chosen, read⟩ := bindOk.mp read
    dsimp only at read
    obtain ⟨found, variant, read⟩ := bindOk.mp read
    split at read
    · cases read
      obtain ⟨place, rfl, form⟩ := variantFormOfWritten variants covered variant (parts index payload chosen)
      exact ⟨place, _, rfl, form⟩
    · cases read
  | .unspecified, _, _, _, written, fits => formUnlessToken written fits fun read _ => nomatch read

theorem formsOfWrittens : (types : List ParamType) → ParamType.allCovered types = true →
    ∀ {values : List Written} {tokens : List Token}, types.length ≤ values.length →
    ofWrittens types values = .ok tokens → AllTokensFit types values → HaveForms types tokens
  | [], _, _, _, _, written, _ => by
    cases written
    rfl
  | type :: types, covered, value :: values, _, count, written, fits => by
    simp only [ParamType.allCovered, Bool.and_eq_true] at covered
    obtain ⟨token, first, written⟩ := bindOk.mp written
    obtain ⟨tokens, rest, last⟩ := bindOk.mp written
    cases last
    exact ⟨token, tokens, rfl, formOfWritten type covered.1 first fits.1,
      formsOfWrittens types covered.2 (Nat.le_of_succ_le_succ count) rest fits.2⟩

theorem variantFormOfWritten : (types : List ParamType) → ParamType.allCovered types = true →
    ∀ {index : Int} {payload : Written} {token : Token}, ofVariant types index payload = .ok (some token) →
    VariantTokensFit types index payload → ∃ place : Nat, index = place ∧ HasVariantForm types place token
  | [], _, _, _, _, written, _ => by cases written
  | type :: types, covered, index, payload, token, written, fits => by
    simp only [ParamType.allCovered, Bool.and_eq_true] at covered
    rw [ofVariant] at written
    rw [VariantTokensFit] at fits
    by_cases here : index = 0
    · rw [if_pos here] at written fits
      obtain ⟨_, first, same⟩ := mapOk.mp written
      cases same
      exact ⟨0, here, formOfWritten type covered.1 first fits⟩
    · rw [if_neg here] at written fits
      obtain ⟨place, same, form⟩ := variantFormOfWritten types covered.2 written fits
      exact ⟨place + 1, by omega, form⟩

end

theorem scalarOfForm {p : Primitive} {token : Token} {chunks : List Chunk} (form : IsScalarForm p token)
    (encoded : encodeAt limit depth token = .ok chunks) : IsScalarValue p token := by
  cases p with
  | unit => exact form
  | bool => exact form
  | b256 => exact form
  | _ =>
    obtain ⟨n, rfl⟩ := form
    obtain ⟨_, encoded⟩ := encodeScalarOk.mp encoded
    simp only [encodeScalar] at encoded
    split at encoded
    · rename_i range
      exact ⟨n, rfl, range⟩
    · cases encoded

mutual

theorem valueOfForm : (type : ParamType) → type.isSpecified = true → ∀ {depth : Nat} {token : Token}
    {chunks : List Chunk}, HasForm type token → encodeAt limit depth token = .ok chunks → IsValue type token
  | .primitive _, _, _, _, _, form, encoded => scalarOfForm form encoded
  | .string length, _, _, _, _, form, encoded => by
    obtain ⟨text, rfl⟩ := form
    obtain ⟨_, ascii, count, _⟩ := encodeStringOk.mp encoded
    exact ⟨text, rfl, ascii, count⟩
  | .array element length, specified, _, _, _, form, encoded => by
    obtain ⟨items, rfl, count, each⟩ := form
    obtain ⟨_, _, inner⟩ := encodedItems encoded
    refine ⟨items, rfl, count, ParamType.hasSizeOfIsSpecified element specified, fun item member => ?_⟩
    obtain ⟨_, own⟩ := encodedEach inner item member
    exact valueOfForm element specified (each item member) own
  | .vector element, specified, _, _, _, form, encoded => by
    obtain ⟨items, rfl, each⟩ := form
    obtain ⟨_, _, inner⟩ := encodedItems encoded
    refine ⟨items, rfl, ParamType.hasSizeOfIsSpecified element specified, fun item member => ?_⟩
    obtain ⟨_, own⟩ := encodedEach inner item member
    exact valueOfForm element specified (each item member) own
  | .tuple elements, specified, _, _, _, form, encoded => by
    obtain ⟨items, rfl, forms⟩ := form
    obtain ⟨_, _, inner⟩ := encodedItems encoded
    exact ⟨items, rfl, valuesOfForms elements specified forms inner⟩
  | .struct fields _ _ _, specified, _, _, _, form, encoded => by
    obtain ⟨items, rfl, forms⟩ := form
    obtain ⟨_, _, inner⟩ := encodedItems encoded
    exact ⟨items, rfl, valuesOfForms fields specified forms inner⟩
  | .enum variants _ _ _, specified, _, _, _, form, encoded => by
    obtain ⟨index, payload, rfl, form⟩ := form
    obtain ⟨_, _, _, _, inner, laid⟩ := encodeEnumOk.mp encoded
    obtain ⟨_, _, _, fits, _⟩ := enumChunksOk.mp laid
    exact ⟨index, payload, rfl, by omega, ParamType.allHaveSizeOfAllSpecified variants specified,
      variantValueOfForm variants specified form inner⟩
  | .unspecified, _, _, _, _, form, _ => form.elim

theorem valuesOfForms : (types : List ParamType) → ParamType.allSpecified types = true → ∀ {depth : Nat}
    {tokens : List Token} {chunks : List Chunk}, HaveForms types tokens →
    encodeAllAt limit depth tokens = .ok chunks → AreValues types tokens
  | [], _, _, _, _, forms, _ => forms
  | type :: types, specified, _, _, _, forms, encoded => by
    obtain ⟨token, tokens, rfl, form, forms⟩ := forms
    simp only [ParamType.allSpecified, Bool.and_eq_true] at specified
    obtain ⟨_, _, head, tail, _⟩ := encodeAllAtConsOk.mp encoded
    exact ⟨token, tokens, rfl, valueOfForm type specified.1 form head, valuesOfForms types specified.2 forms tail⟩

theorem variantValueOfForm : (types : List ParamType) → ParamType.allSpecified types = true → ∀ {depth index : Nat}
    {token : Token} {chunks : List Chunk}, HasVariantForm types index token →
    encodeAt limit depth token = .ok chunks → IsVariantValue types index token
  | [], _, _, _, _, _, form, _ => form.elim
  | type :: _, specified, _, 0, _, _, form, encoded => by
    simp only [ParamType.allSpecified, Bool.and_eq_true] at specified
    exact valueOfForm type specified.1 form encoded
  | _ :: types, specified, _, _ + 1, _, _, form, encoded => by
    simp only [ParamType.allSpecified, Bool.and_eq_true] at specified
    exact variantValueOfForm types specified.2 form encoded

end

theorem valueOfWritten (type : ParamType) (specified : type.isSpecified = true) (labelled : type.isLabelled = true)
    {value : Written} {token : Token} {chunks : List Chunk} (written : ofWritten type value = .ok token)
    (fits : TokensFit type value) (encoded : encodeAt limit depth token = .ok chunks) : IsValue type token :=
  valueOfForm type specified (formOfWritten type (ParamType.coveredOfIsLabelled type labelled) written fits) encoded

theorem valuesOfWrittens (types : List ParamType) (specified : ParamType.allSpecified types = true)
    (labelled : ParamType.allLabelled types = true) {values : List Written} {tokens : List Token}
    {chunks : List Chunk} (count : values.length = types.length) (written : ofWrittens types values = .ok tokens)
    (fits : AllTokensFit types values) (encoded : encodeAllAt limit depth tokens = .ok chunks) :
    AreValues types tokens :=
  have covered := ParamType.allCoveredOfAllLabelled types labelled
  valuesOfForms types specified (formsOfWrittens types covered (Nat.le_of_eq count.symm) written fits) encoded

end

end Token

end WordAbi
