import WordAbi.Native.Display
import WordAbi.Proofs.Bytes.Digits
import WordAbi.Proofs.Token.Datum
/-! Spellings of native values. A value that is written without tokens, and with whole numbers for the indices of
variants, is a spelling of the native value that its token stands for, and of no other one; so nothing in it is
rounded, replaced or left out. -/
namespace WordAbi

namespace Token
open Outcome

def IsScalarSpelling (p : Primitive) (value : Written) (datum : Datum) : Prop :=
  match p with
  | .unit => (value = .null ∨ value = .tuple []) ∧ datum = .null
  | .bool => ∃ b, value = .bool b ∧ datum = .bool b
  | .b256 => ∃ bs, (value = .bytes bs ∨ ∃ text, value = .str text ∧ Hex.IsTextOf text bs) ∧ datum = .bytes bs
  | _ => ∃ n, value = .int n ∧ datum = .int n

def fieldsDatum (names : List String) (data : List Datum) : Datum :=
  if names.isEmpty then .list data else .dict (Native.entriesOf names data)

mutual

/-- The written value and the native value are the same but for what a type lets a caller choose: bytes or their
digits, a list or a tuple, fields in order or by name, a variant by name or by index, with its payload or, where
that is the unit, without. -/
def IsSpelling : ParamType → Written → Datum → Prop
  | .primitive p, value, datum => IsScalarSpelling p value datum
  | .string _, value, datum => ∃ text, value = .str text ∧ datum = .str text
  | .array element _, value, datum => ∃ items data, InOrder value items ∧ datum = .list data ∧
      List.Forall₂ (fun item native => IsSpelling element item native) items data
  | .vector element, value, datum => ∃ items data, InOrder value items ∧ datum = .list data ∧
      List.Forall₂ (fun item native => IsSpelling element item native) items data
  | .tuple elements, value, datum => ∃ items data, InOrder value items ∧ datum = .tuple data ∧
      AreSpellings elements items data
  | .struct fields _ _ names, value, datum => ∃ items data,
      (InOrder value items ∨ ∃ entries, value = .dict entries ∧ ByName names entries items) ∧
        datum = fieldsDatum names data ∧ AreSpellings fields items data
  | .enum variants _ _ names, value, datum => ∃ (index : Nat) (payload : Written) (native : Datum),
      Selects names value index payload ∧ datum = variantDatum names index native ∧
        IsVariantSpelling variants index payload native
  | .unspecified, _, _ => False

def AreSpellings : List ParamType → List Written → List Datum → Prop
  | [], [], [] => True
  | type :: types, value :: values, datum :: data => IsSpelling type value datum ∧ AreSpellings types values data
  | _, _, _ => False

def IsVariantSpelling : List ParamType → Nat → Written → Datum → Prop
  | [], _, _, _ => False
  | type :: _, 0, payload, native => IsSpelling type payload native
  | _ :: types, index + 1, payload, native => IsVariantSpelling types index payload native

end

def IsIndexed (type : ParamType) (value : Written) : Prop :=
  ∀ head, TakesIndex type value head → ∃ n, head = .int n

theorem readPlain {value : Written} {read : Written → Except Fault Token} (plain : Plain value) :
    unlessToken value read = read value := by
  obtain ⟨datum, rfl⟩ := plain
  cases datum with
  | embedded e => exact e.elim
  | _ => rfl

section

variable {limit : Int}

mutual

theorem standsOfEncode : (token : Token) → ∀ {depth : Nat} {chunks : List Chunk},
    encodeAt limit depth token = .ok chunks → ∀ type, Succeeds (toDatum type token)
  | .scalar p payload, _, _, _, _ => by cases p <;> exact ⟨_, rfl⟩
  | .string text expected, _, _, encoded, _ => by
    obtain ⟨_, ascii, length, _⟩ := encodeStringOk.mp encoded
    exact ⟨.str text, mapOk.mpr ⟨text, checkedTextOk.mpr ⟨ascii, length, rfl⟩, rfl⟩⟩
  | .sequence kind items, _, _, encoded, type => by
    obtain ⟨_, _, inner⟩ := encodedItems encoded
    have each (element : Option ParamType) := standOfEncodeEach items inner element
    have zip (types : List (Option ParamType)) := standOfEncodeZip items inner types
    cases kind with
    | array => exact succeedsMap (each _)
    | vector => exact succeedsMap (each _)
    | struct =>
      unfold toDatum
      split
      · exact succeedsMap (zip _)
      · exact succeedsMap (each _)
    | tuple =>
      unfold toDatum
      split
      · exact succeedsMap (zip _)
      · exact succeedsMap (each _)
  | .enum discriminant payload variants, _, _, encoded, _ => by
    obtain ⟨_, inner, found, _, laid, _⟩ := encodeEnumOk.mp encoded
    have typed : variants.typeOf discriminant = .ok inner := by rw [EnumVariants.typeOf, found]
    obtain ⟨native, stands⟩ := standsOfEncode payload laid (some inner)
    rw [toDatum]
    refine succeedsAfter typed (succeedsAfter stands ?_)
    split <;> exact ⟨_, rfl⟩
  | .misfit kind payload, _, _, encoded, type => by
    obtain ⟨_, sort, rfl, empty, _⟩ := encodeMisfitOk.mp encoded
    unfold toDatum
    simp only [empty]
    split <;> simp [Succeeds]
  | .foreign _, _, _, encoded, _ => by
    obtain ⟨_, _, refused⟩ := bindOk.mp encoded
    contradiction

theorem standOfEncodeEach : (tokens : List Token) → ∀ {depth : Nat} {chunks : List Chunk},
    encodeAllAt limit depth tokens = .ok chunks → ∀ type, Succeeds (toDataEach type tokens)
  | [], _, _, _, _ => ⟨[], rfl⟩
  | token :: tokens, _, _, encoded, type => by
    obtain ⟨_, _, head, tail, _⟩ := encodeAllAtConsOk.mp encoded
    obtain ⟨value, first⟩ := standsOfEncode token head type
    obtain ⟨values, rest⟩ := standOfEncodeEach tokens tail type
    exact ⟨value :: values, bindOk.mpr ⟨value, first, bindOk.mpr ⟨values, rest, rfl⟩⟩⟩

theorem standOfEncodeZip : (tokens : List Token) → ∀ {depth : Nat} {chunks : List Chunk},
    encodeAllAt limit depth tokens = .ok chunks → ∀ types, Succeeds (toDataZip types tokens)
  | [], _, _, _, types => by cases types <;> exact ⟨[], rfl⟩
  | _ :: _, _, _, _, [] => ⟨[], rfl⟩
  | token :: tokens, _, _, encoded, type :: types => by
    obtain ⟨_, _, head, tail, _⟩ := encodeAllAtConsOk.mp encoded
    obtain ⟨value, first⟩ := standsOfEncode token head type
    obtain ⟨values, rest⟩ := standOfEncodeZip tokens tail types
    exact ⟨value :: values, bindOk.mpr ⟨value, first, bindOk.mpr ⟨values, rest, rfl⟩⟩⟩

end

end

theorem spellingOfScalar {p : Primitive} {value : Written} {token : Token} {datum : Datum}
    (written : ofPrimitive p value = .ok token) (stands : toDatum (some (.primitive p)) token = .ok datum) :
    IsScalarSpelling p value datum := by
  unfold ofPrimitive at written
  cases p with
  | unit =>
    dsimp only at written
    split at written <;> cases written <;> cases stands
    · exact ⟨.inl rfl, rfl⟩
    · exact ⟨.inr rfl, rfl⟩
  | bool =>
    dsimp only at written
    split at written <;> cases written
    cases stands
    exact ⟨_, rfl, rfl⟩
  | b256 =>
    obtain ⟨bs, read, rfl⟩ := mapOk.mp written
    cases stands
    unfold bytesOf at read
    split at read
    · rename_i text
      split at read
      · rename_i decoded
        rw [(bytesCheckOk.mp read).2] at decoded
        exact ⟨bs, .inr ⟨text, rfl, Hex.isTextOfDecode decoded⟩, rfl⟩
      · cases read
    · rw [(bytesCheckOk.mp read).2]
      exact ⟨bs, .inl rfl, rfl⟩
    · cases read
  | _ =>
    dsimp only at written
    split at written <;> cases written
    cases stands
    exact ⟨_, rfl, rfl⟩

theorem spellingsOfEach {element : ParamType} {items : List Written} {tokens : List Token} {data : List Datum}
    (each : ∀ item ∈ items, ∀ {token native}, ofWritten element item = .ok token →
      toDatum (some element) token = .ok native → IsSpelling element item native)
    (written : List.Forall₂ (fun item token => ofWritten element item = .ok token) items tokens)
    (stand : toDataEach (some element) tokens = .ok data) :
    List.Forall₂ (fun item native => IsSpelling element item native) items data := by
  induction written generalizing data with
  | nil =>
    cases stand
    exact .nil
  | cons first rest ih =>
    obtain ⟨here, later⟩ := List.forall_mem_cons.mp each
    obtain ⟨native, stands, stand⟩ := bindOk.mp stand
    obtain ⟨others, beside, last⟩ := bindOk.mp stand
    cases last
    exact .cons (here first stands) (ih later beside)

theorem spellingOfItems {element : ParamType} {value : Written} {items : List Written} {tokens : List Token}
    {datum : Datum} (ordered : InOrder value items)
    (each : ∀ item ∈ items, ∀ {token native}, ofWritten element item = .ok token →
      toDatum (some element) token = .ok native → IsSpelling element item native)
    (written : items.mapM (ofWritten element) = .ok tokens)
    (stands : (toDataEach (some element) tokens).map .list = .ok datum) :
    ∃ items data, InOrder value items ∧ datum = .list data ∧
      List.Forall₂ (fun item native => IsSpelling element item native) items data := by
  obtain ⟨data, stand, rfl⟩ := mapOk.mp stands
  exact ⟨items, data, ordered, rfl, spellingsOfEach each (mapMOk.mp written) stand⟩

mutual

theorem spellingOfWritten : (type : ParamType) → type.isLabelled = true → type.isDistinct = true →
    ∀ {value : Written} {token : Token} {datum : Datum}, Plain value → IsIndexed type value →
    ofWritten type value = .ok token → toDatum (some type) token = .ok datum → IsSpelling type value datum
  | .primitive p, _, _, _, _, _, plain, _, written, stands => by
    rw [ofWritten, readPlain plain] at written
    exact spellingOfScalar written stands
  | .string length, _, _, _, _, _, plain, _, written, stands => by
    rw [ofWritten, readPlain plain] at written
    split at written
    · rename_i text
      cases written
      obtain ⟨checked, same, rfl⟩ := mapOk.mp stands
      obtain ⟨_, _, rfl⟩ := checkedTextOk.mp same
      exact ⟨checked, rfl, rfl⟩
    · cases written
  | .array element length, labelled, distinct, value, _, _, plain, indexed, written, stands => by
    rw [ofWritten, readPlain plain] at written
    obtain ⟨items, found, written⟩ := bindOk.mp written
    obtain ⟨tokens, each, last⟩ := bindOk.mp written
    cases last
    have ordered := (itemsOfLengthOk.mp found).1
    exact spellingOfItems ordered (fun item member _ _ => spellingOfWritten element labelled distinct
      (holdsItems plainHereditary plain ordered item member) fun head takes =>
        indexed head (.array ordered member takes)) each stands
  | .vector element, labelled, distinct, value, _, _, plain, indexed, written, stands => by
    rw [ofWritten, readPlain plain] at written
    obtain ⟨items, found, written⟩ := bindOk.mp written
    obtain ⟨tokens, each, last⟩ := bindOk.mp written
    cases last
    have ordered := itemsOfOk.mp found
    exact spellingOfItems ordered (fun item member _ _ => spellingOfWritten element labelled distinct
      (holdsItems plainHereditary plain ordered item member) fun head takes =>
        indexed head (.vector ordered member takes)) each stands
  | .tuple elements, labelled, distinct, value, _, _, plain, indexed, written, stands => by
    rw [ofWritten, readPlain plain] at written
    obtain ⟨items, found, written⟩ := bindOk.mp written
    obtain ⟨tokens, each, last⟩ := bindOk.mp written
    cases last
    obtain ⟨ordered, count⟩ := itemsOfLengthOk.mp found
    rw [toDatum, mapOk] at stands
    obtain ⟨data, stand, rfl⟩ := stands
    exact ⟨items, data, ordered, rfl, spellingsOfWrittens elements labelled distinct (by omega)
      (holdsItems plainHereditary plain ordered) (fun element item member head takes =>
        indexed head (.tuple ordered member takes)) each stand⟩
  | .struct fields generics name names, labelled, distinct, value, _, _, plain, indexed, written, stands => by
    rw [ofWritten, readPlain plain] at written
    obtain ⟨items, found, written⟩ := bindOk.mp written
    obtain ⟨tokens, each, last⟩ := bindOk.mp written
    cases last
    simp only [ParamType.isLabelled, Bool.and_eq_true, Bool.or_eq_true, beq_iff_eq] at labelled
    simp only [ParamType.isDistinct, Bool.and_eq_true, decide_eq_true_eq] at distinct
    rw [toDatum, mapOk] at stands
    obtain ⟨data, stand, rfl⟩ := stands
    have all := spellingsOfWrittens fields labelled.2 distinct.2 (lengthFieldValues labelled.1 found)
      (holdsFields plainHereditary plain found) (fun field item member head takes =>
        indexed head (.struct found member takes)) each stand
    have whole : named names data = fieldsDatum names data := by
      unfold named fieldsDatum
      rw [← Native.entriesOf, Native.ofEntriesNamed distinct.1]
    exact ⟨items, data, (fieldValuesOk found).imp_left And.left, whole, all⟩
  | .enum variants generics name names, labelled, distinct, value, _, _, plain, indexed, written, stands => by
    rw [ofWritten, readPlain plain] at written
    obtain ⟨⟨index, payload⟩, found, written⟩ := bindOk.mp written
    dsimp only at written
    obtain ⟨chosen, variant, written⟩ := bindOk.mp written
    split at written
    · cases written
      simp only [ParamType.isLabelled, Bool.and_eq_true] at labelled
      simp only [ParamType.isDistinct, Bool.and_eq_true] at distinct
      obtain ⟨place, inner, rfl, there, spells⟩ := variantSpellingOfWritten variants labelled.2 distinct.2
        (holdsPayload plainHereditary plain found) variant
      rw [toDatumEnum names _ there, mapOk] at stands
      obtain ⟨native, stands, rfl⟩ := stands
      have selects : Selects names value place payload := by
        rcases variantOfOk found with selects | ⟨head, ordered, other, whole⟩
        · exact selects
        · obtain ⟨n, rfl⟩ := indexed head (.here ordered other)
          cases whole
          exact .counted ordered
      exact ⟨place, payload, native, selects, rfl, spells (fun head takes =>
        indexed head (.payload found there takes)) stands⟩
    · cases written
  | .unspecified, _, _, _, _, _, plain, _, written, _ => by
    rw [ofWritten, readPlain plain] at written
    cases written

theorem spellingsOfWrittens : (types : List ParamType) → ParamType.allLabelled types = true →
    ParamType.allDistinct types = true → ∀ {values : List Written} {tokens : List Token} {data : List Datum},
    values.length = types.length → (∀ value ∈ values, Plain value) →
    (∀ type value, (type, value) ∈ types.zip values → IsIndexed type value) →
    ofWrittens types values = .ok tokens → toDataZip (types.map some) tokens = .ok data →
    AreSpellings types values data
  | [], _, _, [], _, _, _, _, _, written, stand => by
    cases written
    cases stand
    trivial
  | type :: types, labelled, distinct, value :: values, _, _, count, plain, indexed, written, stand => by
    simp only [ParamType.allLabelled, Bool.and_eq_true] at labelled
    simp only [ParamType.allDistinct, Bool.and_eq_true] at distinct
    obtain ⟨token, first, written⟩ := bindOk.mp written
    obtain ⟨tokens, rest, last⟩ := bindOk.mp written
    cases last
    obtain ⟨datum, stands, stand⟩ := bindOk.mp stand
    obtain ⟨others, beside, last⟩ := bindOk.mp stand
    cases last
    obtain ⟨here, later⟩ := List.forall_mem_cons.mp plain
    exact ⟨spellingOfWritten type labelled.1 distinct.1 here (indexed type value (by simp)) first stands,
      spellingsOfWrittens types labelled.2 distinct.2 (by simpa using count) later
        (fun type value member => indexed type value (by simp [member])) rest beside⟩

theorem variantSpellingOfWritten : (types : List ParamType) → ParamType.allLabelled types = true →
    ParamType.allDistinct types = true → ∀ {index : Int} {payload : Written} {token : Token}, Plain payload →
    ofVariant types index payload = .ok (some token) →
    ∃ (place : Nat) (inner : ParamType), index = place ∧ types[place]? = some inner ∧
      ∀ {native : Datum}, IsIndexed inner payload → toDatum (some inner) token = .ok native →
        IsVariantSpelling types place payload native
  | [], _, _, _, _, _, _, written => by cases written
  | type :: types, labelled, distinct, index, payload, token, plain, written => by
    simp only [ParamType.allLabelled, Bool.and_eq_true] at labelled
    simp only [ParamType.allDistinct, Bool.and_eq_true] at distinct
    rw [ofVariant] at written
    split at written
    · rename_i here
      obtain ⟨_, first, same⟩ := mapOk.mp written
      cases same
      exact ⟨0, type, here, rfl, fun indexed stands =>
        spellingOfWritten type labelled.1 distinct.1 plain indexed first stands⟩
    · obtain ⟨place, inner, same, there, spells⟩ :=
        variantSpellingOfWritten types labelled.2 distinct.2 plain written
      exact ⟨place + 1, inner, by omega, by simpa using there, spells⟩

end

theorem orderUnique {value : Written} {items others : List Written} (ordered : InOrder value items)
    (again : InOrder value others) : items = others := by
  cases ordered <;> cases again <;> rfl

theorem byNameUnique {names : List String} {entries : List (Written × Written)} {items others : List Written}
    (named : ByName names entries items) (again : ByName names entries others) : items = others := by
  have same : items.map some = others.map some := named.found.symm.trans again.found
  exact List.map_injective_iff.mpr (fun _ _ => Option.some.inj) same

theorem placeUnique {names : List String} (distinct : names.Nodup) {name : String} {place other : Nat}
    (here : names[place]? = some name) (there : names[other]? = some name) : place = other := by
  have inside := (List.getElem?_eq_some_iff.mp here).1
  exact (List.getElem?_inj inside distinct).mp (here.trans there.symm)

theorem selectsUnique {names : List String} (distinct : names.Nodup) {value payload content : Written}
    {index place : Int} (selects : Selects names value index payload) (again : Selects names value place content) :
    index = place ∧ payload = content := by
  cases selects with
  | bare here =>
    cases again with
    | bare there => simp [placeUnique distinct here there]
    | named _ ordered => cases ordered
    | counted ordered => cases ordered
  | entry here =>
    cases again with
    | entry there => simp [placeUnique distinct here there]
    | named _ ordered => cases ordered
    | counted ordered => cases ordered
  | named here ordered =>
    cases again with
    | bare => cases ordered
    | entry => cases ordered
    | named there other =>
      cases orderUnique ordered other
      simp [placeUnique distinct here there]
    | counted other => cases orderUnique ordered other
  | counted ordered =>
    cases again with
    | bare => cases ordered
    | entry => cases ordered
    | named _ other => cases orderUnique ordered other
    | counted other =>
      cases orderUnique ordered other
      exact ⟨rfl, rfl⟩

theorem scalarSpellingUnique {p : Primitive} {value : Written} {datum other : Datum}
    (spells : IsScalarSpelling p value datum) (again : IsScalarSpelling p value other) : datum = other := by
  cases p with
  | unit => rw [spells.2, again.2]
  | b256 =>
    obtain ⟨bs, written, rfl⟩ := spells
    obtain ⟨cs, rewritten, rfl⟩ := again
    rcases written with rfl | ⟨text, rfl, digits⟩
    · rcases rewritten with same | ⟨_, same, _⟩ <;> cases same
      rfl
    · rcases rewritten with same | ⟨_, same, others⟩ <;> cases same
      rw [Hex.charsInjective (digits.symm.trans others)]
  | _ =>
    obtain ⟨_, rfl, rfl⟩ := spells
    obtain ⟨_, same, rfl⟩ := again
    cases same
    rfl

theorem itemsUnique {element : ParamType} {value : Written} {datum other : Datum}
    (single : Relator.RightUnique (IsSpelling element))
    (spells : ∃ items data, InOrder value items ∧ datum = .list data ∧
      List.Forall₂ (fun item native => IsSpelling element item native) items data)
    (again : ∃ items data, InOrder value items ∧ other = .list data ∧
      List.Forall₂ (fun item native => IsSpelling element item native) items data) : datum = other := by
  obtain ⟨items, data, ordered, rfl, each⟩ := spells
  obtain ⟨others, natives, reordered, rfl, every⟩ := again
  obtain rfl := orderUnique ordered reordered
  rw [List.right_unique_forall₂' single each every]

mutual

theorem spellingUnique : (type : ParamType) → type.isDistinct = true → ∀ {value : Written} {datum other : Datum},
    IsSpelling type value datum → IsSpelling type value other → datum = other
  | .primitive _, _, _, _, _, spells, again => scalarSpellingUnique spells again
  | .string _, _, _, _, _, spells, again => by
    obtain ⟨_, rfl, rfl⟩ := spells
    obtain ⟨_, same, rfl⟩ := again
    cases same
    rfl
  | .array element _, distinct, _, _, _, spells, again =>
    itemsUnique (fun _ _ _ => spellingUnique element distinct) spells again
  | .vector element, distinct, _, _, _, spells, again =>
    itemsUnique (fun _ _ _ => spellingUnique element distinct) spells again
  | .tuple elements, distinct, _, _, _, spells, again => by
    obtain ⟨items, data, ordered, rfl, all⟩ := spells
    obtain ⟨others, natives, other, rfl, every⟩ := again
    obtain rfl := orderUnique ordered other
    rw [spellingsUnique elements distinct all every]
  | .struct fields _ _ _, distinct, _, _, _, spells, again => by
    obtain ⟨items, data, fields, rfl, all⟩ := spells
    obtain ⟨others, natives, again, rfl, every⟩ := again
    simp only [ParamType.isDistinct, Bool.and_eq_true] at distinct
    have same : items = others := by
      rcases fields with ordered | ⟨entries, rfl, named⟩
      · rcases again with other | ⟨_, rfl, _⟩
        · exact orderUnique ordered other
        · cases ordered
      · rcases again with other | ⟨_, same, renamed⟩
        · cases other
        · cases same
          exact byNameUnique named renamed
    subst same
    rw [spellingsUnique _ distinct.2 all every]
  | .enum variants _ _ _, distinct, _, _, _, spells, again => by
    obtain ⟨index, payload, native, selects, rfl, inner⟩ := spells
    obtain ⟨place, content, other, chosen, rfl, another⟩ := again
    simp only [ParamType.isDistinct, Bool.and_eq_true, decide_eq_true_eq] at distinct
    obtain ⟨same, rfl⟩ := selectsUnique distinct.1 selects chosen
    obtain rfl := Int.natCast_inj.mp same
    rw [variantSpellingUnique variants distinct.2 inner another]
  | .unspecified, _, _, _, _, spells, _ => spells.elim

theorem spellingsUnique : (types : List ParamType) → ParamType.allDistinct types = true →
    ∀ {values : List Written} {data others : List Datum}, AreSpellings types values data →
    AreSpellings types values others → data = others
  | [], _, [], [], [], _, _ => rfl
  | type :: types, distinct, _ :: _, _ :: _, _ :: _, spells, again => by
    simp only [ParamType.allDistinct, Bool.and_eq_true] at distinct
    rw [spellingUnique type distinct.1 spells.1 again.1, spellingsUnique types distinct.2 spells.2 again.2]

theorem variantSpellingUnique : (types : List ParamType) → ParamType.allDistinct types = true →
    ∀ {index : Nat} {payload : Written} {native other : Datum}, IsVariantSpelling types index payload native →
    IsVariantSpelling types index payload other → native = other
  | [], _, _, _, _, _, spells, _ => spells.elim
  | type :: _, distinct, 0, _, _, _, spells, again => by
    simp only [ParamType.allDistinct, Bool.and_eq_true] at distinct
    exact spellingUnique type distinct.1 spells again
  | _ :: types, distinct, _ + 1, _, _, _, spells, again => by
    simp only [ParamType.allDistinct, Bool.and_eq_true] at distinct
    exact variantSpellingUnique types distinct.2 spells again

end

end Token

open Token Outcome

/-- By a type that gives the members of each struct and enum names of their own or none, what is written without
tokens, and with whole numbers for indices, is encoded only as the token of a native value that it is a spelling of;
and it is a spelling of no other one. -/
theorem toDatumOfWritten {type : ParamType} (labelled : type.isLabelled = true) (distinct : type.isDistinct = true)
    {value : Written} (plain : Plain value) (indexed : IsIndexed type value) {token : Token} {limit : Int}
    {chunks : List Chunk} (written : ofWritten type value = .ok token)
    (encoded : encode limit [token] = .ok chunks) :
    ∃ datum : Datum, toDatum (some type) token = .ok datum ∧ IsSpelling type value datum ∧
      ∀ other, IsSpelling type value other → other = datum := by
  obtain ⟨_, _, alone, _, _⟩ := encodeAllAtConsOk.mp encoded
  obtain ⟨datum, stands⟩ := standsOfEncode token alone (some type)
  have spells := spellingOfWritten type labelled distinct plain indexed written stands
  exact ⟨datum, stands, spells, fun other again => spellingUnique type distinct again spells⟩

theorem toDatumOfWrittenNested :
    let members : List ParamType := [.primitive .unit, .primitive .b256]
    let choice : ParamType := .enum members [] "Choice" ["none", "some"]
    let type : ParamType := .struct [.vector choice, .tuple [.primitive .u8, .primitive .bool]] [] "Entry"
      ["picks", "pair"]
    let key := Bytes.zeros 32
    let datum : Datum := .dict [(.str "pair", .list [.int 255, .bool true]),
      (.str "picks", .tuple [.str "none", .list [.int 1, .bytes key]])]
    let token : Token := .sequence .struct [.sequence .vector
      [.enum 0 .unit ⟨members, ["none", "some"]⟩, .enum 1 (.b256 key) ⟨members, ["none", "some"]⟩],
      .sequence .tuple [.number .u8 255, .bool true]]
    type.isLabelled = true ∧ type.isDistinct = true ∧ IsIndexed type datum.lift ∧
      ofWritten type datum.lift = .ok token ∧ ∃ chunks, encode 3 [token] = .ok chunks ∧
      ∃ native : Datum, toDatum (some type) token = .ok native ∧ IsSpelling type datum.lift native ∧
        ∀ other, IsSpelling type datum.lift other → other = native := by
  intro members choice type key datum token
  have labelled : type.isLabelled = true := rfl
  have distinct : type.isDistinct = true := rfl
  have written : ofWritten type datum.lift = .ok token := rfl
  have indexed : IsIndexed type datum.lift := by
    intro head takes
    dsimp only [type, choice] at takes
    cases takes with
    | struct found member inner =>
      obtain rfl := Except.ok.inj found
      rcases List.mem_pair.mp member with same | same <;> cases same
      · cases inner with
        | vector ordered member inner =>
          cases ordered
          rcases List.mem_pair.mp member with rfl | rfl
          · cases inner with
            | here ordered => cases ordered
            | payload chosen place deeper =>
              cases chosen
              cases place
              cases deeper
          · cases inner with
            | here ordered other =>
              cases ordered
              exact ⟨1, rfl⟩
            | payload chosen place deeper =>
              cases chosen
              cases place
              cases deeper
      · cases inner with
        | tuple ordered member inner =>
          cases ordered
          rcases List.mem_pair.mp member with same | same <;> cases same <;> cases inner
  have encoded : ∃ chunks, encode 3 [token] = .ok chunks := ⟨_, rfl⟩
  obtain ⟨chunks, encoded⟩ := encoded
  exact ⟨labelled, distinct, indexed, written, chunks, encoded,
    toDatumOfWritten labelled distinct ⟨datum, rfl⟩ indexed written encoded⟩

theorem indexCutOff :
    let members : List ParamType := [.primitive .u64, .primitive .u64]
    let type : ParamType := .enum members [] "Choice" ["left", "right"]
    let token : Token := .enum 1 (.number .u64 7) ⟨members, ["left", "right"]⟩
    toDatum (some type) token = .ok (.dict [(.str "right", .int 7)]) ∧
      ∀ head ∈ [(.float (Binary64.ofDecimal false 19 (-1)) : Written), .bool true, .bytes [0x31]],
        ofWritten type (.list [head, .int 7]) = .ok token ∧
          ∀ datum, ¬ IsSpelling type (.list [head, .int 7]) datum := by
  intro members type token
  have unspelled {head : Written} (other : ∀ text, head ≠ .str text) (uncounted : ∀ n, head ≠ .int n)
      (datum : Datum) : ¬ IsSpelling type (.list [head, .int 7]) datum := by
    intro spells
    obtain ⟨_, _, _, selects, _⟩ := spells
    cases selects with
    | named _ ordered =>
      cases ordered
      exact other _ rfl
    | counted ordered =>
      cases ordered
      exact uncounted _ rfl
  refine ⟨rfl, ?_⟩
  simp only [List.forall_mem_cons, List.not_mem_nil, false_implies, implies_true, and_true]
  exact ⟨⟨rfl, unspelled (by simp) (by simp)⟩, ⟨rfl, unspelled (by simp) (by simp)⟩,
    ⟨rfl, unspelled (by simp) (by simp)⟩⟩

theorem unnamedFieldLost :
    let type : ParamType := .struct [.primitive .u64, .primitive .u64] [] "Pair" ["first"]
    let token : Token := .sequence .struct [.number .u64 1, .number .u64 2]
    ofWritten type (.list [.int 1, .int 2]) = .ok token ∧
      toDatum (some type) token = .ok (.dict [(.str "first", .int 1)]) := by
  intro type token
  exact ⟨rfl, rfl⟩

end WordAbi
