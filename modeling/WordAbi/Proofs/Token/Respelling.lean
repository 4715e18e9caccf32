import WordAbi.Proofs.Token.Spelling
/-! Values in other spellings. One spelling of a value or of a part of it may stand in the place of another one,
anywhere and any number of times; the token is the same, or there is none for either. -/
namespace WordAbi

namespace ParamType

def isOrdered : ParamType → Bool
  | array _ _ => true
  | vector _ => true
  | tuple _ => true
  | struct _ _ _ _ => true
  | enum _ _ _ _ => true
  | _ => false

def part? : ParamType → (place : Nat) → Option ParamType
  | array element _, _ => some element
  | vector element, _ => some element
  | tuple elements, place => elements[place]?
  | struct fields _ _ _, place => fields[place]?
  | _, _ => none

structure IsNamed (type : ParamType) : Prop where
  labelled : type.isLabelled = true
  distinct : type.isDistinct = true

theorem namedOfMember {types : List ParamType} {type : ParamType} (labelled : allLabelled types = true)
    (distinct : allDistinct types = true) {place : Nat} (there : types[place]? = some type) : type.IsNamed := by
  rw [allLabelledEqAll, List.all_eq_true] at labelled
  rw [allDistinctEqAll, List.all_eq_true] at distinct
  have member := List.mem_of_getElem? there
  exact ⟨labelled type member, distinct type member⟩

theorem namedFields {fields generics : List ParamType} {name : String} {names : List String}
    (named : (struct fields generics name names).IsNamed) :
    (names.isEmpty = true ∨ names.length = fields.length) ∧ names.Nodup ∧
      ∀ {place : Nat} {field : ParamType}, fields[place]? = some field → field.IsNamed := by
  obtain ⟨labelled, distinct⟩ := named
  simp only [isLabelled, Bool.and_eq_true, Bool.or_eq_true, beq_iff_eq] at labelled
  simp only [isDistinct, Bool.and_eq_true, decide_eq_true_eq] at distinct
  exact ⟨labelled.1, distinct.1, fun there => namedOfMember labelled.2 distinct.2 there⟩

theorem namedVariants {variants generics : List ParamType} {name : String} {names : List String}
    (named : (enum variants generics name names).IsNamed) :
    names.Nodup ∧ ∀ {index : Nat} {variant : ParamType}, variants[index]? = some variant → variant.IsNamed := by
  obtain ⟨labelled, distinct⟩ := named
  simp only [isLabelled, Bool.and_eq_true] at labelled
  simp only [isDistinct, Bool.and_eq_true, decide_eq_true_eq] at distinct
  exact ⟨distinct.1, fun there => namedOfMember labelled.2 distinct.2 there⟩

theorem namedPart {type : ParamType} (named : type.IsNamed) {place : Nat} {part : ParamType}
    (there : type.part? place = some part) : part.IsNamed := by
  cases type with
  | array element length =>
    cases there
    exact ⟨named.labelled, named.distinct⟩
  | vector element =>
    cases there
    exact ⟨named.labelled, named.distinct⟩
  | tuple elements => exact namedOfMember named.labelled named.distinct there
  | struct fields generics name names => exact (namedFields named).2.2 there
  | _ => cases there

end ParamType

namespace Token
open Outcome

inductive Heads (names : List String) : Written → Nat → Prop
  | name {name index} : names[index]? = some name → Heads names (.str name) index
  | whole {head} {index : Nat} : (∀ text, head ≠ .str text) → head.toWhole = .ok (index : Int) →
      Heads names head index

/-- The one value is the other one in other spellings, as far as the type lets a caller choose: a list or a tuple,
nothing or an empty tuple for the unit, bytes or their digits, fields by name in any order or without names, a variant
by its name or its index, beside its payload, before it or alone. -/
inductive Respelled : ParamType → Written → Written → Prop
  | same {type value} : Respelled type value value
  | back {type value other} : Respelled type value other → Respelled type other value
  | chain {type value middle other} : Respelled type value middle → Respelled type middle other →
      Respelled type value other
  | unit : Respelled (.primitive .unit) .null (.tuple [])
  | digits {bs text} : Text.lower (Hex.withoutMark text.toList) = Hex.chars bs →
      Respelled (.primitive .b256) (.bytes bs) (.str text)
  | letters {text other : String} :
      Text.lower (Hex.withoutMark text.toList) = Text.lower (Hex.withoutMark other.toList) →
      Respelled (.primitive .b256) (.str text) (.str other)
  | ordered {type items} : type.isOrdered = true → Respelled type (.list items) (.tuple items)
  | named {fields generics name names entries items} : ByName names entries items →
      Respelled (.struct fields generics name names) (.dict entries) (.list items)
  | keys {fields generics name names entries others} : (entries.map Prod.fst).Nodup → entries.Perm others →
      Respelled (.struct fields generics name names) (.dict entries) (.dict others)
  | bare {variants generics name names word} :
      Respelled (.enum variants generics name names) (.str word) (.list [.str word, .null])
  | entry {variants generics name names word payload} :
      Respelled (.enum variants generics name names) (.dict [(.str word, payload)]) (.list [.str word, payload])
  | index {variants generics name names word payload} {index : Nat} : names[index]? = some word →
      Respelled (.enum variants generics name names) (.list [.str word, payload]) (.list [.int index, payload])
  | part {type inner value other} (before after) : type.part? before.length = some inner →
      Respelled inner value other →
      Respelled type (.list (before ++ value :: after)) (.list (before ++ other :: after))
  | field {fields generics name names word field value other} {place : Nat} (before after) :
      ((before ++ (.str word, value) :: after).map Prod.fst).Nodup → names[place]? = some word →
      fields[place]? = some field → Respelled field value other →
      Respelled (.struct fields generics name names) (.dict (before ++ (.str word, value) :: after))
        (.dict (before ++ (.str word, other) :: after))
  | payload {variants generics name names head variant value other} {index : Nat} : Heads names head index →
      variants[index]? = some variant → Respelled variant value other →
      Respelled (.enum variants generics name names) (.list [head, value]) (.list [head, other])

theorem respelledAfter {type inner : ParamType} (uniform : ∀ place, type.part? place = some inner)
    {items others : List Written} (each : List.Forall₂ (Respelled inner) items others) (before : List Written) :
    Respelled type (.list (before ++ items)) (.list (before ++ others)) := by
  induction each generalizing before with
  | nil => exact .same
  | @cons item other items others first _ ih =>
    have rest := ih (before ++ [other])
    rw [List.append_assoc, List.append_assoc] at rest
    exact .chain (.part before items (uniform _) first) rest

theorem respelledEach {type inner : ParamType} (uniform : ∀ place, type.part? place = some inner)
    {items others : List Written} (each : List.Forall₂ (Respelled inner) items others) :
    Respelled type (.list items) (.list others) :=
  respelledAfter uniform each []

def Shares (type : ParamType) (value other : Written) : Prop := Concur (ofWritten type value) (ofWritten type other)

theorem bytesOfAlike {text other : String}
    (alike : Text.lower (Hex.withoutMark text.toList) = Text.lower (Hex.withoutMark other.toList)) :
    Concur (bytesOf (.str text)) (bytesOf (.str other)) := by
  have read : Hex.decodeChars (Hex.withoutMark text.toList) = Hex.decodeChars (Hex.withoutMark other.toList) := by
    rw [← Hex.decodeCharsLower, alike, Hex.decodeCharsLower]
  simp only [bytesOf, read]
  split
  · exact concurSame rfl
  · exact concurFailed _ _

theorem bytesOfDigits {bs : Bytes} {text : String}
    (digits : Text.lower (Hex.withoutMark text.toList) = Hex.chars bs) :
    bytesOf (.bytes bs) = bytesOf (.str text) := by
  have back : Hex.decodeChars (Hex.chars bs) = .ok bs := by simpa [Hex.decode, Hex.encode] using Hex.decodeEncode bs
  have read : Hex.decodeChars (Hex.withoutMark text.toList) = .ok bs := by
    rw [← Hex.decodeCharsLower, digits, back]
  simp only [bytesOf, read]

theorem sharesLetters {text other : String}
    (alike : Text.lower (Hex.withoutMark text.toList) = Text.lower (Hex.withoutMark other.toList)) :
    Shares (.primitive .b256) (.str text) (.str other) := concurMap _ (bytesOfAlike alike)

theorem sharesDigits {bs : Bytes} {text : String}
    (digits : Text.lower (Hex.withoutMark text.toList) = Hex.chars bs) :
    Shares (.primitive .b256) (.bytes bs) (.str text) :=
  concurMap _ (concurSame (bytesOfDigits digits))

theorem sharesOrdered {type : ParamType} (ordered : type.isOrdered = true) (items : List Written) :
    Shares type (.list items) (.tuple items) := by
  cases type with
  | primitive p => cases ordered
  | string length => cases ordered
  | unspecified => cases ordered
  | _ => exact concurSame rfl

theorem concurItems {type : ParamType} {length : Int} {items others : List Written}
    {f g : List Written → Except Fault Token} (count : items.length = others.length)
    (rest : Concur (f items) (g others)) :
    Concur (itemsOfLength type length (.list items) >>= f) (itemsOfLength type length (.list others) >>= g) := by
  intro token
  simp only [bindOk, itemsOfLengthOk, inOrderList]
  constructor
  · rintro ⟨_, ⟨rfl, fits⟩, read⟩
    exact ⟨others, ⟨rfl, by omega⟩, (rest token).mp read⟩
  · rintro ⟨_, ⟨rfl, fits⟩, read⟩
    exact ⟨items, ⟨rfl, by omega⟩, (rest token).mpr read⟩

section

variable {inner : ParamType} {value other : Written}

theorem concurEach (shares : Shares inner value other) (before after : List Written) :
    Concur ((before ++ value :: after).mapM (ofWritten inner)) ((before ++ other :: after).mapM (ofWritten inner)) := by
  have untouched (items : List Written) :
      List.Forall₂ (fun item beside => Concur (ofWritten inner item) (ofWritten inner beside)) items items :=
    List.forall₂_same.mpr fun _ _ => concurSame rfl
  exact concurMapM (List.rel_append (untouched before) (.cons shares (untouched after)))

theorem concurAll (shares : Shares inner value other) {before after : List Written} {types : List ParamType}
    (there : types[before.length]? = some inner) :
    Concur (ofWrittens types (before ++ value :: after)) (ofWrittens types (before ++ other :: after)) := by
  induction before generalizing types with
  | nil =>
    cases types with
    | nil => cases there
    | cons type types =>
      cases there
      exact concurBind shares fun _ => concurSame rfl
  | cons item before ih =>
    cases types with
    | nil => cases there
    | cons type types =>
      exact concurBind (concurSame rfl) fun _ => concurBind (ih (by simpa using there)) fun _ => concurSame rfl

theorem concurVariant (shares : Shares inner value other) {types : List ParamType} {index : Nat}
    (there : types[index]? = some inner) :
    Concur (ofVariant types index value) (ofVariant types index other) := by
  induction types generalizing index with
  | nil => cases there
  | cons type types ih =>
    cases index with
    | zero =>
      cases there
      exact concurMap _ shares
    | succ index =>
      have later : ((index + 1 : Nat) : Int) - 1 = index := by omega
      rw [ofVariant, ofVariant, if_neg (by omega), if_neg (by omega), later]
      exact ih (by simpa using there)

theorem sharesPart (shares : Shares inner value other) {type : ParamType} {before : List Written}
    (there : type.part? before.length = some inner) (after : List Written) :
    Shares type (.list (before ++ value :: after)) (.list (before ++ other :: after)) := by
  have count : (before ++ value :: after).length = (before ++ other :: after).length := by simp
  unfold Shares
  cases type with
  | array element length =>
    cases there
    rw [ofWritten, ofWritten]
    exact concurItems count (concurBind (concurEach shares before after) fun _ => concurSame rfl)
  | vector element =>
    cases there
    rw [ofWritten, ofWritten]
    change Concur ((before ++ value :: after).mapM (ofWritten inner) >>= _)
      ((before ++ other :: after).mapM (ofWritten inner) >>= _)
    exact concurBind (concurEach shares before after) fun _ => concurSame rfl
  | tuple elements =>
    rw [ofWritten, ofWritten]
    exact concurItems count (concurBind (concurAll shares there) fun _ => concurSame rfl)
  | struct fields generics name names =>
    rw [ofWritten, ofWritten]
    exact concurItems count (concurBind (concurAll shares there) fun _ => concurSame rfl)
  | _ => cases there

end

section

variable {variants generics : List ParamType} {name : String} {names : List String}

theorem sharesBare (word : String) :
    Shares (.enum variants generics name names) (.str word) (.list [.str word, .null]) := by
  refine concurSame ?_
  rw [ofWritten, ofWritten]
  rfl

theorem sharesEntry (word : String) (payload : Written) :
    Shares (.enum variants generics name names) (.dict [(.str word, payload)]) (.list [.str word, payload]) := by
  refine concurSame ?_
  rw [ofWritten, ofWritten]
  rfl

theorem variantOfHeads {type : ParamType} (distinct : names.Nodup) {head : Written} {index : Nat}
    (heads : Heads names head index) (payload : Written) :
    variantOf type names (.list [head, payload]) = .ok (↑index, payload) := by
  have both : itemsOfLength type 2 (.list [head, payload]) = .ok [head, payload] :=
    itemsOfLengthOk.mpr ⟨.list _, rfl⟩
  cases heads with
  | name there => exact bindOk.mpr ⟨_, both, bindOk.mpr ⟨_, variantNamedAt distinct there, rfl⟩⟩
  | whole other read =>
    refine bindOk.mpr ⟨_, both, ?_⟩
    simp only [List.getD_cons_zero, List.getD_cons_succ, read]

theorem sharesPayload (distinct : names.Nodup) {head value other : Written} {index : Nat}
    (heads : Heads names head index) {variant : ParamType} (there : variants[index]? = some variant)
    (shares : Shares variant value other) :
    Shares (.enum variants generics name names) (.list [head, value]) (.list [head, other]) := by
  unfold Shares
  rw [ofWritten, ofWritten]
  dsimp only [unlessToken]
  rw [variantOfHeads distinct heads, variantOfHeads distinct heads]
  change Concur (ofVariant variants index value >>= _) (ofVariant variants index other >>= _)
  exact concurBind (concurVariant shares there) fun _ => concurSame rfl

theorem sharesIndex (distinct : names.Nodup) {word : String} {index : Nat} (there : names[index]? = some word)
    (payload : Written) :
    Shares (.enum variants generics name names) (.list [.str word, payload]) (.list [.int index, payload]) := by
  unfold Shares
  rw [ofWritten, ofWritten]
  dsimp only [unlessToken]
  rw [variantOfHeads distinct (.name there), variantOfHeads distinct (.whole (by simp) rfl)]
  exact concurSame rfl

end

section

variable {fields generics : List ParamType} {name : String} {names : List String}
  {entries others : List (Written × Written)}

theorem ofWrittenNamed {token : Token} :
    ofWritten (.struct fields generics name names) (.dict entries) = .ok token ↔
      ∃ items, ByName names entries items ∧ ∃ tokens, ofWrittens fields items = .ok tokens ∧
        .sequence .struct tokens = token := by
  rw [ofWritten]
  dsimp only [unlessToken]
  simp only [bindOk, fieldValuesDictOk, Except.ok.injEq]

theorem sharesNamed (labelled : names.isEmpty = true ∨ names.length = fields.length) {items : List Written}
    (named : ByName names entries items) :
    Shares (.struct fields generics name names) (.dict entries) (.list items) := by
  have found : fieldValues (.struct fields generics name names) fields.length names (.dict entries) = .ok items :=
    fieldValuesOfNames named
  have count := lengthFieldValues labelled found
  have ordered : fieldValues (.struct fields generics name names) fields.length names (.list items) = .ok items :=
    itemsOfLengthOk.mpr ⟨.list items, by omega⟩
  refine concurSame ?_
  rw [ofWritten, ofWritten]
  dsimp only [unlessToken]
  rw [found, ordered]

theorem byNamePerm (distinct : (entries.map Prod.fst).Nodup) (same : entries.Perm others) {items : List Written}
    (named : ByName names entries items) : ByName names others items := by
  refine ⟨named.given, fun entry member => named.known entry (same.mem_iff.mpr member), ?_⟩
  rw [← named.found]
  exact List.map_congr_left fun word _ => (Native.lookupPerm distinct same word).symm

theorem sharesKeys (distinct : (entries.map Prod.fst).Nodup) (same : entries.Perm others) :
    Shares (.struct fields generics name names) (.dict entries) (.dict others) := by
  have again : (others.map Prod.fst).Nodup := (same.map Prod.fst).nodup_iff.mp distinct
  intro token
  rw [ofWrittenNamed, ofWrittenNamed]
  exact exists_congr fun items => and_congr_left' ⟨byNamePerm distinct same, byNamePerm again same.symm⟩

end

section

variable {names : List String} {word : String} {value other : Written} {before after : List (Written × Written)}

theorem byNameReplaced (alone : names.Nodup) {place : Nat} (there : names[place]? = some word)
    (distinct : ((before ++ (.str word, value) :: after).map Prod.fst).Nodup) {items : List Written}
    (named : ByName names (before ++ (.str word, value) :: after) items) :
    ∃ front back, items = front ++ value :: back ∧ front.length = place ∧
      ByName names (before ++ (.str word, other) :: after) (front ++ other :: back) := by
  obtain ⟨inside, same⟩ := List.getElem?_eq_some_iff.mp there
  -- the items fall apart where the names do, at the name whose value is another one
  have parts : names.take place ++ word :: names.drop (place + 1) = names := by
    rw [← same, List.getElem_cons_drop, List.take_append_drop]
  rw [← parts] at alone
  obtain ⟨_, later, apart⟩ := List.nodup_append.mp alone
  have found := named.found
  rw [← parts, List.map_append, List.map_cons] at found
  obtain ⟨front, rest, rfl, first, others⟩ := List.map_eq_append_iff.mp found.symm
  obtain ⟨item, back, rfl, here, last⟩ := List.map_eq_cons_iff.mp others
  obtain rfl := Option.some.inj (here.trans (Native.lookupReplaced distinct))
  have length := congrArg List.length first
  rw [List.length_map, List.length_map, List.length_take] at length
  refine ⟨front, back, rfl, by omega, named.given, fun entry member => ?_, ?_⟩
  · have key := List.mem_map_of_mem (f := Prod.fst) member
    rw [Native.keysReplaced] at key
    obtain ⟨own, among, same⟩ := List.mem_map.mp key
    rw [← same]
    exact named.known own among
  · have earlier : ∀ text ∈ names.take place, text ≠ word := fun text member => apart text member word (by simp)
    have behind : ∀ text ∈ names.drop (place + 1), text ≠ word := by
      rintro text member rfl
      exact (List.nodup_cons.mp later).1 member
    rw [← parts, List.map_append, List.map_cons, List.map_append, List.map_cons, Native.lookupReplaced distinct,
      first, last]
    congr 1
    · exact List.map_congr_left fun text member => Native.lookupElsewhere distinct (earlier text member)
    · congr 1
      exact List.map_congr_left fun text member => Native.lookupElsewhere distinct (behind text member)

variable {fields generics : List ParamType} {name : String} {field : ParamType}

theorem writtenReplaced (alone : names.Nodup) {place : Nat} (there : names[place]? = some word)
    (typed : fields[place]? = some field) (distinct : ((before ++ (.str word, value) :: after).map Prod.fst).Nodup)
    (shares : Shares field value other) {token : Token}
    (written : ofWritten (.struct fields generics name names) (.dict (before ++ (.str word, value) :: after)) =
      .ok token) :
    ofWritten (.struct fields generics name names) (.dict (before ++ (.str word, other) :: after)) = .ok token := by
  obtain ⟨items, named, tokens, all, same⟩ := ofWrittenNamed.mp written
  obtain ⟨front, back, rfl, rfl, renamed⟩ := byNameReplaced alone there distinct named
  exact ofWrittenNamed.mpr ⟨_, renamed, tokens, (concurAll shares typed tokens).mp all, same⟩

theorem sharesField (alone : names.Nodup) {place : Nat} (there : names[place]? = some word)
    (typed : fields[place]? = some field) (distinct : ((before ++ (.str word, value) :: after).map Prod.fst).Nodup)
    (shares : Shares field value other) :
    Shares (.struct fields generics name names) (.dict (before ++ (.str word, value) :: after))
      (.dict (before ++ (.str word, other) :: after)) := by
  have again : ((before ++ (.str word, other) :: after).map Prod.fst).Nodup := by rwa [Native.keysReplaced]
  exact fun token => ⟨writtenReplaced alone there typed distinct shares,
    writtenReplaced alone there typed again fun token => (shares token).symm⟩

end

theorem sharesRespelled {type : ParamType} {value other : Written} (respelled : Respelled type value other)
    (named : type.IsNamed) : Shares type value other := by
  induction respelled with
  | same => exact concurSame rfl
  | back _ ih => exact fun token => (ih named token).symm
  | chain _ _ first second => exact fun token => (first named token).trans (second named token)
  | unit => exact concurSame rfl
  | digits digits => exact sharesDigits digits
  | letters alike => exact sharesLetters alike
  | ordered ordered => exact sharesOrdered ordered _
  | named byName => exact sharesNamed (ParamType.namedFields named).1 byName
  | keys distinct same => exact sharesKeys distinct same
  | bare => exact sharesBare _
  | entry => exact sharesEntry _ _
  | index there => exact sharesIndex (ParamType.namedVariants named).1 there _
  | part before after there _ ih => exact sharesPart (ih (ParamType.namedPart named there)) there after
  | field before after distinct there typed _ ih =>
    obtain ⟨_, alone, each⟩ := ParamType.namedFields named
    exact sharesField alone there typed distinct (ih (each typed))
  | payload heads there _ ih =>
    obtain ⟨alone, each⟩ := ParamType.namedVariants named
    exact sharesPayload alone heads there (ih (each there))

end Token

open Token

/-- By a type that gives the members of each struct and enum names of their own, two values that differ only in
spelling have the same token, or neither has one. -/
theorem ofWrittenRespelled {type : ParamType} (labelled : type.isLabelled = true) (distinct : type.isDistinct = true)
    {value other : Written} (respelled : Respelled type value other) :
    (∃ token, ofWritten type value = .ok token ∧ ofWritten type other = .ok token) ∨
      ∃ fault refusal, ofWritten type value = .error fault ∧ ofWritten type other = .error refusal :=
  Outcome.concurCases (sharesRespelled respelled ⟨labelled, distinct⟩)

theorem ofWrittenRespelledNested :
    let members : List ParamType := [.primitive .unit, .tuple [.primitive .b256, .primitive .u8]]
    let choice : ParamType := .enum members [] "Choice" ["none", "some"]
    let type : ParamType := .struct [.vector choice, .primitive .bool] [] "Entry" ["picks", "done"]
    let bytes : Bytes := List.replicate 32 0xab
    let text := "0XabABabABabABabABabABabABabABabABabABabABabABabABabABabABabABabAB"
    let value : Written := .dict [(.str "done", .bool true),
      (.str "picks", .list [.str "none", .tuple [.int 1, .list [.str text, .int 255]]])]
    let other : Written := .tuple [.list [.tuple [.str "none", .tuple []],
      .dict [(.str "some", .tuple [.bytes bytes, .int 255])]], .bool true]
    let token : Token := .sequence .struct [.sequence .vector [.enum 0 .unit ⟨members, ["none", "some"]⟩,
      .enum 1 (.sequence .tuple [.b256 bytes, .number .u8 255]) ⟨members, ["none", "some"]⟩], .bool true]
    type.isLabelled = true ∧ type.isDistinct = true ∧ Respelled type value other ∧
      ofWritten type value = .ok token ∧ ofWritten type other = .ok token := by
  intro members choice type bytes text value other token
  have labelled : type.isLabelled = true := rfl
  have distinct : type.isDistinct = true := rfl
  have first : Heads ["none", "some"] (.str "none") 0 := .name rfl
  have second : ["none", "some"][1]? = some "some" := rfl
  have none : Respelled choice (.str "none") (.tuple [.str "none", .tuple []]) :=
    .chain .bare (.chain (.payload first rfl .unit) (.ordered rfl))
  have digits : Respelled (.primitive .b256) (.str text) (.bytes bytes) := .back (.digits (by decide))
  have pair : Respelled (.tuple [.primitive .b256, .primitive .u8]) (.list [.str text, .int 255])
      (.tuple [.bytes bytes, .int 255]) :=
    .chain (.part [] [.int 255] rfl digits) (.ordered rfl)
  have some : Respelled choice (.tuple [.int 1, .list [.str text, .int 255]])
      (.dict [(.str "some", .tuple [.bytes bytes, .int 255])]) := by
    refine .chain (.back (.ordered rfl)) (.chain (.payload (.whole (by simp) rfl) rfl pair) ?_)
    exact .chain (.back (.index second)) (.back .entry)
  have named : ByName ["picks", "done"] [(.str "done", .bool true),
      (.str "picks", .list [.str "none", .tuple [.int 1, .list [.str text, .int 255]]])]
      [.list [.str "none", .tuple [.int 1, .list [.str text, .int 255]]], .bool true] :=
    ⟨by simp, by simp, rfl⟩
  have picks : Respelled (.vector choice) (.list [.str "none", .tuple [.int 1, .list [.str text, .int 255]]])
      (.list [.tuple [.str "none", .tuple []], .dict [(.str "some", .tuple [.bytes bytes, .int 255])]]) :=
    respelledEach (fun _ => rfl) (.cons none (.cons some .nil))
  have respelled : Respelled type value other :=
    .chain (.named named) (.chain (.part [] [.bool true] rfl picks) (.ordered rfl))
  have written : ofWritten type other = .ok token := rfl
  rcases ofWrittenRespelled labelled distinct respelled with ⟨found, here, there⟩ | ⟨_, _, _, failed⟩
  · cases written.symm.trans there
    exact ⟨labelled, distinct, respelled, here, written⟩
  · cases written.symm.trans failed

end WordAbi
