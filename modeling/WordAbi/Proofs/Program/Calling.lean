import WordAbi.Program.Basic
import WordAbi.Proofs.Call.Placement
import WordAbi.Proofs.ParamType.Equality
import WordAbi.Proofs.Schema.Flat.Labels
import WordAbi.Proofs.Token.Datum
/-! Calls of a program's functions, from native arguments to bytes and back. Main statement: what a call
tells of its function and its arguments is enough to make the same call again. -/
namespace WordAbi.Program
open Declarations (Again Indexed Key Keyed indexedOfList keyedAfter memoryAfter memoryFrom resolveAllAgain
  wholeOfResolveAll)
open Outcome (bindOk mapOk)
open Resolving (Runs runsBind runsLift)
open Token (AreValues AllSparse)

section

variable {p : Program} {settings : Settings} {name : String} {memory later : Memory Key}
  {types : List ParamType}

theorem indexedOfJson {limit : Int} {document : Json} (valid : ofJson limit document = .ok p) :
    Indexed p.declarations := by
  obtain ⟨_, _, valid⟩ := bindOk.mp valid
  obtain ⟨_, _, valid⟩ := bindOk.mp valid
  obtain ⟨declarations, _, valid⟩ := bindOk.mp valid
  obtain ⟨_, _, valid⟩ := bindOk.mp valid
  obtain ⟨_, _, valid⟩ := bindOk.mp valid
  obtain ⟨_, _, last⟩ := bindOk.mp valid
  cases last
  exact indexedOfList declarations

theorem runsParameterTypes : Runs (p.parameterTypes name) memory types later ↔
    ∃ f, p.function name = .ok f ∧ Runs (p.declarations.resolveAll p.limit f.inputs) memory types later := by
  rw [parameterTypes, runsBind]
  constructor
  · rintro ⟨f, _, first, runs⟩
    obtain ⟨found, rfl⟩ := runsLift.mp first
    exact ⟨f, found, runs⟩
  · rintro ⟨f, found, runs⟩
    exact ⟨f, memory, runsLift.mpr ⟨found, rfl⟩, runs⟩

theorem runsSelector {selector : Bytes} : Runs (p.selector name) memory selector later ↔
    ∃ types, Runs (p.parameterTypes name) memory types later ∧ Signature.selector name types = .ok selector := by
  rw [Program.selector, runsBind]
  constructor
  · rintro ⟨types, _, asked, last⟩
    obtain ⟨selected, rfl⟩ := runsLift.mp last
    exact ⟨types, asked, selected⟩
  · rintro ⟨types, asked, selected⟩
    exact ⟨types, later, asked, runsLift.mpr ⟨selected, rfl⟩⟩

theorem runsEncodeCall {arguments : List Written} {call : Call} :
    Runs (p.encodeCall settings name arguments) memory call later ↔
      ∃ types selector tokens, Runs (p.parameterTypes name) memory types later ∧
        Signature.selector name types = .ok selector ∧ Token.ofArguments types arguments = .ok tokens ∧
        Call.ofTokens settings.maxDepth selector tokens = .ok call := by
  simp only [encodeCall, runsBind]
  constructor
  · rintro ⟨types, _, asked, selector, _, first, tokens, _, second, last⟩
    obtain ⟨selected, rfl⟩ := runsLift.mp first
    obtain ⟨tokenized, rfl⟩ := runsLift.mp second
    obtain ⟨made, rfl⟩ := runsLift.mp last
    exact ⟨types, selector, tokens, asked, selected, tokenized, made⟩
  · rintro ⟨types, selector, tokens, asked, selected, tokenized, made⟩
    exact ⟨types, later, asked, selector, later, runsLift.mpr ⟨selected, rfl⟩, tokens, later,
      runsLift.mpr ⟨tokenized, rfl⟩, runsLift.mpr ⟨made, rfl⟩⟩

theorem parameterTypesAgain (indexed : Indexed p.declarations) (keyed : Keyed memory)
    (asked : Runs (p.parameterTypes name) memory types later) (further : List TypeApplication) :
    Again (p.parameterTypes name) (memoryFrom p.declarations p.limit later further) types := by
  obtain ⟨f, found, resolved⟩ := runsParameterTypes.mp asked
  obtain ⟨last, again, known⟩ := resolveAllAgain indexed keyed resolved further
  exact ⟨last, runsParameterTypes.mpr ⟨f, found, again⟩, known⟩

theorem wholeParameterTypes (indexed : Indexed p.declarations) {history : List TypeApplication}
    (asked : Runs (p.parameterTypes name) (memoryAfter p.declarations p.limit history) types later) :
    ParamType.allSpecified types = true ∧ ParamType.allLabelled types = true := by
  obtain ⟨_, _, resolved⟩ := runsParameterTypes.mp asked
  exact ParamType.wholeOfEach (wholeOfResolveAll indexed resolved)

theorem lengthOfSelector {selector : Bytes} (selected : Signature.selector name types = .ok selector) :
    selector.length = 8 := by
  obtain ⟨signature, _, rfl⟩ := mapOk.mp selected
  exact Signature.lengthHash signature

theorem ofArgumentsOk {values : List Written} {tokens : List Token} :
    Token.ofArguments types values = .ok tokens ↔
      values.length = types.length ∧ Token.ofWrittens types values = .ok tokens := by
  unfold Token.ofArguments
  split
  · rename_i count
    exact ⟨fun written => ⟨count, written⟩, fun both => both.2⟩
  · rename_i other
    exact ⟨fun refused => (nomatch refused), fun both => absurd both.1 other⟩

end

/-- A call that is made of native arguments and placed at an address tells its function in its first eight
bytes, and its arguments are decoded from where it says that they are. The native values of what is decoded
make the same call again, whatever types the program was asked for in between. -/
theorem encodeCallAgain (environment : Environment) (strict : Bool) {limit : Int} {document : Json} {p : Program}
    (valid : ofJson limit document = .ok p) {history : List TypeApplication} {name : String}
    {types : List ParamType} {values : List Datum} {tokens : List Token} {call : Call}
    {between later : Memory Key} {base : Int} {data : Bytes}
    (asked : Runs (p.parameterTypes name) (memoryAfter p.declarations p.limit history) types between)
    (distinct : ParamType.allDistinct types = true)
    (made : Runs (p.encodeCall (Settings.ofEnvironment environment) name (values.map Datum.lift))
      (memoryAfter p.declarations p.limit history) call later)
    (tokenized : Token.ofArguments types (values.map Datum.lift) = .ok tokens)
    (sparse : AllSparse (Settings.ofEnvironment environment).maxPayload types tokens)
    (placed : call.toBytes base = .ok data)
    (short : (data.drop (call.argumentsAddress base - base).toNat).length ≤
      (Settings.ofEnvironment environment).maxPayload)
    (further : List TypeApplication) :
    let settings := Settings.ofEnvironment environment
    let memory := memoryFrom p.declarations p.limit later further
    Again (p.selector name) memory (data.take 8) ∧ Again (p.parameterTypes name) memory types ∧
      decodeWithin settings settings.maxDepth strict types (data.drop (call.argumentsAddress base - base).toNat)
        (call.argumentsAddress base) = .ok tokens ∧
      ∃ natives, Token.toDataZip (types.map some) tokens = .ok natives ∧
        Again (p.encodeCall settings name (natives.map Datum.lift)) memory call := by
  intro settings memory
  obtain ⟨_, selector, _, askedToo, selected, tokenizedToo, made⟩ := runsEncodeCall.mp made
  cases asked.symm.trans askedToo
  cases tokenized.symm.trans tokenizedToo
  have eight := lengthOfSelector selected
  have indexed := indexedOfJson valid
  obtain ⟨specified, labelled⟩ := wholeParameterTypes indexed asked
  obtain ⟨chunks, encoded, rfl⟩ := (Call.ofTokensOk eight).mp made
  obtain ⟨count, written⟩ := ofArgumentsOk.mp tokenized
  have fit := Token.allTokensFitOfPlain types (Token.plainOfLifts values)
  have areValues : AreValues types tokens :=
    Token.valuesOfWrittens types specified labelled count written fit encoded
  have tells : Call.Tells settings settings.maxDepth strict selector types tokens base data :=
    Call.tellsOfToBytes (Settings.maxPayloadFits environment) eight areValues
      (Token.withinOfEncodeAllAt tokens encoded) sparse made placed
  have address := @Call.addressOfArguments selector types tokens chunks areValues base
  have start : (Call.argumentsAddress ⟨selector, chunks, tokens.any fun token => !token.isByValue⟩ base -
      base).toNat = Call.argumentsStart types := by omega
  obtain ⟨last, again, known⟩ := parameterTypesAgain indexed (keyedAfter _ _ history) asked further
  obtain ⟨natives, restored⟩ := Token.restoresAllOfValues types labelled distinct areValues
  refine ⟨⟨last, runsSelector.mpr ⟨types, again, ?_⟩, known⟩, ⟨last, again, known⟩, ?_, natives,
    restored.stand, last, runsEncodeCall.mpr ⟨types, selector, tokens, again, selected, ?_, made⟩, known⟩
  · obtain ⟨_, _, _, _, rfl⟩ := Call.toBytesOk.mp placed
    rw [List.append_assoc, ← eight, List.take_left]
    exact selected
  · rw [start] at short ⊢
    rw [address]
    exact tells.decodes short
  · exact ofArgumentsOk.mpr ⟨by rw [List.length_map, restored.aligned], restored.written⟩

theorem encodeCallAgainChoices :
    let application := fun (name : String) (id : Int) (applied : List Json) =>
      Json.obj [("name", .str name), ("type", .int id), ("typeArguments", .arr applied)]
    let declaration := fun (id : Int) (text : String) (more : List (String × Json)) =>
      Json.obj (("typeId", .int id) :: ("type", .str text) :: more)
    let document := Json.obj [
      ("types", .arr [declaration 0 "u64" [], declaration 1 "str[3]" [], declaration 2 "()" [],
        declaration 3 "struct Owner" [("components", .arr [application "id" 0 [], application "tag" 1 []])],
        declaration 4 "enum Choice" [("components", .arr [application "Nobody" 2 [], application "Owner" 3 []])],
        declaration 5 "generic T" [], declaration 6 "struct Vec" [("typeParameters", .arr [.int 5])]]),
      ("functions", .arr [.obj [("name", .str "choose"), ("output", application "" 2 []),
        ("inputs", .arr [application "choices" 6 [application "" 4 []]])]])]
    let values : List Datum := [.list [.dict [(.str "Owner", .dict [(.str "tag", .str "abc"),
      (.str "id", .int 7)])], .str "Nobody"]]
    let settings := Settings.ofEnvironment fun _ => none
    ∃ p types tokens call later data natives, ofJson 5 document = .ok p ∧
      ParamType.allDistinct types = true ∧
      Runs (p.encodeCall settings "choose" (values.map Datum.lift)) Memory.empty call later ∧
      AllSparse settings.maxPayload types tokens ∧ call.toBytes 1000 = .ok data ∧
      (data.drop 16).length ≤ settings.maxPayload ∧
      Again (p.selector "choose") later (data.take 8) ∧ Again (p.parameterTypes "choose") later types ∧
      decodeWithin settings settings.maxDepth true types (data.drop 16) 1016 = .ok tokens ∧
      Token.toDataZip (types.map some) tokens = .ok natives ∧
      Again (p.encodeCall settings "choose" (natives.map Datum.lift)) later call := by
  intro application declaration document values settings
  let variants : EnumVariants :=
    ⟨[.primitive .unit, .struct [.primitive .u64, .string 3] [] "Owner" ["id", "tag"]], ["Nobody", "Owner"]⟩
  let types : List ParamType := [.vector (.enum variants.types [] "Choice" variants.names)]
  let tokens : List Token := [.sequence .vector [.enum 1 (.sequence .struct [.number .u64 7, .string "abc" 3])
    variants, .enum 0 .unit variants]]
  have found : (ofJson 5 document >>= fun p => (p.parameterTypes "choose" Memory.empty).1) = .ok types := by
    decide +kernel
  obtain ⟨p, valid, resolved⟩ := bindOk.mp found
  have asked : Runs (p.parameterTypes "choose") (memoryAfter p.declarations p.limit []) types _ :=
    Prod.ext resolved rfl
  let selector := Signature.hash (String.ofList (Signature.chars "choose" types))
  have selected : Signature.selector "choose" types = .ok selector := by rfl
  have tokenized : Token.ofArguments types (values.map Datum.lift) = .ok tokens := by rfl
  obtain ⟨chunks, encoded⟩ : ∃ chunks, Token.encode settings.maxDepth tokens = .ok chunks := ⟨_, rfl⟩
  let call : Call := ⟨selector, chunks, true⟩
  have made : Call.ofTokens settings.maxDepth selector tokens = .ok call :=
    (Call.ofTokensOk (lengthOfSelector selected)).mpr ⟨chunks, encoded, rfl⟩
  have called : Runs (p.encodeCall settings "choose" (values.map Datum.lift))
      (memoryAfter p.declarations p.limit []) call _ :=
    runsEncodeCall.mpr ⟨types, selector, tokens, asked, selected, tokenized, made⟩
  have fit : ∀ a ∈ Chunk.addresses chunks 1016, a ≤ Word.max := by
    cases encoded
    decide
  obtain ⟨arguments, placed⟩ := Chunk.resolveOfAddresses fit
  have whole : call.toBytes 1000 = .ok (selector ++ Word.bytes 1016 ++ arguments) :=
    Call.toBytesOk.mpr ⟨Word.bytes 1016, arguments, rfl, placed, rfl⟩
  have sparse : AllSparse settings.maxPayload types tokens := by
    refine ⟨⟨fun _ => by decide, ?_⟩, trivial⟩
    intro item member
    rcases List.mem_cons.mp member with rfl | member
    · exact ⟨trivial, trivial, trivial⟩
    · obtain rfl := List.mem_singleton.mp member
      exact trivial
  have short : (List.drop 16 (selector ++ Word.bytes 1016 ++ arguments)).length ≤ settings.maxPayload := by
    have behind : (selector ++ Word.bytes 1016).length = 16 := by
      rw [List.length_append, lengthOfSelector selected, Word.lengthBytes]
    rw [← behind, List.drop_left, Chunk.lengthResolve placed]
    cases encoded
    decide
  obtain ⟨selects, answers, decodes, natives, restored, again⟩ := encodeCallAgain (fun _ => none) true valid asked
    (by decide) called tokenized sparse whole short []
  exact ⟨p, types, tokens, call, _, _, natives, valid, by decide, called, sparse, whole, short, selects, answers,
    decodes, restored, again⟩

end WordAbi.Program
