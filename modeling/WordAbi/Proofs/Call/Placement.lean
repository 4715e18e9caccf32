import WordAbi.Call
import WordAbi.Proofs.Chunk.Pointers
import WordAbi.Proofs.Decoder.RoundTrip
/-! Calls tell where they are. Main statement: wherever the bytes of a call are placed, the address that
they tell is that of their first argument, all pointers are right, and the arguments are decoded from
there. -/
namespace WordAbi

def ParamType.inRegister : ParamType → Bool
  | .primitive .b256 => false
  | .primitive _ => true
  | _ => false

namespace Call
open Token Chunk Outcome

theorem isByValueOfValue {type : ParamType} {token : Token} (value : IsValue type token) :
    token.isByValue = type.inRegister := by
  cases type with
  | primitive p =>
    obtain ⟨payload, rfl⟩ := scalarOfValue value
    cases p <;> rfl
  | unspecified => exact value.elim
  | enum variants generics name names =>
    obtain ⟨index, payload, rfl, _⟩ := value
    rfl
  | _ =>
    obtain ⟨_, rfl, _⟩ := value
    rfl

theorem byReferenceOfValues {types : List ParamType} {tokens : List Token} (values : AreValues types tokens) :
    (tokens.any fun token => !token.isByValue) = types.any fun type => !type.inRegister := by
  induction types generalizing tokens with
  | nil =>
    obtain rfl := values
    rfl
  | cons type types ih =>
    obtain ⟨token, tokens, rfl, value, values⟩ := values
    rw [List.any_cons, List.any_cons, isByValueOfValue value, ih values]

def argumentsStart (types : List ParamType) : Nat :=
  if types.any fun type => !type.inRegister then 16 else 8

structure Addressable (call : Call) (base : Int) : Prop where
  nonneg : 0 ≤ call.argumentsAddress base
  told : call.byReference = true → call.argumentsAddress base ≤ Word.max
  pointers : ∀ a ∈ addresses call.arguments (call.argumentsAddress base).toNat, a ≤ Word.max

/-- The bytes, of which the first has the address `base`, are a call of the selector with the arguments:
they tell the address of the first argument and those of all blocks, and the arguments are decoded from
where they start. -/
structure Tells (settings : Settings) (limit : Int) (strict : Bool) (selector : Bytes)
    (types : List ParamType) (tokens : List Token) (base : Int) (data : Bytes) : Prop where
  selects : data.Holds 0 selector
  addressed : (types.any fun type => !type.inRegister) = true →
    (Word.read data selector.length : Int) = base + argumentsStart types
  laidOut : ∃ chunks, encode limit tokens = .ok chunks ∧
    LaidOut base data chunks (argumentsStart types) data.length
  decodes : (data.drop (argumentsStart types)).length ≤ settings.maxPayload →
    decodeWithin settings limit strict types (data.drop (argumentsStart types))
      (base + argumentsStart types) = .ok tokens

theorem toBytesOk {call : Call} {base : Int} {data : Bytes} :
    call.toBytes base = .ok data ↔ ∃ pointer arguments,
      (if call.byReference then Word.checked (call.argumentsAddress base) else .ok []) = .ok pointer ∧
        resolve call.arguments (call.argumentsAddress base) = .ok arguments ∧
        data = call.selector ++ pointer ++ arguments := by
  have step : call.toBytes base =
      (if call.byReference then Word.checked (call.argumentsAddress base) else .ok []) >>= fun pointer =>
        resolve call.arguments (call.argumentsAddress base) >>= fun arguments =>
          .ok (call.selector ++ pointer ++ arguments) := by
    unfold toBytes
    cases call.byReference <;> rfl
  rw [step, bindOk]
  constructor
  · rintro ⟨pointer, told, rest⟩
    obtain ⟨arguments, resolved, last⟩ := bindOk.mp rest
    exact ⟨pointer, arguments, told, resolved, (Except.ok.inj last).symm⟩
  · rintro ⟨pointer, arguments, told, resolved, rfl⟩
    exact ⟨pointer, told, bindOk.mpr ⟨arguments, resolved, rfl⟩⟩

theorem toBytesOfAddressable {call : Call} {base : Int} (addressable : call.Addressable base) :
    ∃ data, call.toBytes base = .ok data := by
  obtain ⟨address, same⟩ := Int.eq_ofNat_of_zero_le addressable.nonneg
  have fit := addressable.pointers
  rw [same, Int.toNat_natCast] at fit
  obtain ⟨arguments, resolved⟩ := resolveOfAddresses fit
  rw [← same] at resolved
  cases reference : call.byReference with
  | false => exact ⟨_, toBytesOk.mpr ⟨[], arguments, by rw [reference]; rfl, resolved, rfl⟩⟩
  | true =>
    have checked := Word.checkedOkIff.mpr ⟨⟨addressable.nonneg, addressable.told reference⟩, rfl⟩
    exact ⟨_, toBytesOk.mpr ⟨_, arguments, by rw [reference]; exact checked, resolved, rfl⟩⟩

variable {limit : Int} {selector : Bytes} {types : List ParamType} {tokens : List Token}

theorem ofTokensOk (eight : selector.length = 8) {call : Call} :
    ofTokens limit selector tokens = .ok call ↔ ∃ chunks, encode limit tokens = .ok chunks ∧
      call = ⟨selector, chunks, tokens.any fun token => !token.isByValue⟩ := by
  rw [ofTokens, if_pos eight, bindOk]
  simp only [Except.ok.injEq, eq_comm]

theorem addressOfArguments {chunks : List Chunk} (values : AreValues types tokens) (base : Int) :
    argumentsAddress ⟨selector, chunks, tokens.any fun token => !token.isByValue⟩ base =
      base + argumentsStart types := by
  rw [argumentsAddress, argumentsStart, byReferenceOfValues values]
  split <;> omega

theorem tellsOfToBytes {settings : Settings} (fits : settings.maxPayload ≤ Word.max) {strict : Bool}
    (eight : selector.length = 8) (values : AreValues types tokens) (within : Within limit 0 tokens)
    (sparse : AllSparse settings.maxPayload types tokens) {call : Call}
    (made : ofTokens limit selector tokens = .ok call) {base : Int} {data : Bytes}
    (placed : call.toBytes base = .ok data) :
    Tells settings limit strict selector types tokens base data := by
  obtain ⟨chunks, encoded, rfl⟩ := (ofTokensOk eight).mp made
  obtain ⟨pointer, arguments, told, resolved, rfl⟩ := toBytesOk.mp placed
  have address := @addressOfArguments selector types tokens chunks values base
  have start : (selector ++ pointer).length = argumentsStart types := by
    have exact := argumentsAddressExact _ base told eight
    rw [address] at exact
    dsimp only at exact
    omega
  rw [address] at told resolved
  dsimp only at told resolved
  refine ⟨⟨[], pointer ++ arguments, by simp, rfl⟩, fun reference => ?_, ⟨chunks, encoded, ?_⟩, fun short => ?_⟩
  · rw [byReferenceOfValues values, if_pos reference, Word.checkedOkIff] at told
    obtain ⟨⟨nonneg, fits⟩, rfl⟩ := told
    have spelled := Word.readAppend selector arguments (Word.lengthBytes (base + argumentsStart types).toNat)
    rw [spelled, Word.toNatBytes (by omega)]
    omega
  · rw [← start] at resolved ⊢
    exact laidOutOfResolve resolved
  · rw [← start, List.drop_left] at short ⊢
    rw [← start] at resolved
    obtain ⟨origin, same⟩ := Int.eq_ofNat_of_zero_le (resolveOk.mp resolved).1
    rw [same] at resolved ⊢
    exact decodeOfReads fits values within sparse encoded resolved short

/-- Values that nest within the limit make a call, and wherever its bytes are placed so that all addresses
fit into words, they tell these addresses; so do they after the id of a contract. -/
theorem callTells (environment : Environment) (limit : Int) (strict : Bool) {selector : Bytes}
    {types : List ParamType} {tokens : List Token} (eight : selector.length = 8)
    (values : AreValues types tokens) (nested : ∀ token ∈ tokens, (token.depth : Int) ≤ limit)
    (sparse : AllSparse (Settings.ofEnvironment environment).maxPayload types tokens) :
    ∃ call, ofTokens limit selector tokens = .ok call ∧
      (∀ base, call.Addressable base → ∃ data, call.toBytes base = .ok data ∧
        Tells (Settings.ofEnvironment environment) limit strict selector types tokens base data) ∧
      ∀ contract base, contract.length = 32 → call.Addressable (base + 32) →
        ∃ data, call.scriptBytes contract base = .ok (contract ++ data) ∧
          Tells (Settings.ofEnvironment environment) limit strict selector types tokens (base + 32) data := by
  have within : Within limit 0 tokens := by
    intro token member
    have := nested token member
    omega
  obtain ⟨chunks, encoded, _⟩ := allEncodeOfAreValues types values within
  have made := (ofTokensOk eight).mpr ⟨chunks, encoded, rfl⟩
  have tells : ∀ {base data}, toBytes _ base = .ok data → Tells (Settings.ofEnvironment environment) limit
      strict selector types tokens base data :=
    tellsOfToBytes (Settings.maxPayloadFits environment) eight values within sparse made
  refine ⟨_, made, fun base addressable => ?_, fun contract base length addressable => ?_⟩
  · obtain ⟨data, placed⟩ := toBytesOfAddressable addressable
    exact ⟨data, placed, tells placed⟩
  · obtain ⟨data, placed⟩ := toBytesOfAddressable addressable
    refine ⟨data, ?_, tells placed⟩
    rw [scriptBytes, if_pos length, placed]
    rfl

theorem callTellsNested :
    let settings := Settings.ofEnvironment fun _ => none
    let selector : Bytes := [0, 0, 0, 0, 0xAB, 0xCD, 0xEF, 0x01]
    let types : List ParamType := [.primitive .u8, .vector (.vector (.primitive .u16))]
    let tokens : List Token := [.number .u8 7, .sequence .vector
      [.sequence .vector [.number .u16 1, .number .u16 2], .sequence .vector []]]
    let contract := Bytes.zeros 32
    selector.length = 8 ∧ AreValues types tokens ∧ (∀ token ∈ tokens, (token.depth : Int) ≤ 2) ∧
      AllSparse settings.maxPayload types tokens ∧ contract.length = 32 ∧
      ∃ call data script, ofTokens 2 selector tokens = .ok call ∧
        call.Addressable 1000 ∧ call.toBytes 1000 = .ok data ∧
        Tells settings 2 true selector types tokens 1000 data ∧
        call.Addressable 10272 ∧ call.scriptBytes contract 10240 = .ok (contract ++ script) ∧
        Tells settings 2 true selector types tokens 10272 script := by
  intro settings selector types tokens contract
  have numbers : ∀ item ∈ [Token.number .u16 1, .number .u16 2], IsValue (.primitive .u16) item := by
    intro item member
    rcases List.mem_cons.mp member with rfl | member
    · exact ⟨1, rfl, by decide, by decide⟩
    · obtain rfl := List.mem_singleton.mp member
      exact ⟨2, rfl, by decide, by decide⟩
  have values : AreValues types tokens := by
    refine ⟨_, _, rfl, ⟨7, rfl, by decide, by decide⟩, _, _, rfl, ⟨_, rfl, rfl, ?_⟩, rfl⟩
    intro item member
    rcases List.mem_cons.mp member with rfl | member
    · exact ⟨_, rfl, rfl, numbers⟩
    · obtain rfl := List.mem_singleton.mp member
      exact ⟨_, rfl, rfl, fun _ absurd => nomatch absurd⟩
  have nested : ∀ token ∈ tokens, (token.depth : Int) ≤ 2 := by decide
  have sparse : AllSparse settings.maxPayload types tokens := by
    refine ⟨trivial, ⟨fun _ => by decide, fun item member => ?_⟩, trivial⟩
    rcases List.mem_cons.mp member with rfl | member
    · exact ⟨fun _ => by decide, fun _ _ => trivial⟩
    · obtain rfl := List.mem_singleton.mp member
      exact ⟨fun _ => by decide, fun _ _ => trivial⟩
  obtain ⟨call, made, alone, after⟩ := callTells (fun _ => none) 2 true (show selector.length = 8 by rfl)
    values nested sparse
  have here : call.Addressable 1000 := by
    cases made
    exact ⟨by decide, by decide, by decide⟩
  have there : call.Addressable (10240 + 32) := by
    cases made
    exact ⟨by decide, by decide, by decide⟩
  obtain ⟨data, placed, tells⟩ := alone 1000 here
  obtain ⟨script, behind, tellsToo⟩ := after contract 10240 rfl there
  exact ⟨rfl, values, nested, sparse, rfl, call, data, script, made, here, placed, tells, there, behind, tellsToo⟩

end Call

end WordAbi
