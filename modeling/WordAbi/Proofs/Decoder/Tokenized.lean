import WordAbi.Proofs.Decoder.RoundTrip
import WordAbi.Proofs.Token.Datum
/-! Native values on the wire. Whatever spelling a value without tokens has, its token has the form of the type; the
encoder refuses what is out of range, so that a token which is encoded is a value of the type, and is decoded again. -/
namespace WordAbi
open Token Chunk

/-- By a type whose structs have a name for each field or for none, a value without tokens gives a token of the
type's form. As soon as it is encoded it is a value of the type, in a head of the type's size, and is decoded from
wherever the encoding resolves, as far as the limits on payloads allow. -/
theorem ofWrittenForm {type : ParamType} (covered : type.isCovered = true) {value : Written} (plain : Plain value)
    {token : Token} (written : ofWritten type value = .ok token) :
    HasForm type token ∧ ∀ {limit : Int} {chunks : List Chunk}, type.isSpecified = true →
      encode limit [token] = .ok chunks →
      (headSizes chunks : Int) = type.staticSize ∧ IsValue type token ∧
      ∀ (environment : Environment) (strict : Bool) {base : Nat} {data : Bytes}, resolve chunks base = .ok data →
        data.length ≤ (Settings.ofEnvironment environment).maxPayload →
        Sparse (Settings.ofEnvironment environment).maxPayload type token →
        decodeWithin (Settings.ofEnvironment environment) limit strict [type] data base = .ok [token] := by
  have form := formOfWritten type covered written (tokensFitOfPlain type plain)
  refine ⟨form, fun specified encoded => ?_⟩
  obtain ⟨first, rest, alone, none, rfl⟩ := encodeAllAtConsOk.mp encoded
  cases none
  have value := valueOfForm type specified form alone
  have within := withinOfEncodeAt token alone
  obtain ⟨_, again, wide⟩ := encodesOfIsValue type value within
  cases alone.symm.trans again
  refine ⟨by simpa using wide, value, fun environment strict _ _ resolved short sparse => ?_⟩
  exact decodeOfReads (Settings.maxPayloadFits environment) ⟨token, [], rfl, value, rfl⟩
    (List.forall_mem_singleton.mpr within) ⟨sparse, trivial⟩ encoded resolved short

theorem ofWrittenFormNested :
    let members : List ParamType := [.primitive .unit, .tuple [.string 3, .primitive .u8]]
    let type : ParamType := .struct [.vector (.enum members [] "Choice" ["none", "some"]), .primitive .bool] []
      "Entry" ["picks", "done"]
    let value : Datum := .dict [(.str "done", .bool true),
      (.str "picks", .tuple [.str "none", .list [.int 1, .list [.str "abc", .int 255]]])]
    let token : Token := .sequence .struct [.sequence .vector [.enum 0 .unit ⟨members, ["none", "some"]⟩,
      .enum 1 (.sequence .tuple [.string "abc" 3, .number .u8 255]) ⟨members, ["none", "some"]⟩], .bool true]
    type.isCovered = true ∧ Plain value.lift ∧ ofWritten type value.lift = .ok token ∧ HasForm type token ∧
      ∃ chunks data, encode 4 [token] = .ok chunks ∧ (headSizes chunks : Int) = 32 ∧ IsValue type token ∧
        resolve chunks 1000 = .ok data ∧
        decodeWithin (Settings.ofEnvironment fun _ => none) 4 true [type] data 1000 = .ok [token] := by
  intro members type value token
  have covered : type.isCovered = true := rfl
  have plain : Plain value.lift := ⟨value, rfl⟩
  have written : ofWritten type value.lift = .ok token := rfl
  obtain ⟨form, rest⟩ := ofWrittenForm covered plain written
  have encoded : ∃ chunks, encode 4 [token] = .ok chunks := ⟨_, rfl⟩
  obtain ⟨chunks, encoded⟩ := encoded
  obtain ⟨wide, isValue, decodes⟩ := rest rfl encoded
  have fit : ∀ a ∈ addresses chunks 1000, a ≤ Word.max := by
    cases encoded
    decide
  have short : totalSize chunks ≤ (Settings.ofEnvironment fun _ => none).maxPayload := by
    cases encoded
    decide
  obtain ⟨data, resolved⟩ := resolveOfAddresses fit
  rw [← lengthResolve resolved] at short
  have sparse : Sparse (Settings.ofEnvironment fun _ => none).maxPayload type token := by
    refine ⟨⟨fun zero => absurd zero (by decide), fun item member => ?_⟩, trivial, trivial⟩
    rcases List.mem_pair.mp member with rfl | rfl
    · exact trivial
    · exact ⟨trivial, trivial, trivial⟩
  exact ⟨covered, plain, written, form, chunks, data, encoded, wide, isValue, resolved,
    decodes (fun _ => none) true resolved short sparse⟩

theorem uncoveredFieldLeftOut :
    let type : ParamType := .struct [.primitive .u64, .primitive .u64] [] "Pair" ["first"]
    let token : Token := .sequence .struct [.number .u64 1]
    ofWritten type (.dict [(.str "first", .int 1)]) = .ok token ∧ ¬ HasForm type token ∧
      ∃ chunks, encode 1 [token] = .ok chunks ∧ headSizes chunks = 8 ∧ type.staticSize = 16 := by
  intro type token
  refine ⟨rfl, ?_, _, rfl, rfl, rfl⟩
  intro form
  obtain ⟨items, same, first, rest, rfl, _, second, none, rfl, _⟩ := form
  cases (Token.sequence.inj same).2

end WordAbi
