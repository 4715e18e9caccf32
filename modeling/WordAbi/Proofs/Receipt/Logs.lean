import Mathlib.Data.Set.Basic
import WordAbi.Log
import WordAbi.Proofs.Decoder.Legible
import WordAbi.Proofs.Decoder.Renaming
/-! Two ways to see the logs of a call: all of them as texts, or as tokens those of one type. Main statement: all logs
are shown exactly when by each declared type the logs of that type are read, and legible; every log that is shown is
among the tokens of one class of equal types, in the order of the receipts. -/
namespace WordAbi

namespace LogTypes
open Outcome

def Declares (types : LogTypes) (type : ParamType) : Prop := ∃ id, Table.get? types id = some type

def classOf (types : LogTypes) (type : ParamType) : Set ParamType :=
  {other | types.Declares other ∧ other.same type = true}

def Rendered (settings : Settings) (types : LogTypes) (receipt : Receipt) (entry : String) : Prop :=
  ∃ declared token value, typeOf? types receipt = some declared ∧
    decodePayload settings declared receipt = .ok token ∧ token.toDatum (some declared) = .ok value ∧
    entry = value.repr

def Logged (settings : Settings) (types : LogTypes) (type : ParamType) (receipt : Receipt) (token : Token) : Prop :=
  ∃ declared own, typeOf? types receipt = some declared ∧ declared.same type = true ∧
    decodePayload settings type receipt = .ok token ∧ decodePayload settings declared receipt = .ok own ∧
    own.same token = true

variable {settings : Settings} {types : LogTypes} {receipts : List Receipt} {receipt : Receipt} {type : ParamType}

theorem declaresTypeOf (found : typeOf? types receipt = some type) : types.Declares type := by
  obtain ⟨id, _, declared⟩ := Option.bind_eq_some_iff.mp found
  exact ⟨id, declared⟩

theorem decodePayloadAlike {other : ParamType} (same : type.same other = true) (receipt : Receipt) :
    Alike (fun token renamed : Token => token.same renamed = true) (decodePayload settings type receipt)
      (decodePayload settings other receipt) := by
  refine alikeBind (alikeItself fun _ _ => rfl) fun data _ equal => ?_
  subst equal
  exact decodeSingleAlike settings same data 0

theorem payloadShows {token : Token} (decoded : decodePayload settings type receipt = .ok token) :
    Token.Shows type token := by
  obtain ⟨_, _, decoded⟩ := bindOk.mp decoded
  obtain ⟨_, _, read⟩ := decodeSingleOk.mp decoded
  exact Decoder.showsOfReadAt type read

theorem renderLogOk {entry : String} : renderLog settings type receipt = .ok entry ↔
    ∃ token value, decodePayload settings type receipt = .ok token ∧ token.toDatum (some type) = .ok value ∧
      entry = value.repr := by
  constructor
  · intro rendered
    obtain ⟨token, decoded, rendered⟩ := bindOk.mp rendered
    obtain ⟨value, shown, last⟩ := bindOk.mp rendered
    exact ⟨token, value, decoded, shown, (Except.ok.inj last).symm⟩
  · intro rendered
    obtain ⟨token, value, decoded, shown, rfl⟩ := rendered
    exact bindOk.mpr ⟨token, decoded, bindOk.mpr ⟨value, shown, rfl⟩⟩

theorem fetchLogsOk {entries : List String} : fetchLogs settings types receipts = .ok entries ↔
    List.Forall₂ (Rendered settings types)
      (receipts.filter fun receipt => (typeOf? types receipt).isSome) entries := by
  rw [fetchLogs, mapMOk]
  induction receipts generalizing entries with
  | nil => simp
  | cons receipt receipts ih =>
    cases found : typeOf? types receipt with
    | none => simpa [found] using ih
    | some declared =>
      have here : ∀ entry,
          renderLog settings declared receipt = .ok entry ↔ Rendered settings types receipt entry := by
        intro entry
        rw [renderLogOk, Rendered]
        simp [found]
      simp [found, List.forall₂_cons_left_iff, here, ih]

theorem logsWithTypeOk {tokens : List Token} : logsWithType settings types receipts type = .ok tokens ↔
    List.Forall₂ (fun receipt token => decodePayload settings type receipt = .ok token)
      (receipts.filter fun receipt => (typeOf? types receipt).any (·.same type)) tokens :=
  mapMOk

theorem memLogsOfType : receipt ∈ receipts.filter (fun receipt => (typeOf? types receipt).any (·.same type)) ↔
    receipt ∈ receipts ∧ ∃ declared, typeOf? types receipt = some declared ∧ declared.same type = true := by
  rw [List.mem_filter, Option.any_eq_true]

def Readable (settings : Settings) (types : LogTypes) (receipts : List Receipt) : Prop :=
  ∀ receipt ∈ receipts, ∀ declared, typeOf? types receipt = some declared →
    ∃ token, decodePayload settings declared receipt = .ok token ∧ token.isLegible = true

theorem readableOfFetch (fetched : Succeeds (fetchLogs settings types receipts)) :
    Readable settings types receipts := by
  intro receipt member declared found
  obtain ⟨entries, fetched⟩ := fetched
  have known : receipt ∈ receipts.filter fun receipt => (typeOf? types receipt).isSome := by
    simp [member, found]
  obtain ⟨_, _, _, token, value, again, decoded, shown, _⟩ := pairOfMem (fetchLogsOk.mp fetched) receipt known
  cases found.symm.trans again
  exact ⟨token, decoded, (payloadShows decoded).value.mp ⟨value, shown⟩⟩

theorem fetchOfReadable (readable : Readable settings types receipts) :
    Succeeds (fetchLogs settings types receipts) := by
  refine succeedsMapM fun log member => ?_
  obtain ⟨receipt, among, found⟩ := List.mem_filterMap.mp member
  obtain ⟨declared, typed, rfl⟩ := Option.map_eq_some_iff.mp found
  obtain ⟨token, decoded, legible⟩ := readable receipt among declared typed
  obtain ⟨value, shown⟩ := (payloadShows decoded).value.mpr legible
  exact ⟨value.repr, renderLogOk.mpr ⟨token, value, decoded, shown, rfl⟩⟩

theorem loggedOfReadable (readable : Readable settings types receipts) (member : receipt ∈ receipts)
    {declared : ParamType} (found : typeOf? types receipt = some declared) (same : declared.same type = true) :
    ∃ token, Logged settings types type receipt token ∧ token.isLegible = true := by
  obtain ⟨own, decoded, legible⟩ := readable receipt member declared found
  obtain ⟨token, again, equal⟩ := alikeResult (decodePayloadAlike same receipt) decoded
  refine ⟨token, ⟨declared, own, found, same, again, decoded, equal⟩, ?_⟩
  rwa [← Token.legibleOfSame own equal]

theorem tokensOfReadable (readable : Readable settings types receipts) (type : ParamType) :
    ∃ tokens, logsWithType settings types receipts type = .ok tokens ∧
      List.Forall₂ (fun receipt token => Logged settings types type receipt token ∧ token.isLegible = true)
        (receipts.filter fun receipt => (typeOf? types receipt).any (·.same type)) tokens := by
  have each : ∀ receipt ∈ receipts.filter (fun receipt => (typeOf? types receipt).any (·.same type)),
      ∃ token, Logged settings types type receipt token ∧ token.isLegible = true := by
    intro receipt selected
    obtain ⟨member, declared, found, same⟩ := memLogsOfType.mp selected
    exact loggedOfReadable readable member found same
  have read : Succeeds (logsWithType settings types receipts type) := by
    refine succeedsMapM fun receipt selected => ?_
    obtain ⟨token, logged, _⟩ := each receipt selected
    obtain ⟨_, _, _, _, decoded, _⟩ := logged
    exact ⟨token, decoded⟩
  obtain ⟨tokens, read⟩ := read
  refine ⟨tokens, read, ((List.forall₂_and_left _ _).mpr ⟨each, logsWithTypeOk.mp read⟩).imp ?_⟩
  intro receipt token both
  obtain ⟨⟨own, logged, legible⟩, decoded⟩ := both
  obtain ⟨_, _, _, _, again, _⟩ := id logged
  cases again.symm.trans decoded
  exact ⟨logged, legible⟩

theorem readableOfTokens (read : ∀ type, types.Declares type → ∃ tokens,
      logsWithType settings types receipts type = .ok tokens ∧ ∀ token ∈ tokens, token.isLegible = true) :
    Readable settings types receipts := by
  intro receipt member declared found
  obtain ⟨tokens, read, legible⟩ := read declared (declaresTypeOf found)
  have selected := memLogsOfType.mpr ⟨member, declared, found, ParamType.sameRefl declared⟩
  obtain ⟨token, among, decoded⟩ := pairOfMem (logsWithTypeOk.mp read) receipt selected
  exact ⟨token, decoded, legible token among⟩

theorem classUnique {declared : ParamType} (declares : types.Declares declared) :
    ∃! group, (∃ type, types.Declares type ∧ group = types.classOf type) ∧ declared ∈ group := by
  refine ⟨types.classOf declared, ⟨⟨declared, declares, rfl⟩, declares, ParamType.sameRefl declared⟩, ?_⟩
  intro group found
  obtain ⟨⟨type, _, rfl⟩, _, same⟩ := found
  have alike := (ParamType.sameIff declared type).mp same
  ext other
  refine and_congr_right fun _ => ?_
  rw [ParamType.sameIff, ParamType.sameIff, alike]

/-- All logs are shown exactly when by each declared type the logs of the type are read, without a string of negative
length in their tokens, as there is none by a type that has none itself. When they are shown, the logs of any type are
read in the order of the receipts, each as by its declared type; every log with a declared id has its entry, in that
order; and its declared type is in exactly one class of equal declared types. -/
theorem fetchLogsByType (settings : Settings) (types : LogTypes) (receipts : List Receipt) :
    (Succeeds (fetchLogs settings types receipts) ↔ ∀ type, types.Declares type →
      ∃ tokens, logsWithType settings types receipts type = .ok tokens ∧
        ∀ token ∈ tokens, token.isLegible = true) ∧
    (∀ type tokens, type.isLegible = true → logsWithType settings types receipts type = .ok tokens →
      ∀ token ∈ tokens, token.isLegible = true) ∧
    ∀ entries, fetchLogs settings types receipts = .ok entries →
      (∀ type, ∃ tokens, logsWithType settings types receipts type = .ok tokens ∧
        List.Forall₂ (Logged settings types type)
          (receipts.filter fun receipt => (typeOf? types receipt).any (·.same type)) tokens) ∧
      List.Forall₂ (Rendered settings types)
        (receipts.filter fun receipt => (typeOf? types receipt).isSome) entries ∧
      ∀ receipt declared, typeOf? types receipt = some declared →
        ∃! group, (∃ type, types.Declares type ∧ group = types.classOf type) ∧ declared ∈ group := by
  refine ⟨⟨fun fetched type _ => ?_, fun read => fetchOfReadable (readableOfTokens read)⟩, ?_, ?_⟩
  · obtain ⟨tokens, read, logged⟩ := tokensOfReadable (readableOfFetch fetched) type
    refine ⟨tokens, read, fun token among => ?_⟩
    obtain ⟨_, _, _, legible⟩ := pairOfMem logged.flip token among
    exact legible
  · intro type tokens legible read token among
    obtain ⟨_, _, decoded⟩ := mapMMem read token among
    exact (payloadShows decoded).legible legible
  · intro entries fetched
    have readable := readableOfFetch ⟨entries, fetched⟩
    refine ⟨fun type => ?_, fetchLogsOk.mp fetched, fun _ _ found => classUnique (declaresTypeOf found)⟩
    obtain ⟨tokens, read, logged⟩ := tokensOfReadable readable type
    exact ⟨tokens, read, logged.imp fun _ _ both => both.1⟩

theorem fetchLogsByTypeRenamed :
    let first : ParamType := .struct [.primitive .u64] [] "Old" ["count"]
    let second : ParamType := .struct [.primitive .u64] [] "New" ["total"]
    let types : LogTypes := [(1, first), (2, second), (3, .primitive .bool)]
    let receipts : List Receipt := [.log 2 7, .log 9 1, .log 1 8, .log 3 1]
    fetchLogs .default types receipts = .ok ["\x7b'total': 7\x7d", "\x7b'count': 8\x7d", "True"] ∧
      ∃ tokens, logsWithType .default types receipts first = .ok tokens ∧
        List.Forall₂ (Logged .default types first) [.log 2 7, .log 1 8] tokens := by
  intro first second types receipts
  have fetched : fetchLogs .default types receipts = .ok ["\x7b'total': 7\x7d", "\x7b'count': 8\x7d", "True"] := rfl
  have agrees := (fetchLogsByType .default types receipts).2.2 _ fetched
  exact ⟨fetched, agrees.1 first⟩

theorem negativeLengthUnshown :
    let types : LogTypes := [(0, .string (-5))]
    let receipts : List Receipt := [.logData 0 []]
    (∀ type, types.Declares type → Succeeds (logsWithType .default types receipts type)) ∧
      ¬ Succeeds (fetchLogs .default types receipts) := by
  intro types receipts
  constructor
  · intro type declares
    obtain ⟨id, declares⟩ := declares
    obtain ⟨entry, found, rfl⟩ := Option.map_eq_some_iff.mp declares
    obtain rfl := List.mem_singleton.mp (List.mem_of_find?_eq_some found)
    exact ⟨[.string "" (-5)], rfl⟩
  · intro fetched
    obtain ⟨_, fetched⟩ := fetched
    cases fetched

end LogTypes

end WordAbi
