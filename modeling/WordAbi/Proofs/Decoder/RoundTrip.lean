import WordAbi.Proofs.Decoder.Reading
/-! The round trip of the wire format: what is encoded and resolved at an address is decoded from there
as the same tokens. -/
namespace WordAbi
open Token Chunk

def decodeFrom (settings : Settings) (maxDepth : Int) (strictBool : Bool) (types : List ParamType) (data : Bytes)
    (base offset : Int) : Except Fault (List Token) := do
  let decoder ← Decoder.make settings data base
  (decoder.limited maxDepth strictBool).read types offset

namespace Decoder

theorem makeOk {settings : Settings} {data : Bytes} {base : Int} {d : Decoder} :
    make settings data base = .ok d ↔ data.length ≤ settings.maxPayload ∧
      d = ⟨data.toArray, base, settings.maxDepth, settings.strictBool, settings.maxPayload⟩ := by
  simp only [make, List.size_toArray]
  split
  · rename_i long
    simp only [reduceCtorEq, false_iff]
    omega
  · rename_i short
    simp only [Except.ok.injEq]
    exact ⟨fun same => ⟨by omega, same.symm⟩, fun same => same.2.symm⟩

theorem decodeFromOk {settings : Settings} {limit : Int} {strict : Bool} {types : List ParamType} {data : Bytes}
    {base offset : Int} {tokens : List Token} :
    decodeFrom settings limit strict types data base offset = .ok tokens ↔
      data.length ≤ settings.maxPayload ∧ ∃ next,
        readAllAt ⟨data.toArray, base, limit, strict, settings.maxPayload⟩ 0 offset types =
          .ok (tokens, next) := by
  simp only [decodeFrom, Outcome.bindOk, makeOk, read, Outcome.mapOk, Prod.exists]
  constructor
  · rintro ⟨_, ⟨short, rfl⟩, _, next, read, rfl⟩
    exact ⟨short, next, read⟩
  · rintro ⟨short, next, read⟩
    exact ⟨_, ⟨short, rfl⟩, tokens, next, read, rfl⟩

theorem decodeWithinOk {settings : Settings} {limit : Int} {strict : Bool} {types : List ParamType}
    {data : Bytes} {base : Int} {tokens : List Token} :
    decodeWithin settings limit strict types data base = .ok tokens ↔
      data.length ≤ settings.maxPayload ∧ ∃ next,
        readAllAt ⟨data.toArray, base, limit, strict, settings.maxPayload⟩ 0 0 types =
          .ok (tokens, next) :=
  decodeFromOk

end Decoder

theorem decodeWithinSettings (settings : Settings) (types : List ParamType) (data : Bytes) (base : Int) :
    decodeWithin settings settings.maxDepth settings.strictBool types data base =
      decode settings types data base := by
  unfold decodeWithin decode
  cases made : Decoder.make settings data base with
  | error fault => rfl
  | ok d =>
    obtain ⟨_, rfl⟩ := Decoder.makeOk.mp made
    rfl

theorem Settings.maxPayloadFits (environment : Environment) :
    (Settings.ofEnvironment environment).maxPayload ≤ Word.max := by
  have bound := (boundedRange (environment "VM_ABI_MAX_PAYLOAD_BYTES")
    (show 1024 ≤ default.maxPayload by decide) (show default.maxPayload ≤ 268435456 by decide)).2
  exact Nat.le_trans bound (by decide)

theorem decodeOfReads {settings : Settings} (fits : settings.maxPayload ≤ Word.max) {limit : Int}
    {strict : Bool} {types : List ParamType} {tokens : List Token} {chunks : List Chunk} {base : Nat}
    {data : Bytes} (values : AreValues types tokens) (within : Within limit 0 tokens)
    (sparse : AllSparse settings.maxPayload types tokens) (encoded : encode limit tokens = .ok chunks)
    (resolved : resolve chunks base = .ok data) (short : data.length ≤ settings.maxPayload) :
    decodeWithin settings limit strict types data base = .ok tokens := by
  let d : Decoder := ⟨data.toArray, base, limit, strict, settings.maxPayload⟩
  have measured : d.Measured := ⟨Nat.le_trans (by simpa [d] using short) fits, fits⟩
  have reads := Decoder.readsAllOfAreValues measured types values sparse within
  have stands : d.Stands chunks 0 (headSizes chunks) :=
    Decoder.standsResolved rfl (by simp [d]) resolved
  exact Decoder.decodeWithinOk.mpr ⟨short, _, reads chunks 0 _ encoded stands⟩

/-- Values of types that nest within the limit are encoded. When every block has an address that fits
into a word, the encoding resolves; and when the buffer is within the payload limit, decoding it at the
same address gives the tokens back. -/
theorem decodeResolveEncode (environment : Environment) (limit : Int) (strict : Bool) (base : Nat)
    {types : List ParamType} {tokens : List Token} (values : AreValues types tokens)
    (nested : ∀ token ∈ tokens, (token.depth : Int) ≤ limit)
    (sparse : AllSparse (Settings.ofEnvironment environment).maxPayload types tokens) :
    ∃ chunks, encode limit tokens = .ok chunks ∧
      ((∀ a ∈ addresses chunks base, a ≤ Word.max) →
        ∃ data, resolve chunks base = .ok data ∧
          (data.length ≤ (Settings.ofEnvironment environment).maxPayload →
            decodeWithin (Settings.ofEnvironment environment) limit strict types data base =
              .ok tokens)) := by
  have within : Within limit 0 tokens := by
    intro token member
    have := nested token member
    omega
  obtain ⟨chunks, encoded, _⟩ := allEncodeOfAreValues types values within
  refine ⟨chunks, encoded, fun fit => ?_⟩
  obtain ⟨data, resolved⟩ := resolveOfAddresses fit
  exact ⟨data, resolved, decodeOfReads (Settings.maxPayloadFits environment) values within sparse
    encoded resolved⟩

theorem decodeResolveEncodeNested :
    let variants : List ParamType := [.primitive .bool, .vector (.string 3)]
    let types : List ParamType := [.vector (.enum variants [] "Choice" []), .primitive .u64]
    let tokens : List Token := [.sequence .vector
      [.enum 1 (.sequence .vector [.string "abc" 3]) ⟨variants, []⟩, .enum 0 (.bool true) ⟨variants, []⟩],
      .number .u64 9]
    AreValues types tokens ∧ (∀ token ∈ tokens, (token.depth : Int) ≤ 3) ∧
      AllSparse (Settings.ofEnvironment fun _ => none).maxPayload types tokens ∧
      ∃ chunks data, encode 3 tokens = .ok chunks ∧ (∀ a ∈ addresses chunks 1000, a ≤ Word.max) ∧
        resolve chunks 1000 = .ok data ∧
        decodeWithin (Settings.ofEnvironment fun _ => none) 3 false types data 1000 = .ok tokens := by
  intro variants types tokens
  have string : IsValue (.string 3) (.string "abc" 3) := ⟨"abc", rfl, by simp, rfl⟩
  have values : AreValues types tokens := by
    refine ⟨_, _, rfl, ⟨_, rfl, rfl, ?_⟩, _, _, rfl, ⟨9, rfl, by decide, by decide⟩, rfl⟩
    intro item member
    rcases List.mem_cons.mp member with rfl | member
    · exact ⟨1, _, rfl, by decide, rfl, _, rfl, rfl, List.forall_mem_singleton.mpr string⟩
    · obtain rfl := List.mem_singleton.mp member
      exact ⟨0, _, rfl, by decide, rfl, true, rfl⟩
  have nested : ∀ token ∈ tokens, (token.depth : Int) ≤ 3 := by decide
  have sparse : AllSparse (Settings.ofEnvironment fun _ => none).maxPayload types tokens := by
    refine ⟨⟨fun _ => by decide, ?_⟩, trivial, trivial⟩
    intro item member
    rcases List.mem_cons.mp member with rfl | member
    · exact ⟨fun _ => by decide, List.forall_mem_singleton.mpr trivial⟩
    · obtain rfl := List.mem_singleton.mp member
      exact trivial
  obtain ⟨chunks, encoded, resolves⟩ :=
    decodeResolveEncode (fun _ => none) 3 false 1000 values nested sparse
  have fit : ∀ a ∈ addresses chunks 1000, a ≤ Word.max := by
    cases encoded
    decide
  have short : totalSize chunks ≤ (Settings.ofEnvironment fun _ => none).maxPayload := by
    cases encoded
    decide
  obtain ⟨data, resolved, decodes⟩ := resolves fit
  rw [← lengthResolve resolved] at short
  exact ⟨values, nested, sparse, chunks, data, encoded, fit, resolved, decodes short⟩

end WordAbi
