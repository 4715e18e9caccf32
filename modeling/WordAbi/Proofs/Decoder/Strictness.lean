import WordAbi.Proofs.Decoder.Inversion
/-! Strict and lenient reading. A decoder that asks of a truth value to be zero or one reads what one that does not
ask for it reads, the same faults included, up to the first word that it refuses; the two never differ otherwise. -/
namespace WordAbi

namespace Bytes

theorem toNatPos {bs : Bytes} (some : bs.any (· ≠ 0) = true) : 0 < toNat bs := by
  induction bs using List.reverseRecOn with
  | nil => simp at some
  | append_singleton bs b ih =>
    rw [toNatAppendSingleton]
    simp only [List.any_append, List.any_cons, List.any_nil, Bool.or_false, Bool.or_eq_true] at some
    rcases some with before | last
    · have := ih before
      omega
    · have nonzero : b.toNat ≠ 0 := by
        intro zero
        obtain rfl : b = 0 := UInt8.toNat_inj.mp zero
        simp at last
      omega

end Bytes

namespace Decoder
open Outcome

variable {α β : Type}

def Stricter (strict lenient : Except Fault α) : Prop :=
  strict = lenient ∨ ∃ (word : Bytes) (place : Int), 1 < word.toNat ∧
    strict = .error (.invalidData (.boolWord word place))

theorem stricterSame (outcome : Except Fault α) : Stricter outcome outcome := .inl rfl

theorem stricterBind {x y : Except Fault α} {f g : α → Except Fault β} (first : Stricter x y)
    (rest : ∀ a, Stricter (f a) (g a)) : Stricter (x >>= f) (y >>= g) := by
  rcases first with rfl | ⟨word, place, large, rfl⟩
  · cases x with
    | error fault => exact .inl rfl
    | ok a => exact rest a
  · exact .inr ⟨word, place, large, rfl⟩

theorem stricterMap {x y : Except Fault α} (f : α → β) (first : Stricter x y) : Stricter (x.map f) (y.map f) := by
  rcases first with rfl | ⟨word, place, large, rfl⟩
  · exact .inl rfl
  · exact .inr ⟨word, place, large, rfl⟩

theorem stricterRepeat {read other : Int → Except Fault (Token × Int)}
    (each : ∀ start, Stricter (read start) (other start)) (count : Nat) : ∀ (before : List Token) (start : Int),
    Stricter (repeatFrom read count before start) (repeatFrom other count before start) := by
  induction count with
  | zero => exact fun before start => stricterSame _
  | succ count ih =>
    intro before start
    rw [repeatFrom, repeatFrom]
    rcases each start with same | ⟨word, place, large, refused⟩
    · rw [same]
      cases other start with
      | error fault => exact stricterSame _
      | ok found => exact ih (found.1 :: before) found.2
    · rw [refused]
      exact .inr ⟨word, place, large, rfl⟩

def lenient (d : Decoder) : Decoder := { d with strictBool := false }

variable (d : Decoder)

theorem largeOfRefused {word : Bytes} (refused : 1 < word.getLastD 0 ∨ word.dropLast.any (· ≠ 0)) :
    1 < word.toNat := by
  rcases List.eq_nil_or_concat word with rfl | ⟨before, last, rfl⟩
  · simp at refused
  · rw [List.concat_eq_append] at refused ⊢
    rw [Bytes.toNatAppendSingleton]
    simp only [List.getLastD_concat, List.dropLast_concat] at refused
    rcases refused with large | some
    · have large : 1 < last.toNat := large
      omega
    · have := Bytes.toNatPos some
      omega

theorem stricterBool (word : Bytes) (place : Int) : Stricter (d.boolOf word place) (d.lenient.boolOf word place) := by
  have accepts : d.lenient.boolOf word place = .ok (.bool (word.getLastD 0 ≠ 0)) := by
    dsimp only [boolOf]
    exact if_neg fun asked => nomatch asked.1
  rw [accepts]
  dsimp only [boolOf]
  split
  · rename_i refused
    exact .inr ⟨word, place, largeOfRefused refused.2, rfl⟩
  · exact stricterSame _

theorem stricterPrimitive (p : Primitive) (start : Int) :
    Stricter (d.readPrimitive p start) (d.lenient.readPrimitive p start) := by
  cases p with
  | bool =>
    exact stricterBind (stricterSame _) fun word =>
      stricterBind (stricterBool d word start) fun _ => stricterSame _
  | _ => exact stricterSame _

mutual

theorem stricterReadAt : (type : ParamType) → ∀ (depth : Nat) (start : Int),
    Stricter (d.readAt depth start type) (d.lenient.readAt depth start type)
  | .primitive p, depth, start => by
    rw [readAt, readAt]
    exact stricterBind (stricterSame _) fun _ => stricterPrimitive d p start
  | .string length, depth, start => by
    rw [readAt, readAt]
    exact stricterSame _
  | .array element length, depth, start => by
    rw [readAt, readAt]
    have each := stricterRepeat (fun start => stricterReadAt element (depth + 1) start) length.toNat [] start
    exact stricterBind (stricterSame _) fun _ => stricterBind (stricterSame _) fun _ =>
      stricterBind (stricterSame _) fun _ => stricterBind (stricterSame _) fun _ =>
      stricterBind each fun _ => stricterSame _
  | .vector element, depth, start => by
    rw [readAt, readAt]
    refine stricterBind (stricterSame _) fun _ => stricterBind (stricterSame _) fun head => ?_
    exact stricterBind (stricterRepeat (fun start => stricterReadAt element (depth + 1) start) head.2 [] head.1)
      fun _ => stricterSame _
  | .tuple elements, depth, start => by
    rw [readAt, readAt]
    exact stricterBind (stricterSame _) fun _ =>
      stricterBind (stricterReadAllAt elements (depth + 1) start) fun _ => stricterSame _
  | .struct fields _ _ _, depth, start => by
    rw [readAt, readAt]
    exact stricterBind (stricterSame _) fun _ =>
      stricterBind (stricterReadAllAt fields (depth + 1) start) fun _ => stricterSame _
  | .enum variants _ _ _, depth, start => by
    rw [readAt, readAt]
    refine stricterBind (stricterSame _) fun _ => stricterBind (stricterSame _) fun _ =>
      stricterBind (stricterSame _) fun _ => ?_
    exact stricterBind (stricterReadVariantAt variants (depth + 1) _ _) fun _ => stricterSame _
  | .unspecified, depth, start => by
    rw [readAt, readAt]
    exact stricterSame _

theorem stricterReadAllAt : (types : List ParamType) → ∀ (depth : Nat) (start : Int),
    Stricter (d.readAllAt depth start types) (d.lenient.readAllAt depth start types)
  | [], _, _ => stricterSame _
  | type :: types, depth, start => by
    rw [readAllAt, readAllAt]
    exact stricterBind (stricterReadAt type depth start) fun head =>
      stricterBind (stricterReadAllAt types depth head.2) fun _ => stricterSame _

theorem stricterReadVariantAt : (types : List ParamType) → ∀ (depth : Nat) (start : Int) (index : Nat),
    Stricter (d.readVariantAt depth start index types) (d.lenient.readVariantAt depth start index types)
  | [], _, _, _ => by
    rw [readVariantAt, readVariantAt]
    exact stricterSame _
  | type :: _, depth, start, 0 => stricterMap some (stricterReadAt type depth start)
  | _ :: types, depth, start, index + 1 => stricterReadVariantAt types depth start index

end

end Decoder

open Decoder

/-- What is decoded strictly is decoded leniently as the same tokens, and what is not decoded leniently is not
decoded strictly: the strict outcome is the lenient one, or the refusal of a word other than zero and one. -/
theorem decodeLeniently (settings : Settings) (limit : Int) (types : List ParamType) (data : Bytes)
    (base offset : Int) :
    (∀ tokens, decodeFrom settings limit true types data base offset = .ok tokens →
      decodeFrom settings limit false types data base offset = .ok tokens) ∧
    (∀ fault, decodeFrom settings limit false types data base offset = .error fault →
      ∃ refusal, decodeFrom settings limit true types data base offset = .error refusal) ∧
    Stricter (decodeFrom settings limit true types data base offset)
      (decodeFrom settings limit false types data base offset) := by
  have stricter : Stricter (decodeFrom settings limit true types data base offset)
      (decodeFrom settings limit false types data base offset) :=
    stricterBind (stricterSame _) fun decoder =>
      stricterMap Prod.fst (stricterReadAllAt (decoder.limited limit true) types 0 offset)
  refine ⟨fun tokens decoded => ?_, fun fault failed => ?_, stricter⟩
  · rcases stricter with same | ⟨word, place, _, refused⟩
    · exact same.symm.trans decoded
    · cases refused.symm.trans decoded
  · rcases stricter with same | ⟨word, place, _, refused⟩
    · exact ⟨fault, same.trans failed⟩
    · exact ⟨_, refused⟩

theorem decodeLenientlyNested :
    let variants : List ParamType := [.primitive .bool, .array (.primitive .bool) 2]
    let types : List ParamType := [.vector (.enum variants [] "Choice" [])]
    let data (last : List Nat) := ([9, 132, 7, 2, 1, 1, 0, 0] ++ last).flatMap Word.bytes
    let tokens : List Token := [.sequence .vector [.enum 1 (.sequence .array [.bool true, .bool false]) ⟨variants, []⟩,
      .enum 0 (.bool true) ⟨variants, []⟩]]
    let outcome (strict : Bool) (last : List Nat) := decodeFrom .default 3 strict types (data last) 100 8
    outcome true [1, 0] = .ok tokens ∧ outcome false [1, 0] = .ok tokens ∧
      outcome true [256, 0] = .error (.invalidData (.boolWord (Word.bytes 256) 64)) ∧
      (∃ others, outcome false [256, 0] = .ok others) ∧
      ∃ fault refusal, outcome false [1] = .error fault ∧ outcome true [1] = .error refusal := by
  intro variants types data tokens outcome
  have strictly : outcome true [1, 0] = .ok tokens := by
    dsimp only [outcome, data, types, variants, tokens]
    rfl
  have refused : outcome true [256, 0] = .error (.invalidData (.boolWord (Word.bytes 256) 64)) := by
    dsimp only [outcome, data, types, variants]
    rfl
  have accepted : ∃ others, outcome false [256, 0] = .ok others := by
    dsimp only [outcome, data, types, variants]
    exact ⟨_, rfl⟩
  have short : ∃ fault, outcome false [1] = .error fault := by
    dsimp only [outcome, data, types, variants]
    exact ⟨_, rfl⟩
  obtain ⟨fault, failed⟩ := short
  obtain ⟨leniently, _, _⟩ := decodeLeniently .default 3 types (data [1, 0]) 100 8
  obtain ⟨_, strictlyToo, _⟩ := decodeLeniently .default 3 types (data [1]) 100 8
  obtain ⟨refusal, refusedToo⟩ := strictlyToo fault failed
  exact ⟨strictly, leniently tokens strictly, refused, accepted, fault, refusal, failed, refusedToo⟩

end WordAbi
