import WordAbi.Proofs.Decoder.RoundTrip
/-! What a successful read went through. For each form of type one structure says which checks have passed and which
reads were made; what is repeated is a chain of reads, each from where the one before it ended. -/
namespace WordAbi

namespace ParamType

theorem sizeOk {type : ParamType} {width : Int} :
    type.size = .ok width ↔ type.hasSize = true ∧ width = type.staticSize := by
  unfold size
  split
  · rename_i sized
    simp [sized, eq_comm]
  · rename_i unsized
    simp [unsized]

end ParamType

namespace Decoder
open Outcome

variable {d : Decoder} {depth : Nat} {start next : Int} {token : Token}

def Chain (read : Int → Except Fault (Token × Int)) : (start : Int) → List Token → (next : Int) → Prop
  | start, [], next => next = start
  | start, item :: items, next => ∃ middle, read start = .ok (item, middle) ∧ Chain read middle items next

theorem chainOfRepeat {read : Int → Except Fault (Token × Int)} {count : Nat} {before items : List Token}
    (done : repeatFrom read count before start = .ok (items, next)) :
    ∃ new, items = before.reverse ++ new ∧ new.length = count ∧ Chain read start new next := by
  induction count generalizing before start with
  | zero =>
    simp only [repeatFrom, Except.ok.injEq, Prod.mk.injEq] at done
    exact ⟨[], by simp [done.1], rfl, done.2.symm⟩
  | succ count ih =>
    rw [repeatFrom] at done
    split at done
    · contradiction
    · rename_i item middle found
      obtain ⟨new, rfl, length, chain⟩ := ih done
      exact ⟨item :: new, by simp, by simp [length], middle, found, chain⟩

theorem repeatAlong {read : Int → Except Fault (Token × Int)} {token : Token} (width : Int) (count : Nat)
    (before : List Token) (start : Int)
    (reads : ∀ place < count, read (start + place * width) = .ok (token, start + place * width + width)) :
    repeatFrom read count before start =
      .ok (before.reverse ++ List.replicate count token, start + count * width) := by
  induction count generalizing before start with
  | zero => simp [repeatFrom]
  | succ count ih =>
    have next (place : Nat) : start + ((place + 1 : Nat) : Int) * width = start + width + place * width := by
      rw [Int.natCast_add, Int.add_mul]
      omega
    have first : read start = .ok (token, start + width) := by simpa using reads 0 (Nat.succ_pos count)
    have rest := ih (token :: before) (start + width) fun place inside => by
      simpa only [next] using reads (place + 1) (Nat.succ_lt_succ inside)
    rw [repeatFrom, first]
    dsimp only
    rw [rest, next, List.replicate_succ, List.reverse_cons, List.append_assoc]
    rfl

theorem readOfChain {read : Int → Except Fault (Token × Int)} {items : List Token}
    (chain : Chain read start items next) : ∀ item ∈ items, ∃ first last, read first = .ok (item, last) := by
  induction items generalizing start with
  | nil => simp
  | cons item items ih =>
    obtain ⟨middle, found, rest⟩ := chain
    exact List.forall_mem_cons.mpr ⟨⟨start, middle, found⟩, ih rest⟩

theorem primitiveRead {p : Primitive} (read : d.readAt depth start (.primitive p) = .ok (token, next)) :
    (depth : Int) ≤ d.maxDepth ∧ d.readPrimitive p start = .ok (token, next) := by
  rw [readAt, bindOk] at read
  obtain ⟨_, here, read⟩ := read
  exact ⟨checkDepthOk.mp here, read⟩

theorem boolOfOk {word : Bytes} (read : d.boolOf word start = .ok token) :
    token = .bool (word.getLastD 0 ≠ 0) := by
  simp only [boolOf] at read
  split at read
  · contradiction
  · exact (Except.ok.inj read).symm

theorem takesPrimitive {p : Primitive} (read : d.readPrimitive p start = .ok (token, next)) :
    (∃ payload, token = .scalar p payload) ∧ next = start + p.size ∧ start + p.size ≤ d.buffer.size := by
  cases p with
  | bool =>
    obtain ⟨word, taken, read⟩ := bindOk.mp read
    obtain ⟨found, truth, last⟩ := bindOk.mp read
    cases last
    obtain rfl := boolOfOk truth
    exact ⟨⟨_, rfl⟩, rfl, (takeOk.mp taken).2.1⟩
  | _ =>
    obtain ⟨word, taken, last⟩ := bindOk.mp read
    cases last
    exact ⟨⟨_, rfl⟩, rfl, (takeOk.mp taken).2.1⟩

structure StringRead (d : Decoder) (depth : Nat) (start length : Int) (padded : Bytes) : Prop where
  within : (depth : Int) ≤ d.maxDepth
  taken : d.take (.string length) start (Word.paddedLength length) = .ok padded
  ascii : (padded.between 0 length).all (· < 0x80) = true

theorem stringRead {length : Int} (read : d.readAt depth start (.string length) = .ok (token, next)) :
    ∃ padded, StringRead d depth start length padded ∧
      token = .string (padded.between 0 length).toText length ∧ next = start + Word.paddedLength length := by
  rw [readAt, bindOk] at read
  obtain ⟨_, here, read⟩ := read
  obtain ⟨padded, taken, read⟩ := bindOk.mp read
  dsimp only at read
  split at read
  · rename_i ascii
    cases read
    exact ⟨padded, ⟨checkDepthOk.mp here, taken, ascii⟩, rfl, rfl⟩
  · contradiction

structure ArrayRead (d : Decoder) (depth : Nat) (start : Int) (element : ParamType) (length : Int)
    (items : List Token) (next : Int) : Prop where
  within : (depth : Int) ≤ d.maxDepth
  sized : element.hasSize = true
  first : 0 ≤ start
  room : start + length * element.staticSize ≤ d.buffer.size
  few : element.staticSize = 0 → length ≤ d.maxElements
  count : items.length = length.toNat
  chain : Chain (fun start => d.readAt (depth + 1) start element) start items next

theorem arrayRead {element : ParamType} {length : Int}
    (read : d.readAt depth start (.array element length) = .ok (token, next)) :
    ∃ items, token = .sequence .array items ∧ ArrayRead d depth start element length items next := by
  rw [readAt, bindOk] at read
  obtain ⟨_, here, read⟩ := read
  obtain ⟨_, size, read⟩ := bindOk.mp read
  obtain ⟨_, taken, read⟩ := bindOk.mp read
  obtain ⟨_, few, read⟩ := bindOk.mp read
  obtain ⟨⟨items, last⟩, done, same⟩ := bindOk.mp read
  cases same
  obtain ⟨_, rfl⟩ := ParamType.sizeOk.mp size
  obtain ⟨first, room, _⟩ := takeOk.mp taken
  obtain ⟨sized, few⟩ := checkCountOk.mp few
  obtain ⟨items, rfl, count, chain⟩ := chainOfRepeat done
  exact ⟨items, rfl, checkDepthOk.mp here, sized, first, room, few, count, chain⟩

structure HeadRead (d : Decoder) (start : Int) (element : ParamType) (place : Int) (count : Nat) : Prop where
  sized : element.hasSize = true
  first : 0 ≤ start
  room : start + 24 ≤ d.buffer.size
  pointer : place = Word.read d.buffer.toList start - d.base
  length : count = Word.read d.buffer.toList (start + 16)
  few : element.staticSize = 0 → count ≤ d.maxElements
  nonneg : 0 ≤ place
  inside : place + count * element.staticSize ≤ d.buffer.size

theorem betweenBytes (start stop : Int) : d.between start stop = Bytes.between d.buffer.toList start stop := by
  simp only [between, Bytes.between, Array.toList_extract, List.extract_eq_take_drop, Array.length_toList]

theorem readInHead (start place : Nat) (room : start + 24 ≤ d.buffer.size) (inside : place + 8 ≤ 24) :
    Word.read (d.between start (start + 24 : Nat)) place = Word.read d.buffer.toList (start + place : Nat) := by
  rw [Word.read, Word.read, betweenNat room]
  have here := Bytes.betweenNat ((d.buffer.toList.take (start + 24)).drop start) place (place + 8)
  have there := Bytes.betweenNat d.buffer.toList (start + place) (start + place + 8)
  rw [List.take_drop, List.take_take, List.drop_drop, Nat.min_eq_left (by omega)] at here
  exact congrArg Bytes.toNat (here.trans (Eq.trans (by rw [Nat.add_assoc start place 8]) there.symm))

theorem headRead {element : ParamType} {place : Int} {count : Nat}
    (head : d.readVectorHead element start = .ok (place, count)) : HeadRead d start element place count := by
  rw [readVectorHead, bindOk] at head
  obtain ⟨bytes, taken, head⟩ := head
  dsimp only at head
  obtain ⟨_, few, head⟩ := bindOk.mp head
  obtain ⟨_, size, head⟩ := bindOk.mp head
  obtain ⟨first, room, rfl⟩ := takeOk.mp taken
  obtain ⟨sized, few⟩ := checkCountOk.mp few
  obtain ⟨_, rfl⟩ := ParamType.sizeOk.mp size
  obtain ⟨start, rfl⟩ := Int.eq_ofNat_of_zero_le first
  split at head
  · contradiction
  · rename_i inside
    cases head
    have pointer : Word.read (d.between start (start + 24)) 0 = Word.read d.buffer.toList start :=
      readInHead start 0 (by omega) (by omega)
    have length : Word.read (d.between start (start + 24)) 16 = Word.read d.buffer.toList (start + 16) :=
      readInHead start 16 (by omega) (by omega)
    exact ⟨sized, first, room, by rw [← pointer], length, fun empty => by exact_mod_cast few empty, by omega,
      by omega⟩

structure VectorRead (d : Decoder) (depth : Nat) (start : Int) (element : ParamType) (items : List Token)
    (place last : Int) : Prop where
  within : (depth : Int) ≤ d.maxDepth
  head : HeadRead d start element place items.length
  chain : Chain (fun start => d.readAt (depth + 1) start element) place items last

theorem vectorRead {element : ParamType} (read : d.readAt depth start (.vector element) = .ok (token, next)) :
    ∃ items place last, token = .sequence .vector items ∧ next = start + 24 ∧
      VectorRead d depth start element items place last := by
  rw [readAt, bindOk] at read
  obtain ⟨_, here, read⟩ := read
  obtain ⟨⟨place, count⟩, head, read⟩ := bindOk.mp read
  obtain ⟨⟨items, last⟩, done, same⟩ := bindOk.mp read
  cases same
  obtain ⟨items, rfl, rfl, chain⟩ := chainOfRepeat done
  exact ⟨items, place, last, rfl, rfl, checkDepthOk.mp here, headRead head, chain⟩

theorem membersRead {type : ParamType} {types : List ParamType} {kind : SequenceKind}
    (read : (do
      d.checkDepth depth type
      let (items, last) ← d.readAllAt (depth + 1) start types
      .ok (Token.sequence kind items, last)) = .ok (token, next)) :
    (depth : Int) ≤ d.maxDepth ∧ ∃ items, token = .sequence kind items ∧
      d.readAllAt (depth + 1) start types = .ok (items, next) := by
  obtain ⟨_, here, read⟩ := bindOk.mp read
  obtain ⟨⟨items, _⟩, all, last⟩ := bindOk.mp read
  cases last
  exact ⟨checkDepthOk.mp here, items, rfl, all⟩

theorem tupleRead {elements : List ParamType}
    (read : d.readAt depth start (.tuple elements) = .ok (token, next)) :
    (depth : Int) ≤ d.maxDepth ∧ ∃ items, token = .sequence .tuple items ∧
      d.readAllAt (depth + 1) start elements = .ok (items, next) := by
  rw [readAt] at read
  exact membersRead read

theorem structRead {fields generics : List ParamType} {name : String} {names : List String}
    (read : d.readAt depth start (.struct fields generics name names) = .ok (token, next)) :
    (depth : Int) ≤ d.maxDepth ∧ ∃ items, token = .sequence .struct items ∧
      d.readAllAt (depth + 1) start fields = .ok (items, next) := by
  rw [readAt] at read
  exact membersRead read

structure EnumRead (d : Decoder) (depth : Nat) (start : Int) (variants : List ParamType) (index : Nat)
    (payload : Token) (last : Int) : Prop where
  within : (depth : Int) ≤ d.maxDepth
  sized : ParamType.allHaveSize variants = true
  first : 0 ≤ start
  room : start + (8 + ParamType.widest (ParamType.staticSizes variants)) ≤ d.buffer.size
  discriminant : index = Word.read d.buffer.toList start
  payload : d.readVariantAt (depth + 1) (start + 8) index variants = .ok (some (payload, last))

theorem enumRead {variants generics : List ParamType} {name : String} {names : List String}
    (read : d.readAt depth start (.enum variants generics name names) = .ok (token, next)) :
    ∃ (index : Nat) (payload : Token) (last : Int), token = .enum index payload ⟨variants, names⟩ ∧
      next = start + (8 + ParamType.widest (ParamType.staticSizes variants)) ∧
      EnumRead d depth start variants index payload last := by
  rw [readAt, bindOk] at read
  obtain ⟨_, here, read⟩ := read
  obtain ⟨_, size, read⟩ := bindOk.mp read
  obtain ⟨_, taken, read⟩ := bindOk.mp read
  dsimp only at read
  obtain ⟨payload, found, read⟩ := bindOk.mp read
  obtain ⟨sized, rfl⟩ := ParamType.sizeOk.mp size
  obtain ⟨first, room, _⟩ := takeOk.mp taken
  split at read
  · rename_i payload last
    cases read
    exact ⟨_, payload, last, rfl, rfl, checkDepthOk.mp here, sized, first, room,
      congrArg Bytes.toNat (betweenBytes start (start + 8)), found⟩
  · contradiction

theorem consRead {type : ParamType} {types : List ParamType} {tokens : List Token}
    (read : d.readAllAt depth start (type :: types) = .ok (tokens, next)) :
    ∃ token rest middle, tokens = token :: rest ∧ d.readAt depth start type = .ok (token, middle) ∧
      d.readAllAt depth middle types = .ok (rest, next) := by
  rw [readAllAt, bindOk] at read
  obtain ⟨⟨token, middle⟩, first, read⟩ := read
  obtain ⟨⟨rest, _⟩, others, last⟩ := bindOk.mp read
  cases last
  exact ⟨token, rest, middle, rfl, first, others⟩

theorem unspecifiedUnread (read : d.readAt depth start .unspecified = .ok (token, next)) : False := by
  rw [readAt, bindOk] at read
  obtain ⟨_, _, read⟩ := read
  contradiction

end Decoder

end WordAbi
