import WordAbi.Proofs.Bytes.Span
import WordAbi.Proofs.Decoder.Failure
/-! Which bytes a decoder reads. The heads of a value are one region of the buffer and the elements of each vector
another, and each leaf that has bytes is read from within one of them. Regions that share no byte bound the leaves by
the buffer; nothing keeps the pointers of two vectors from leading to the same bytes, and then these are read again. -/
namespace WordAbi

/-- The bytes that the leaves of a value are read from, and the blocks that the pointers of its vectors lead to. -/
structure Footprint where
  leaves : List Span
  blocks : List Span

namespace Footprint

def empty : Footprint := ⟨[], []⟩

def append (footprint other : Footprint) : Footprint :=
  ⟨footprint.leaves ++ other.leaves, footprint.blocks ++ other.blocks⟩

def repeated (each : Nat → Footprint) (width : Nat) : (count start : Nat) → Footprint
  | 0, _ => empty
  | count + 1, start => (each start).append (repeated each width count (start + width))

end Footprint

namespace ParamType

def width (type : ParamType) : Nat := type.staticSize.toNat

theorem widthEq {type : ParamType} (counted : type.isCounted = true) : (type.width : Int) = type.staticSize :=
  Int.toNat_of_nonneg (staticSizeNonneg type counted)

def totalWidth : List ParamType → Nat
  | [] => 0
  | type :: types => type.width + totalWidth types

theorem totalWidthEq {types : List ParamType} (counted : allCounted types = true) :
    totalWidth types = (total (staticSizes types)).toNat := by
  induction types with
  | nil => rfl
  | cons type types ih =>
    simp only [allCounted, Bool.and_eq_true] at counted
    have here := staticSizeNonneg type counted.1
    have rest := totalNonneg (staticSizesNonneg types counted.2)
    rw [totalWidth, ih counted.2, width, staticSizes, total, Int.toNat_add here rest]

mutual

/-- The footprint of a value of the type that is read at the offset, as the words of the buffer say it: a vector's
pointer and length, and the discriminant of an enum. -/
def footprint (data : Bytes) (base : Int) : ParamType → (start : Nat) → Footprint
  | primitive p, start => ⟨[⟨start, start + p.size.toNat⟩], []⟩
  | string length, start =>
    if 0 < length then ⟨[⟨start, start + (string length).width⟩], []⟩ else .empty
  | array element length, start =>
    .repeated (footprint data base element) element.width length.toNat start
  | vector element, start =>
    let place := (Word.read data start - base).toNat
    let count := Word.read data (start + 16)
    let elements := Footprint.repeated (footprint data base element) element.width count place
    ⟨elements.leaves, ⟨place, place + count * element.width⟩ :: elements.blocks⟩
  | tuple elements, start => footprints data base elements start
  | struct fields _ _ _, start => footprints data base fields start
  | enum variants _ _ _, start => variantFootprint data base variants (Word.read data start) (start + 8)
  | unspecified, _ => .empty

def footprints (data : Bytes) (base : Int) : List ParamType → (start : Nat) → Footprint
  | [], _ => .empty
  | type :: types, start => (footprint data base type start).append (footprints data base types (start + type.width))

def variantFootprint (data : Bytes) (base : Int) : List ParamType → (index start : Nat) → Footprint
  | [], _, _ => .empty
  | type :: _, 0, start => footprint data base type start
  | _ :: types, index + 1, start => variantFootprint data base types index start

end

end ParamType

namespace Token

mutual

def leaves : Token → List Token
  | scalar p payload => [scalar p payload]
  | string text expected => if text = "" then [] else [string text expected]
  | sequence _ items => allLeaves items
  | enum _ payload _ => leaves payload
  | _ => []

def allLeaves : List Token → List Token
  | [] => []
  | token :: tokens => leaves token ++ allLeaves tokens

end

mutual

def vectors : Token → Nat
  | sequence .vector items => allVectors items + 1
  | sequence _ items => allVectors items
  | enum _ payload _ => vectors payload
  | _ => 0

def allVectors : List Token → Nat
  | [] => 0
  | token :: tokens => vectors token + allVectors tokens

end

end Token

namespace Decoder
open Outcome Token ParamType

variable {d : Decoder}

structure ReadsLeaf (d : Decoder) (span : Span) (leaf : Token) : Prop where
  wide : span.start + 8 ≤ span.stop
  room : span.stop ≤ d.buffer.size
  read : ∃ depth type, d.readAt depth span.start type = .ok (leaf, (span.stop : Int))

structure Tidy (d : Decoder) (span : Span) (footprint : Footprint) (leaves : List Token) (vectors : Nat) :
    Prop where
  reads : List.Forall₂ d.ReadsLeaf footprint.leaves leaves
  home : ∀ leaf ∈ footprint.leaves, ∃ region ∈ span :: footprint.blocks, leaf.Inside region
  room : ∀ block ∈ footprint.blocks, block.stop ≤ d.buffer.size
  count : footprint.blocks.length = vectors
  apart : (span :: footprint.blocks).Pairwise Span.Apart → footprint.leaves.Pairwise Span.Apart
  weight : 8 * footprint.leaves.length ≤ Span.widths (span :: footprint.blocks)

theorem tidyEmpty (span : Span) : d.Tidy span .empty [] 0 where
  reads := .nil
  home := by simp [Footprint.empty]
  room := by simp [Footprint.empty]
  count := rfl
  apart _ := .nil
  weight := Nat.zero_le _

theorem tidyLeaf {span : Span} {leaf : Token} (reads : d.ReadsLeaf span leaf) :
    d.Tidy span ⟨[span], []⟩ [leaf] 0 where
  reads := .cons reads .nil
  home := by simp [Span.insideRefl]
  room := by simp
  count := rfl
  apart _ := List.pairwise_singleton _ _
  weight := by
    have := reads.wide
    simp [Span.widths, Span.width]
    omega

theorem tidyAppend {start middle stop : Nat} {footprint other : Footprint} {leaves others : List Token} {m n : Nat}
    (first : start ≤ middle) (last : middle ≤ stop) (here : d.Tidy ⟨start, middle⟩ footprint leaves m)
    (there : d.Tidy ⟨middle, stop⟩ other others n) :
    d.Tidy ⟨start, stop⟩ (footprint.append other) (leaves ++ others) (m + n) where
  reads := List.rel_append here.reads there.reads
  home := by
    intro leaf member
    rcases List.mem_append.mp member with own | other
    · exact Span.insideSome ⟨Nat.le_refl start, last⟩ (List.subset_append_left _ _) (here.home leaf own)
    · exact Span.insideSome ⟨first, Nat.le_refl stop⟩ (List.subset_append_right _ _) (there.home leaf other)
  room := List.forall_mem_append.mpr ⟨here.room, there.room⟩
  count := by rw [Footprint.append, List.length_append, here.count, there.count]
  apart := by
    intro apart
    obtain ⟨these, those, across⟩ := Span.apartParts first last apart
    refine List.pairwise_append.mpr ⟨here.apart these, there.apart those, ?_⟩
    intro leaf member other among
    obtain ⟨region, own, inside⟩ := here.home leaf member
    obtain ⟨block, its, within⟩ := there.home other among
    exact Span.apartInside (across region own block its) inside within
  weight := by
    have these := here.weight
    have those := there.weight
    simp only [Span.widths, Span.width, Footprint.append, Span.widthsAppend, List.length_append] at *
    omega

theorem tidyBlock {block span : Span} {footprint : Footprint} {leaves : List Token} {vectors : Nat}
    (inside : block.stop ≤ d.buffer.size) (tidy : d.Tidy block footprint leaves vectors) :
    d.Tidy span ⟨footprint.leaves, block :: footprint.blocks⟩ leaves (vectors + 1) where
  reads := tidy.reads
  home leaf member := by
    obtain ⟨region, own, within⟩ := tidy.home leaf member
    exact ⟨region, List.mem_cons_of_mem span own, within⟩
  room := List.forall_mem_cons.mpr ⟨inside, tidy.room⟩
  count := congrArg (· + 1) tidy.count
  apart apart := tidy.apart (List.pairwise_cons.mp apart).2
  weight := Nat.le_trans tidy.weight (Nat.le_add_left _ _)

theorem tidyWider {inner outer : Span} {footprint : Footprint} {leaves : List Token} {vectors : Nat}
    (inside : inner.Inside outer) (tidy : d.Tidy inner footprint leaves vectors) :
    d.Tidy outer footprint leaves vectors where
  reads := tidy.reads
  home leaf member := Span.insideSome inside (List.Subset.refl _) (tidy.home leaf member)
  room := tidy.room
  count := tidy.count
  apart := by
    intro apart
    obtain ⟨whole, rest⟩ := List.pairwise_cons.mp apart
    exact tidy.apart (List.pairwise_cons.mpr
      ⟨fun block member => Span.apartInside (whole block member) inside (Span.insideRefl block), rest⟩)
  weight := by
    have := tidy.weight
    simp only [Span.widths, Span.width, Span.Inside] at *
    omega

structure Walks (d : Decoder) (start width : Nat) (footprint : Footprint) (leaves : List Token) (vectors : Nat)
    (next : Int) : Prop where
  next : next = (start + width : Nat)
  room : start + width ≤ d.buffer.size
  tidy : d.Tidy ⟨start, start + width⟩ footprint leaves vectors

theorem walksEmpty {start : Nat} (room : start ≤ d.buffer.size) : d.Walks start 0 .empty [] 0 start :=
  ⟨rfl, room, tidyEmpty _⟩

theorem walksAppend {start width more : Nat} {footprint other : Footprint} {leaves others : List Token} {m n : Nat}
    {middle next : Int} (here : d.Walks start width footprint leaves m middle)
    (there : d.Walks (start + width) more other others n next) :
    d.Walks start (width + more) (footprint.append other) (leaves ++ others) (m + n) next := by
  have tidy := tidyAppend (Nat.le_add_right start width) (Nat.le_add_right _ more) here.tidy there.tidy
  have room := there.room
  refine ⟨?_, ?_, ?_⟩
  · rw [there.next, Nat.add_assoc]
  · omega
  · rwa [Nat.add_assoc] at tidy

theorem walksLeaf {start width depth : Nat} {type : ParamType} {leaf : Token} (wide : 8 ≤ width)
    (room : start + width ≤ d.buffer.size) (read : d.readAt depth start type = .ok (leaf, (start + width : Nat))) :
    d.Walks start width ⟨[⟨start, start + width⟩], []⟩ [leaf] 0 (start + width : Nat) :=
  ⟨rfl, room, tidyLeaf ⟨Nat.add_le_add_left wide start, room, depth, type, read⟩⟩

def Walker (d : Decoder) (type : ParamType) : Prop :=
  ∀ {depth start : Nat} {token : Token} {next : Int}, start ≤ d.buffer.size →
    d.readAt depth start type = .ok (token, next) →
    d.Walks start type.width (footprint d.buffer.toList d.base type start) token.leaves token.vectors next

theorem walksPrimitive (p : Primitive) : d.Walker (.primitive p) := by
  intro depth start token next inside read
  obtain ⟨⟨payload, rfl⟩, last, room⟩ := takesPrimitive (primitiveRead read).2
  have size : ((ParamType.primitive p).width : Int) = p.size := by cases p <;> rfl
  have wide : 8 ≤ (ParamType.primitive p).width := by cases p <;> decide
  have stop : next = (start + (ParamType.primitive p).width : Nat) := by omega
  subst stop
  exact walksLeaf wide (by omega) read

theorem walksString {length : Int} (counted : 0 ≤ length) : d.Walker (.string length) := by
  intro depth start token next inside read
  obtain ⟨text, rfl, _, size⟩ := (decodedString counted read).value
  obtain ⟨padded, found, _, last⟩ := stringRead read
  have room := (takeOk.mp found.taken).2.1
  have width : ((ParamType.string length).width : Int) = Word.paddedLength length :=
    widthEq (by simpa [isCounted] using counted)
  have stop : next = (start + (ParamType.string length).width : Nat) := by omega
  subst stop
  show d.Walks start _ _ _ 0 _
  rw [footprint, leaves]
  by_cases empty : length = 0
  · subst empty
    have none : text = "" := by simpa using size
    rw [if_neg (Int.lt_irrefl 0), if_pos none]
    exact walksEmpty inside
  · have wide := Word.lePaddedLength length
    have whole := Word.paddedLengthDvd length
    have some : text ≠ "" := by
      rintro rfl
      exact empty size.symm
    rw [if_pos (by omega), if_neg some]
    exact walksLeaf (by omega) (by omega) read

theorem walksChain {element : ParamType} {depth : Nat} (walks : d.Walker element) {items : List Token} {next : Int} :
    ∀ {start : Nat}, start ≤ d.buffer.size →
    Chain (fun start => d.readAt depth start element) start items next →
    d.Walks start (items.length * element.width)
      (.repeated (footprint d.buffer.toList d.base element) element.width items.length start)
      (allLeaves items) (allVectors items) next := by
  induction items with
  | nil =>
    intro start inside chain
    cases chain
    rw [List.length_nil, Nat.zero_mul]
    exact walksEmpty inside
  | cons item items ih =>
    intro start inside chain
    obtain ⟨middle, found, rest⟩ := chain
    have first := walks inside found
    obtain rfl := first.next
    have others := ih first.room rest
    rw [List.length_cons, Nat.add_one_mul, Nat.add_comm]
    exact walksAppend first others

theorem walksArray {element : ParamType} {length : Int} (walks : d.Walker element) (some : 0 ≤ length)
    (counted : element.isCounted = true) : d.Walker (.array element length) := by
  intro depth start token next inside read
  obtain ⟨items, rfl, found⟩ := arrayRead read
  have width : (ParamType.array element length).width = items.length * element.width := by
    obtain ⟨count, rfl⟩ := Int.eq_ofNat_of_zero_le some
    have number : items.length = count := found.count
    rw [width, staticSize, ← widthEq counted, number, ← Int.natCast_mul, Int.toNat_natCast]
  rw [footprint, width, ← found.count]
  exact walksChain walks inside found.chain

theorem walksVector {element : ParamType} (walks : d.Walker element) (counted : element.isCounted = true) :
    d.Walker (.vector element) := by
  intro depth start token next inside read
  obtain ⟨items, place, _, rfl, rfl, found⟩ := vectorRead read
  obtain ⟨place, rfl⟩ := Int.eq_ofNat_of_zero_le found.head.nonneg
  have inside := found.head.inside
  rw [← widthEq counted] at inside
  have room : place + items.length * element.width ≤ d.buffer.size := by exact_mod_cast inside
  have all := walksChain walks (Nat.le_trans (Nat.le_add_right _ _) room) found.chain
  have head := found.head.room
  rw [footprint, ← found.head.pointer, ← found.head.length]
  exact ⟨rfl, by exact_mod_cast head, tidyBlock room all.tidy⟩

def AllWalker (d : Decoder) (types : List ParamType) : Prop :=
  ∀ {depth start : Nat} {tokens : List Token} {next : Int}, start ≤ d.buffer.size →
    d.readAllAt depth start types = .ok (tokens, next) →
    d.Walks start (totalWidth types) (footprints d.buffer.toList d.base types start) (allLeaves tokens)
      (allVectors tokens) next

def VariantWalker (d : Decoder) (types : List ParamType) (index : Nat) : Prop :=
  ∀ {depth start : Nat} {payload : Token} {last : Int}, start ≤ d.buffer.size →
    d.readVariantAt depth start index types = .ok (some (payload, last)) →
    ∃ type ∈ types, d.Walks start type.width (variantFootprint d.buffer.toList d.base types index start)
      payload.leaves payload.vectors last

theorem walksTuple {elements : List ParamType} (walks : d.AllWalker elements)
    (counted : allCounted elements = true) : d.Walker (.tuple elements) := by
  intro depth start token next inside read
  obtain ⟨_, items, rfl, all⟩ := tupleRead read
  rw [width, staticSize, ← totalWidthEq counted]
  exact walks inside all

theorem walksStruct {fields generics : List ParamType} {name : String} {names : List String}
    (walks : d.AllWalker fields) (counted : allCounted fields = true) :
    d.Walker (.struct fields generics name names) := by
  intro depth start token next inside read
  obtain ⟨_, items, rfl, all⟩ := structRead read
  rw [width, staticSize, ← totalWidthEq counted]
  exact walks inside all

theorem walksEnum {variants generics : List ParamType} {name : String} {names : List String}
    (walks : ∀ index, d.VariantWalker variants index) (counted : allCounted variants = true) :
    d.Walker (.enum variants generics name names) := by
  intro depth start token next inside read
  obtain ⟨index, payload, _, rfl, last, found⟩ := enumRead read
  have whole : ((ParamType.enum variants generics name names).width : Int) = 8 + widest (staticSizes variants) :=
    widthEq counted
  have room := found.room
  have widestNat := widestNonneg (staticSizesNonneg variants counted)
  have inner : d.readVariantAt (depth + 1) (start + 8 : Nat) index variants = .ok (some (payload, _)) :=
    found.payload
  obtain ⟨type, member, walk⟩ := walks index (by omega) inner
  have narrow : type.width ≤ (widest (staticSizes variants)).toNat :=
    Int.toNat_le_toNat (leWidest (memStaticSizes member))
  have inside : Span.Inside ⟨start + 8, start + 8 + type.width⟩
      ⟨start, start + (ParamType.enum variants generics name names).width⟩ :=
    ⟨Nat.le_add_right start 8, show start + 8 + type.width ≤ start + _ by omega⟩
  rw [footprint, ← found.discriminant]
  exact ⟨by omega, by omega, tidyWider inside walk.tidy⟩

mutual

theorem walker : (type : ParamType) → type.isCounted = true → d.Walker type
  | .primitive p, _ => walksPrimitive p
  | .string _, counted => walksString (by simpa [isCounted] using counted)
  | .array element _, counted => by
    simp only [isCounted, Bool.and_eq_true, decide_eq_true_eq] at counted
    exact walksArray (walker element counted.2) counted.1 counted.2
  | .vector element, counted => walksVector (walker element counted) counted
  | .tuple elements, counted => walksTuple (allWalker elements counted) counted
  | .struct fields _ _ _, counted => walksStruct (allWalker fields counted) counted
  | .enum variants _ _ _, counted => walksEnum (variantWalker variants counted) counted
  | .unspecified, _ => fun _ read => (unspecifiedUnread read).elim

theorem allWalker : (types : List ParamType) → allCounted types = true → d.AllWalker types
  | [], _ => by
    intro inside read
    cases read
    exact walksEmpty inside
  | type :: types, counted => by
    simp only [allCounted, Bool.and_eq_true] at counted
    intro inside read
    obtain ⟨token, tokens, middle, rfl, first, rest⟩ := consRead read
    have here := walker type counted.1 inside first
    obtain rfl := here.next
    exact walksAppend here (allWalker types counted.2 here.room rest)

theorem variantWalker : (types : List ParamType) → allCounted types = true → ∀ index, d.VariantWalker types index
  | [], _, _ => by
    intro _ read
    simp [readVariantAt] at read
  | type :: _, counted, 0 => by
    simp only [allCounted, Bool.and_eq_true] at counted
    intro inside read
    obtain ⟨_, read, same⟩ := mapOk.mp read
    obtain rfl := Option.some.inj same
    exact ⟨type, List.mem_cons_self, walker type counted.1 inside read⟩
  | type :: types, counted, index + 1 => by
    simp only [allCounted, Bool.and_eq_true] at counted
    intro inside read
    obtain ⟨chosen, member, walk⟩ := variantWalker types counted.2 index inside read
    exact ⟨chosen, List.mem_cons_of_mem type member, walk⟩

end

end Decoder

open Token ParamType

def ParamType.regions (data : Bytes) (base : Int) (types : List ParamType) : List Span :=
  ⟨0, totalWidth types⟩ :: (footprints data base types 0).blocks

/-- What is decoded by types without negative lengths has each leaf with bytes from a span of them in one of the
regions, which lie in the buffer and are one more than there are vectors. When no two regions share a byte, neither
do two leaves, which are then no more than the words of the buffer; else they are no more than that for each region. -/
theorem decodeRegions {settings : Settings} {types : List ParamType} {data : Bytes} {base : Int}
    {tokens : List Token} (counted : allCounted types = true)
    (decoded : decode settings types data base = .ok tokens) :
    (∃ d, Decoder.make settings data base = .ok d ∧
      List.Forall₂ d.ReadsLeaf (footprints data base types 0).leaves (allLeaves tokens)) ∧
    (∀ leaf ∈ (footprints data base types 0).leaves, ∃ region ∈ regions data base types, leaf.Inside region) ∧
    (∀ region ∈ regions data base types, region.stop ≤ data.length) ∧
    (regions data base types).length = allVectors tokens + 1 ∧
    ((regions data base types).Pairwise Span.Apart →
      (footprints data base types 0).leaves.Pairwise Span.Apart ∧ (allLeaves tokens).length ≤ data.length / 8) ∧
    8 * (allLeaves tokens).length ≤ (allVectors tokens + 1) * data.length := by
  rw [← decodeWithinSettings] at decoded
  obtain ⟨short, next, read⟩ := Decoder.decodeWithinOk.mp decoded
  have walks := Decoder.allWalker types counted (Nat.zero_le _) read
  have tidy := walks.tidy
  have room : ∀ region ∈ regions data base types, region.stop ≤ data.length :=
    List.forall_mem_cons.mpr ⟨by simpa using walks.room, by simpa using tidy.room⟩
  have number : (regions data base types).length = allVectors tokens + 1 := congrArg (· + 1) tidy.count
  have same := tidy.reads.length_eq
  have weight : 8 * (allLeaves tokens).length ≤ Span.widths (regions data base types) := by
    rw [← same]
    simpa [regions] using tidy.weight
  refine ⟨⟨_, Decoder.makeOk.mpr ⟨short, rfl⟩, tidy.reads⟩, by simpa [regions] using tidy.home, room, number, ?_, ?_⟩
  · intro apart
    have fits := Nat.le_trans weight (Span.widthsOfApart apart room)
    exact ⟨tidy.apart (by simpa [regions] using apart), by omega⟩
  · rw [← number]
    exact Nat.le_trans weight (Span.widthsLe room)

theorem decodeRegionsNested :
    let types : List ParamType :=
      [.primitive .u8, .vector (.vector (.tuple [.primitive .bool, .primitive .u16]))]
    let data := [7, 132, 1, 1, 156, 1, 1, 1, 500].flatMap Word.bytes
    let tokens : List Token := [.number .u8 7,
      .sequence .vector [.sequence .vector [.sequence .tuple [.bool true, .number .u16 500]]]]
    allCounted types = true ∧ decode .default types data 100 = .ok tokens ∧
      regions data 100 types = [⟨0, 32⟩, ⟨32, 56⟩, ⟨56, 72⟩] ∧ (regions data 100 types).Pairwise Span.Apart ∧
      (footprints data 100 types 0).leaves.Pairwise Span.Apart ∧ (allLeaves tokens).length ≤ data.length / 8 := by
  intro types data tokens
  have counted : allCounted types = true := rfl
  have decoded : decode .default types data 100 = .ok tokens := by
    dsimp only [types, data, tokens]
    rfl
  have places : regions data 100 types = [⟨0, 32⟩, ⟨32, 56⟩, ⟨56, 72⟩] := by
    dsimp only [types, data]
    rfl
  have apart : (regions data 100 types).Pairwise Span.Apart := by
    rw [places]
    decide
  obtain ⟨_, _, _, _, bounded, _⟩ := decodeRegions counted decoded
  exact ⟨counted, decoded, places, apart, bounded apart⟩

theorem sharedBytesReadAgain :
    let types : List ParamType := [.vector (.primitive .u64), .vector (.primitive .u64)]
    let data := [0, 6, 6, 0, 6, 6].flatMap Word.bytes
    let negative : List ParamType := [.primitive .u64, .string (-8), .primitive .u64]
    let choice : ParamType := .enum [.tuple [.array (.primitive .u64) (-2), .primitive .u64]] [] "Choice" []
    (∃ tokens, decode .default types data 0 = .ok tokens ∧ data.length / 8 < (allLeaves tokens).length ∧
        ¬ (footprints data 0 types 0).leaves.Pairwise Span.Apart) ∧
      (∃ tokens, decode .default negative (Word.bytes 5) 0 = .ok tokens ∧
        (Word.bytes 5).length / 8 < (allLeaves tokens).length) ∧
      ∃ tokens, decode .default [choice, choice, choice] ([0, 5].flatMap Word.bytes) 0 = .ok tokens ∧
        ([0, 5].flatMap Word.bytes).length / 8 < (allLeaves tokens).length := by
  intro types data negative choice
  let items : List Token := [.number .u64 0, .number .u64 6, .number .u64 6, .number .u64 0, .number .u64 6,
    .number .u64 6]
  let chosen : Token := .enum 0 (.sequence .tuple [.sequence .array [], .number .u64 5])
    ⟨[.tuple [.array (.primitive .u64) (-2), .primitive .u64]], []⟩
  have shared : decode .default types data 0 = .ok [.sequence .vector items, .sequence .vector items] := by
    dsimp only [types, data, items]
    rfl
  have back : decode .default negative (Word.bytes 5) 0 =
      .ok [.number .u64 5, .string "" (-8), .number .u64 5] := by
    dsimp only [negative]
    rfl
  have still : decode .default [choice, choice, choice] ([0, 5].flatMap Word.bytes) 0 =
      .ok [chosen, chosen, chosen] := by
    dsimp only [choice, chosen]
    rfl
  exact ⟨⟨_, shared, by decide, by decide⟩, ⟨_, back, by decide⟩, _, still, by decide⟩

end WordAbi
