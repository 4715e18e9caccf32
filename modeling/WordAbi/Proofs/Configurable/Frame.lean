import WordAbi.Configurable
import WordAbi.Proofs.Schema.Names
import WordAbi.Proofs.Token.Static
import WordAbi.Proofs.Token.Written
/-! What overriding constants leaves as it was. The bytes of a value are as wide as the type of its slot when
every token that is written among it is a value of the type in whose place it stands; then no byte outside
the overridden slots changes. -/
namespace WordAbi

namespace ParamType

mutual

theorem isSpecifiedOfHasSize : (type : ParamType) → type.hasSize = true → type.usesVectors = false →
    type.isSpecified = true
  | primitive _, _, _ => rfl
  | string _, _, _ => rfl
  | array element _, sized, flat => isSpecifiedOfHasSize element sized flat
  | tuple elements, sized, flat => allSpecifiedOfAllHaveSize elements sized flat
  | struct fields _ _ _, sized, flat => allSpecifiedOfAllHaveSize fields sized flat
  | enum variants _ _ _, sized, flat => allSpecifiedOfAllHaveSize variants sized flat

theorem allSpecifiedOfAllHaveSize : (types : List ParamType) → allHaveSize types = true →
    anyUsesVectors types = false → allSpecified types = true
  | [], _, _ => rfl
  | type :: types, sized, flat => by
    simp only [allHaveSize, Bool.and_eq_true] at sized
    simp only [anyUsesVectors, Bool.or_eq_false_iff] at flat
    simp [allSpecified, isSpecifiedOfHasSize type sized.1 flat.1,
      allSpecifiedOfAllHaveSize types sized.2 flat.2]

end

end ParamType

namespace Configurables
open Outcome Token

def withValues (limit : Int) (c : Configurables) (values : List (String × Written)) :
    Except Fault Configurables :=
  values.foldlM (fun c value => withValue limit c value.1 value.2) c

structure Covers (slot : Slot) (override : Int × Bytes) : Prop where
  place : override.1 = slot.offset
  width : slot.type.size = .ok (override.2.length : Int)

theorem slotBytesWidth {limit : Int} {slot : Slot} {value : Written} {bytes : Bytes}
    (sized : slot.type.hasSize = true) (labelled : slot.type.isLabelled = true)
    (fits : TokensFit slot.type value) (written : slotBytes limit slot value = .ok bytes) :
    slot.type.size = .ok (bytes.length : Int) := by
  unfold slotBytes at written
  split at written
  · cases written
  · rename_i flat
    obtain ⟨token, tokenized, written⟩ := bindOk.mp written
    obtain ⟨chunks, encoded, resolved⟩ := bindOk.mp written
    have flat : slot.type.usesVectors = false := by simpa using flat
    have specified := ParamType.isSpecifiedOfHasSize slot.type sized flat
    obtain ⟨own, rest, head, tail, rfl⟩ := encodeAllAtConsOk.mp encoded
    cases tail
    have value := valueOfWritten slot.type specified labelled tokenized fits head
    obtain ⟨_, same, width⟩ := encodesOfIsValue slot.type value (withinOfEncodeAt token head)
    obtain rfl := Except.ok.inj (same.symm.trans head)
    obtain ⟨parts, rfl⟩ := inlineOfIsValue slot.type flat value _ head
    rw [List.append_nil] at resolved
    obtain rfl := Except.ok.inj (resolved.symm.trans (Chunk.resolveInline parts (Chunk.resolveOk.mp resolved).1))
    rw [← Chunk.headSizesInline, width]
    exact ParamType.sizeOfHasSize sized

theorem withValueOk {limit : Int} {c next : Configurables} {name : String} {value : Written} :
    withValue limit c name value = .ok next ↔ ∃ slot bytes, c.slot name = .ok slot ∧
      slotBytes limit slot value = .ok bytes ∧
      next = ⟨c.slots, c.overrides ++ [(slot.offset, bytes)]⟩ := by
  rw [withValue, bindOk]
  constructor
  · rintro ⟨slot, found, made⟩
    obtain ⟨bytes, written, last⟩ := bindOk.mp made
    exact ⟨slot, bytes, found, written, (Except.ok.inj last).symm⟩
  · rintro ⟨slot, bytes, found, written, rfl⟩
    exact ⟨slot, found, bindOk.mpr ⟨bytes, written, rfl⟩⟩

theorem withValuesOk {limit : Int} {c last : Configurables} {values : List (String × Written)}
    (sized : ∀ name slot, c.slot name = .ok slot → slot.type.hasSize = true)
    (labelled : ∀ name slot, c.slot name = .ok slot → slot.type.isLabelled = true)
    (fit : ∀ value ∈ values, ∀ slot, c.slot value.1 = .ok slot → TokensFit slot.type value.2)
    (made : withValues limit c values = .ok last) :
    ∃ overrides, last = ⟨c.slots, c.overrides ++ overrides⟩ ∧
      List.Forall₂ (fun value override => ∃ slot, c.slot value.1 = .ok slot ∧ Covers slot override)
        values overrides := by
  induction values generalizing c with
  | nil =>
    cases made
    exact ⟨[], by simp, .nil⟩
  | cons value values ih =>
    obtain ⟨here, later⟩ := List.forall_mem_cons.mp fit
    rw [withValues, List.foldlM_cons] at made
    obtain ⟨next, first, made⟩ := bindOk.mp made
    obtain ⟨slot, bytes, found, written, rfl⟩ := withValueOk.mp first
    -- the slots stay the same, so that the later steps find in them what the first one would
    obtain ⟨overrides, rfl, each⟩ :=
      @ih ⟨c.slots, c.overrides ++ [(slot.offset, bytes)]⟩ sized labelled later made
    have width := slotBytesWidth (sized _ slot found) (labelled _ slot found) (here slot found) written
    exact ⟨(slot.offset, bytes) :: overrides, by simp, .cons ⟨slot, found, rfl, width⟩ each⟩

theorem writeOk {binary bytes out : Bytes} {offset : Nat} :
    write binary offset bytes = .ok out ↔ offset + bytes.length ≤ binary.length ∧
      out = binary.take offset ++ bytes ++ binary.drop (offset + bytes.length) := by
  unfold write
  split
  · simp only [reduceCtorEq, false_iff]
    omega
  · rename_i fits
    have first : Bytes.index binary.length (offset : Int) = offset := by
      rw [Bytes.index, if_neg (by omega)]
      omega
    have last : Bytes.index binary.length (offset + bytes.length : Int) = offset + bytes.length := by
      rw [Bytes.index, if_neg (by omega)]
      omega
    simp only [splice, first, last, Except.ok.injEq, Nat.max_eq_right (Nat.le_add_right _ _)]
    exact ⟨fun same => ⟨by omega, same.symm⟩, fun same => same.2.symm⟩

theorem writeFrame {binary bytes out : Bytes} {offset : Int} (nonneg : 0 ≤ offset)
    (written : write binary offset bytes = .ok out) :
    out.length = binary.length ∧
      ∀ i : Nat, out[i]? ≠ binary[i]? → offset ≤ i ∧ (i : Int) < offset + bytes.length := by
  obtain ⟨offset, rfl⟩ := Int.eq_ofNat_of_zero_le nonneg
  obtain ⟨fits, rfl⟩ := writeOk.mp written
  refine ⟨by simp; omega, fun i changed => ?_⟩
  by_contra outside
  refine changed ?_
  rcases Nat.lt_or_ge i offset with before | reached
  · rw [List.append_assoc, List.getElem?_append_left (by simp; omega), List.getElem?_take_of_lt before]
  · rw [List.getElem?_append_right (by simp; omega), List.getElem?_drop]
    congr 1
    simp
    omega

theorem applyFrame {overrides : List (Int × Bytes)} (nonneg : ∀ override ∈ overrides, 0 ≤ override.1)
    {binary out : Bytes}
    (applied : overrides.foldlM (fun binary override => write binary override.1 override.2) binary = .ok out) :
    out.length = binary.length ∧ ∀ i : Nat, out[i]? ≠ binary[i]? →
      ∃ override ∈ overrides, override.1 ≤ i ∧ (i : Int) < override.1 + override.2.length := by
  induction overrides generalizing binary with
  | nil =>
    cases applied
    exact ⟨rfl, fun _ changed => absurd rfl changed⟩
  | cons override overrides ih =>
    obtain ⟨here, later⟩ := List.forall_mem_cons.mp nonneg
    rw [List.foldlM_cons] at applied
    obtain ⟨next, first, applied⟩ := bindOk.mp applied
    obtain ⟨length, own⟩ := writeFrame here first
    obtain ⟨lengths, others⟩ := ih later applied
    refine ⟨lengths.trans length, fun i changed => ?_⟩
    by_cases same : out[i]? = next[i]?
    · exact ⟨override, by simp, own i (same ▸ changed)⟩
    · obtain ⟨other, member, inside⟩ := others i same
      exact ⟨other, by simp [member], inside⟩

theorem memOfSlot {slots : List Slot} {name : String} {slot : Slot}
    (found : (ofSlots slots).slot name = .ok slot) : slot ∈ slots := by
  unfold Configurables.slot at found
  split at found
  · rename_i there
    cases found
    rcases Table.valueOfGet there with absurd | ⟨entry, member, same⟩
    · cases absurd
    · obtain ⟨own, inside, rfl⟩ := List.mem_map.mp member
      exact same ▸ inside
  · cases found

/-- When the tokens among the values are values of the types in whose places they stand, each value
overrides exactly the bytes of its slot, and every byte that the overrides change is within such a slot. -/
theorem overridesWithinSlots (limit : Int) {slots : List Slot} {values : List (String × Written)}
    {c : Configurables} (placed : ∀ slot ∈ slots, 0 ≤ slot.offset)
    (sized : ∀ slot ∈ slots, slot.type.hasSize = true)
    (labelled : ∀ slot ∈ slots, slot.type.isLabelled = true)
    (fit : ∀ value ∈ values, ∀ slot, (ofSlots slots).slot value.1 = .ok slot → TokensFit slot.type value.2)
    (made : withValues limit (ofSlots slots) values = .ok c) :
    List.Forall₂ (fun value override => ∃ slot, (ofSlots slots).slot value.1 = .ok slot ∧ Covers slot override)
      values c.overrides ∧
    ∀ binary out, c.apply binary = .ok out → out.length = binary.length ∧
      ∀ i : Nat, out[i]? ≠ binary[i]? → ∃ value ∈ values, ∃ slot, (ofSlots slots).slot value.1 = .ok slot ∧
        slot.offset ≤ i ∧ (i : Int) < slot.offset + slot.type.staticSize := by
  obtain ⟨overrides, rfl, each⟩ := withValuesOk (fun _ slot found => sized slot (memOfSlot found))
    (fun _ slot found => labelled slot (memOfSlot found)) fit made
  refine ⟨each, fun binary out applied => ?_⟩
  have sources : ∀ override ∈ overrides, ∃ value ∈ values, ∃ slot,
      (ofSlots slots).slot value.1 = .ok slot ∧ Covers slot override := pairOfMem each.flip
  have nonneg : ∀ override ∈ overrides, 0 ≤ override.1 := by
    intro override member
    obtain ⟨_, _, slot, found, covers⟩ := sources override member
    exact covers.place ▸ placed slot (memOfSlot found)
  obtain ⟨length, changes⟩ := applyFrame nonneg applied
  refine ⟨length, fun i changed => ?_⟩
  obtain ⟨override, member, first, last⟩ := changes i changed
  obtain ⟨value, among, slot, found, covers⟩ := sources override member
  have width : slot.type.staticSize = override.2.length :=
    Except.ok.inj ((ParamType.sizeOfHasSize (sized slot (memOfSlot found))).symm.trans covers.width)
  rw [covers.place] at first last
  exact ⟨value, among, slot, found, first, by omega⟩

theorem overridesWithinSlotsMixed :
    let owner : ParamType := .struct [.primitive .u8, .primitive .b256] [] "Owner" ["fee", "key"]
    let slots : List Slot := [⟨"FEE", .primitive .u64, 40⟩, ⟨"OWNER", owner, 0⟩]
    let values : List (String × Written) := [("FEE", .int 10),
      ("OWNER", .dict [(.str "key", .embedded (.b256 (List.replicate 32 17))), (.str "fee", .int 7)])]
    let overrides := [(40, Word.bytes 10), (0, Word.bytes 7 ++ List.replicate 32 17)]
    (∀ slot ∈ slots, 0 ≤ slot.offset) ∧ (∀ slot ∈ slots, slot.type.hasSize = true) ∧
      (∀ slot ∈ slots, slot.type.isLabelled = true) ∧
      (∀ value ∈ values, ∀ slot, (ofSlots slots).slot value.1 = .ok slot → TokensFit slot.type value.2) ∧
      ∃ c, withValues 64 (ofSlots slots) values = .ok c ∧ c.overrides = overrides ∧
        List.Forall₂ (fun value override => ∃ slot, (ofSlots slots).slot value.1 = .ok slot ∧
          Covers slot override) values c.overrides ∧
        ∀ binary out, c.apply binary = .ok out → out.length = binary.length ∧
          ∀ i : Nat, out[i]? ≠ binary[i]? → ∃ value ∈ values, ∃ slot,
            (ofSlots slots).slot value.1 = .ok slot ∧ slot.offset ≤ i ∧
              (i : Int) < slot.offset + slot.type.staticSize := by
  intro owner slots values overrides
  have placed : ∀ slot ∈ slots, 0 ≤ slot.offset := by decide
  have sized : ∀ slot ∈ slots, slot.type.hasSize = true := by decide
  have labelled : ∀ slot ∈ slots, slot.type.isLabelled = true := by decide
  have fit : ∀ value ∈ values, ∀ slot, (ofSlots slots).slot value.1 = .ok slot →
      TokensFit slot.type value.2 := by
    intro value member slot found
    rcases List.mem_cons.mp member with rfl | member
    · cases found
      trivial
    · obtain rfl := List.mem_singleton.mp member
      cases found
      rintro items same
      cases same
      exact ⟨trivial, ⟨_, rfl, rfl⟩, trivial⟩
  have made : withValues 64 (ofSlots slots) values = .ok ⟨(ofSlots slots).slots, overrides⟩ := by
    dsimp only [slots, values, overrides, owner]
    rfl
  exact ⟨placed, sized, labelled, fit, _, made, rfl, overridesWithinSlots 64 placed sized labelled fit made⟩

theorem tokenOverridesNeighbours :
    let slots : List Slot := [⟨"FEE", .primitive .u8, 0⟩, ⟨"LIMIT", .primitive .u64, 8⟩]
    let key : Bytes := List.replicate 32 17
    let pair : ParamType := .struct [.primitive .u64, .primitive .u64] [] "Pair" ["first"]
    withValue 64 (ofSlots slots) "FEE" (.embedded (.b256 key)) =
        .ok ⟨(ofSlots slots).slots, [(0, key)]⟩ ∧
      (ParamType.primitive .u8).size = .ok 8 ∧
      apply ⟨(ofSlots slots).slots, [(0, key)]⟩ (Bytes.zeros 40) = .ok (key ++ Bytes.zeros 8) ∧
      slotBytes 64 ⟨"PAIR", pair, 0⟩ (.dict [(.str "first", .int 1)]) = .ok (Word.bytes 1) ∧
      pair.size = .ok 16 :=
  ⟨rfl, rfl, rfl, rfl, rfl⟩

end Configurables

end WordAbi
