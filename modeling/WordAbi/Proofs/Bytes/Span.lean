import Mathlib.Data.List.Nodup
import Mathlib.Data.List.Perm.Subperm
import Mathlib.Data.List.Pairwise
import WordAbi.Bytes.Basic
/-! Spans of bytes in a buffer. Spans that share no byte are together no wider than the buffer that they lie in. -/
namespace WordAbi

structure Span where
  start : Nat
  stop : Nat
  deriving DecidableEq, Repr

namespace Span

def Covers (span : Span) (position : Nat) : Prop := span.start ≤ position ∧ position < span.stop

instance (span : Span) (position : Nat) : Decidable (span.Covers position) := inferInstanceAs (Decidable (_ ∧ _))

def Apart (span other : Span) : Prop := ∀ position, span.Covers position → ¬ other.Covers position

def Inside (inner outer : Span) : Prop := outer.start ≤ inner.start ∧ inner.stop ≤ outer.stop

def width (span : Span) : Nat := span.stop - span.start

def widths : List Span → Nat
  | [] => 0
  | span :: spans => span.width + widths spans

def positions (span : Span) : List Nat := List.range' span.start span.width

theorem memPositions {span : Span} {position : Nat} : position ∈ span.positions ↔ span.Covers position := by
  rw [positions, List.mem_range'_1, width, Covers]
  omega

theorem apartIff {span other : Span} :
    span.Apart other ↔ min span.stop other.stop ≤ max span.start other.start := by
  constructor
  · intro apart
    have here := apart (max span.start other.start)
    simp only [Covers] at here
    omega
  · intro order position first second
    simp only [Covers] at first second
    omega

instance (span other : Span) : Decidable (span.Apart other) := decidable_of_iff _ apartIff.symm

theorem insideRefl (span : Span) : span.Inside span := ⟨Nat.le_refl _, Nat.le_refl _⟩

theorem insideTrans {inner middle outer : Span} (inside : inner.Inside middle) (within : middle.Inside outer) :
    inner.Inside outer := ⟨Nat.le_trans within.1 inside.1, Nat.le_trans inside.2 within.2⟩

theorem insideSome {span inner outer : Span} {spans others : List Span} (inside : inner.Inside outer)
    (all : spans ⊆ others) (some : ∃ region ∈ inner :: spans, span.Inside region) :
    ∃ region ∈ outer :: others, span.Inside region := by
  obtain ⟨region, member, within⟩ := some
  rcases List.mem_cons.mp member with rfl | member
  · exact ⟨outer, List.mem_cons_self, insideTrans within inside⟩
  · exact ⟨region, List.mem_cons_of_mem outer (all member), within⟩

theorem apartSymm {span other : Span} (apart : span.Apart other) : other.Apart span :=
  fun position second first => apart position first second

theorem coversOuter {inner outer : Span} (inside : inner.Inside outer) {position : Nat}
    (covered : inner.Covers position) : outer.Covers position :=
  ⟨Nat.le_trans inside.1 covered.1, Nat.lt_of_lt_of_le covered.2 inside.2⟩

theorem apartInside {first second inner other : Span} (apart : first.Apart second) (inside : inner.Inside first)
    (within : other.Inside second) : inner.Apart other :=
  fun position here there => apart position (coversOuter inside here) (coversOuter within there)

theorem apartParts {start middle stop : Nat} {spans others : List Span} (first : start ≤ middle)
    (last : middle ≤ stop) (apart : (⟨start, stop⟩ :: (spans ++ others)).Pairwise Apart) :
    (⟨start, middle⟩ :: spans).Pairwise Apart ∧ (⟨middle, stop⟩ :: others).Pairwise Apart ∧
      ∀ span ∈ Span.mk start middle :: spans, ∀ other ∈ Span.mk middle stop :: others, span.Apart other := by
  obtain ⟨whole, rest⟩ := List.pairwise_cons.mp apart
  obtain ⟨these, those, across⟩ := List.pairwise_append.mp rest
  have left : Inside ⟨start, middle⟩ ⟨start, stop⟩ := ⟨Nat.le_refl start, last⟩
  have right : Inside ⟨middle, stop⟩ ⟨start, stop⟩ := ⟨first, Nat.le_refl stop⟩
  have fromLeft : ∀ span ∈ spans ++ others, Apart ⟨start, middle⟩ span :=
    fun span member => apartInside (whole span member) left (insideRefl span)
  have fromRight : ∀ span ∈ spans ++ others, Apart ⟨middle, stop⟩ span :=
    fun span member => apartInside (whole span member) right (insideRefl span)
  have between : Apart ⟨start, middle⟩ ⟨middle, stop⟩ :=
    apartIff.mpr (Nat.le_trans (Nat.min_le_left _ _) (Nat.le_max_right _ _))
  have ownLeft : ∀ span ∈ spans, Apart ⟨start, middle⟩ span :=
    fun span member => fromLeft span (List.mem_append_left _ member)
  have ownRight : ∀ span ∈ others, Apart ⟨middle, stop⟩ span :=
    fun span member => fromRight span (List.mem_append_right _ member)
  refine ⟨List.pairwise_cons.mpr ⟨ownLeft, these⟩, List.pairwise_cons.mpr ⟨ownRight, those⟩, ?_⟩
  refine List.forall_mem_cons.mpr ⟨List.forall_mem_cons.mpr ⟨between, ?_⟩, fun span member =>
    List.forall_mem_cons.mpr ⟨?_, across span member⟩⟩
  · exact fun other member => fromLeft other (List.mem_append_right _ member)
  · exact apartSymm (fromRight span (List.mem_append_left _ member))

theorem widthsAppend (spans others : List Span) : widths (spans ++ others) = widths spans + widths others := by
  induction spans with
  | nil => exact (Nat.zero_add _).symm
  | cons span spans ih => rw [List.cons_append, widths, widths, ih, Nat.add_assoc]

theorem lengthPositions (spans : List Span) : (spans.flatMap positions).length = widths spans := by
  induction spans with
  | nil => rfl
  | cons span spans ih => rw [List.flatMap_cons, List.length_append, positions, List.length_range', ih, widths]

theorem widthsLe {spans : List Span} {size : Nat} (inside : ∀ span ∈ spans, span.stop ≤ size) :
    widths spans ≤ spans.length * size := by
  induction spans with
  | nil => exact Nat.zero_le _
  | cons span spans ih =>
    obtain ⟨here, later⟩ := List.forall_mem_cons.mp inside
    have rest := ih later
    rw [widths, width, List.length_cons, Nat.add_one_mul]
    omega

theorem widthsOfApart {spans : List Span} {size : Nat} (apart : spans.Pairwise Apart)
    (inside : ∀ span ∈ spans, span.stop ≤ size) : widths spans ≤ size := by
  have distinct : (spans.flatMap positions).Nodup := by
    refine List.nodup_flatMap.mpr ⟨fun span _ => List.nodup_range', apart.imp fun {span other} apart => ?_⟩
    intro position here there
    exact apart position (memPositions.mp here) (memPositions.mp there)
  have within : spans.flatMap positions ⊆ List.range size := by
    intro position member
    obtain ⟨span, there, covered⟩ := List.mem_flatMap.mp member
    exact List.mem_range.mpr (Nat.lt_of_lt_of_le (memPositions.mp covered).2 (inside span there))
  have fewer := (distinct.subperm within).length_le
  rwa [lengthPositions, List.length_range] at fewer

end Span

end WordAbi
