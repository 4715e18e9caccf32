import WordAbi.Proofs.Chunk.Layout
import WordAbi.Proofs.Decoder.Window
/-! Encoded values inside a buffer. Chunks stand in a buffer when their heads are at one position, their
blocks at another, and every pointer leads to its block; then so do the parts of the chunks. -/
namespace WordAbi.Decoder
open Chunk

variable {d : Decoder} {offset position : Nat}

def Stands (d : Decoder) (chunks : List Chunk) (offset position : Nat) : Prop :=
  ∃ (origin : Nat) (heads blocks : Bytes), d.base = origin ∧
    placeAll chunks (origin + position) = .ok (heads, blocks) ∧
    d.Holds offset heads ∧ d.Holds position blocks

theorem standsAppend {chunks others : List Chunk} (stands : d.Stands (chunks ++ others) offset position) :
    d.Stands chunks offset position ∧
      d.Stands others (offset + headSizes chunks) (position + blockSizes chunks) := by
  obtain ⟨origin, _, _, base, placed, heads, blocks⟩ := stands
  obtain ⟨h₁, b₁, h₂, b₂, first, second, rfl, rfl⟩ := placeAllAppendOk.mp placed
  obtain ⟨heads₁, heads₂⟩ := holdsAppend.mp heads
  obtain ⟨blocks₁, blocks₂⟩ := holdsAppend.mp blocks
  rw [lengthHeadsOfPlaceAll first] at heads₂
  rw [lengthBlocksOfPlaceAll chunks first] at blocks₂ second
  exact ⟨⟨origin, h₁, b₁, base, first, heads₁, blocks₁⟩,
    ⟨origin, h₂, b₂, base, by simpa [Nat.add_assoc] using second, heads₂, blocks₂⟩⟩

theorem standsInline {bytes : Bytes} {chunks : List Chunk}
    (stands : d.Stands (.inline bytes :: chunks) offset position) :
    d.Holds offset bytes ∧ d.Stands chunks (offset + bytes.length) position := by
  obtain ⟨origin, _, _, base, placed, heads, blocks⟩ := stands
  obtain ⟨head, block, heads', blocks', first, rest, rfl, rfl⟩ := placeAllConsOk.mp placed
  simp only [Chunk.place, Except.ok.injEq, Prod.mk.injEq] at first
  obtain ⟨rfl, rfl⟩ := first
  obtain ⟨here, later⟩ := holdsAppend.mp heads
  exact ⟨here, origin, heads', blocks', base, by simpa using rest, later, by simpa using blocks⟩

theorem standsDynamic {elements chunks : List Chunk}
    (stands : d.Stands (.dynamic elements :: chunks) offset position) :
    ∃ pointer : Nat, pointer ≤ Word.max ∧ (pointer : Int) - d.base = position ∧
      d.Holds offset (Word.bytes pointer) ∧
      d.Stands elements position (position + headSizes elements) ∧
      d.Stands chunks (offset + 8) (position + (headSizes elements + blockSizes elements)) := by
  obtain ⟨origin, _, _, base, placed, heads, blocks⟩ := stands
  obtain ⟨_, _, heads', blocks', first, rest, rfl, rfl⟩ := placeAllConsOk.mp placed
  obtain ⟨fits, rfl, innerHeads, innerBlocks, inner, rfl⟩ := placeDynamicOk.mp first
  obtain ⟨here, later⟩ := holdsAppend.mp heads
  obtain ⟨block, others⟩ := holdsAppend.mp blocks
  obtain ⟨blockHeads, blockBlocks⟩ := holdsAppend.mp block
  have headLength := lengthHeadsOfPlaceAll inner
  have blockLength := lengthBlocksOfPlaceAll elements inner
  rw [headLength] at blockBlocks
  rw [List.length_append, headLength, blockLength] at others rest
  rw [Word.lengthBytes] at later
  refine ⟨origin + position, fits, by omega, here, ?_, ?_⟩
  · exact ⟨origin, innerHeads, innerBlocks, base, by simpa [Nat.add_assoc] using inner, blockHeads,
      blockBlocks⟩
  · exact ⟨origin, heads', blocks', base, by simpa [Nat.add_assoc] using rest, later, others⟩

theorem standsEnd {chunks : List Chunk} (stands : d.Stands chunks offset position) :
    offset + headSizes chunks ≤ d.buffer.size := by
  obtain ⟨_, heads, _, _, placed, holds, _⟩ := stands
  rw [← lengthHeadsOfPlaceAll placed]
  exact holdsEnd holds

theorem standsResolved {chunks : List Chunk} {base : Nat} {data : Bytes} (origin : d.base = base)
    (buffer : d.buffer.toList = data) (resolved : resolve chunks base = .ok data) :
    d.Stands chunks 0 (headSizes chunks) := by
  obtain ⟨_, heads, blocks, placed, rfl⟩ := resolveOk.mp resolved
  have holds := holdsAll d
  rw [buffer] at holds
  obtain ⟨front, back⟩ := holdsAppend.mp holds
  rw [lengthHeadsOfPlaceAll placed, Nat.zero_add] at back
  exact ⟨base, heads, blocks, origin, by simpa using placed, front, back⟩

end WordAbi.Decoder
