import WordAbi.Proofs.Token.Value
/-! Encodings that are put together. Main statement: chunks one after another resolve to the heads of both and then the
blocks of both, each as they resolve where they then stand, and tokens one after another are encoded as the chunks of
both. -/
namespace WordAbi
open Outcome

namespace Chunk

variable {chunks others : List Chunk}

theorem joinPlaced {address address' : Nat} {heads blocks heads' blocks' : Bytes}
    (placed : placeAll chunks address = .ok (heads, blocks))
    (placed' : placeAll others address' = .ok (heads', blocks')) :
    heads ++ heads' ++ (blocks ++ blocks') =
      (heads ++ blocks).take (headSizes chunks) ++ (heads' ++ blocks').take (headSizes others) ++
        (heads ++ blocks).drop (headSizes chunks) ++ (heads' ++ blocks').drop (headSizes others) := by
  rw [← lengthHeadsOfPlaceAll placed, ← lengthHeadsOfPlaceAll placed']
  simp only [List.take_left, List.drop_left, List.append_assoc]

theorem resolveAppendOk {base : Int} {data : Bytes} : resolve (chunks ++ others) base = .ok data ↔
    0 ≤ base ∧ ∃ first second, resolve chunks (base + headSizes others) = .ok first ∧
      resolve others (base + first.length) = .ok second ∧
      data = first.take (headSizes chunks) ++ second.take (headSizes others) ++
        first.drop (headSizes chunks) ++ second.drop (headSizes others) := by
  rw [resolveOk, headSizesAppend]
  refine and_congr_right fun nonneg => ?_
  -- the first blocks stand behind both heads, and the other blocks behind these
  have place : (base + headSizes others).toNat + headSizes chunks =
      base.toNat + (headSizes chunks + headSizes others) := by omega
  have place' : ∀ {heads blocks : Bytes}, heads.length = headSizes chunks →
      (base + (heads ++ blocks).length).toNat + headSizes others =
        base.toNat + (headSizes chunks + headSizes others) + blocks.length := by
    intro heads blocks width
    rw [List.length_append]
    omega
  simp only [placeAllAppendOk]
  constructor
  · intro resolves
    obtain ⟨_, _, ⟨heads, blocks, heads', blocks', placed, placed', rfl, rfl⟩, rfl⟩ := resolves
    have width := lengthHeadsOfPlaceAll placed
    have first : resolve chunks (base + headSizes others) = .ok (heads ++ blocks) :=
      resolveOk.mpr ⟨by omega, heads, blocks, place.symm ▸ placed, rfl⟩
    have second : resolve others (base + (heads ++ blocks).length) = .ok (heads' ++ blocks') :=
      resolveOk.mpr ⟨by omega, heads', blocks', (place' width).symm ▸ placed', rfl⟩
    exact ⟨_, _, first, second, joinPlaced placed placed'⟩
  · intro resolves
    obtain ⟨_, _, first, second, rfl⟩ := resolves
    obtain ⟨_, heads, blocks, placed, rfl⟩ := resolveOk.mp first
    obtain ⟨_, heads', blocks', placed', rfl⟩ := resolveOk.mp second
    rw [← joinPlaced placed placed']
    rw [place' (lengthHeadsOfPlaceAll placed)] at placed'
    rw [place] at placed
    exact ⟨_, _, ⟨heads, blocks, heads', blocks', placed, placed', rfl, rfl⟩, rfl⟩

end Chunk

namespace Token

theorem encodeAllAtAppendOk {limit : Int} {depth : Nat} {tokens more : List Token} {chunks : List Chunk} :
    encodeAllAt limit depth (tokens ++ more) = .ok chunks ↔
      ∃ first second, encodeAllAt limit depth tokens = .ok first ∧ encodeAllAt limit depth more = .ok second ∧
        chunks = first ++ second := by
  induction tokens generalizing chunks with
  | nil => simp [encodeAllAt]
  | cons token tokens ih =>
    simp only [List.cons_append, encodeAllAtConsOk, ih]
    constructor
    · intro encoded
      obtain ⟨own, _, head, ⟨first, second, here, there, rfl⟩, rfl⟩ := encoded
      exact ⟨own ++ first, second, ⟨own, first, head, here, rfl⟩, there, by rw [List.append_assoc]⟩
    · intro encoded
      obtain ⟨_, second, ⟨own, first, head, here, rfl⟩, there, rfl⟩ := encoded
      exact ⟨own, first ++ second, head, ⟨first, second, here, there, rfl⟩, by rw [List.append_assoc]⟩

end Token

open Chunk Token

/-- Chunks one after another resolve at an address exactly when the first resolve as far behind it as the other heads
are wide, and the others as far behind it as the bytes of the first are long. The buffer is then the heads of both and
after them the blocks of both. Tokens one after another are encoded exactly when the ones and the others are, as the
chunks of the ones and then of the others, so that at every address both resolve to the same. -/
theorem resolveJoined :
    (∀ {chunks others : List Chunk} {base : Int} {data : Bytes}, resolve (chunks ++ others) base = .ok data ↔
      0 ≤ base ∧ ∃ first second, resolve chunks (base + headSizes others) = .ok first ∧
        resolve others (base + first.length) = .ok second ∧
        data = first.take (headSizes chunks) ++ second.take (headSizes others) ++
          first.drop (headSizes chunks) ++ second.drop (headSizes others)) ∧
    ∀ {limit : Int} {tokens more : List Token} {joined : List Chunk}, encode limit (tokens ++ more) = .ok joined ↔
      ∃ chunks others, encode limit tokens = .ok chunks ∧ encode limit more = .ok others ∧
        joined = chunks ++ others :=
  ⟨resolveAppendOk, encodeAllAtAppendOk⟩

end WordAbi
