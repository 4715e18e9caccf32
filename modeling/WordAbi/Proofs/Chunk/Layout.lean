import WordAbi.Chunk
import WordAbi.Proofs.Outcome
/-! Where placed chunks stand. The blocks of chunks are as long as their sizes say, chunks one after
another are placed one after another, and placing fails only for an address that no word holds. -/
namespace WordAbi.Chunk
open Outcome

mutual

def blockSize : Chunk → Nat
  | inline _ => 0
  | dynamic chunks => headSizes chunks + blockSizes chunks

def blockSizes : List Chunk → Nat
  | [] => 0
  | chunk :: chunks => blockSize chunk + blockSizes chunks

end

theorem blockSizesAppend (chunks others : List Chunk) :
    blockSizes (chunks ++ others) = blockSizes chunks + blockSizes others := by
  induction chunks with
  | nil => simp [blockSizes]
  | cons chunk chunks ih => simp [blockSizes, ih, Nat.add_assoc]

mutual

def blockAddresses : Chunk → (address : Nat) → List Nat
  | inline _, _ => []
  | dynamic chunks, address => address :: allBlockAddresses chunks (address + headSizes chunks)

def allBlockAddresses : List Chunk → (address : Nat) → List Nat
  | [], _ => []
  | chunk :: chunks, address =>
    blockAddresses chunk address ++ allBlockAddresses chunks (address + blockSize chunk)

end

def addresses (chunks : List Chunk) (base : Nat) : List Nat :=
  allBlockAddresses chunks (base + headSizes chunks)

def totalSize (chunks : List Chunk) : Nat := headSizes chunks + blockSizes chunks

theorem placeDynamicOk {chunks : List Chunk} {address : Nat} {head block : Bytes} :
    place (dynamic chunks) address = .ok (head, block) ↔
      address ≤ Word.max ∧ head = Word.bytes address ∧
        ∃ heads blocks, placeAll chunks (address + headSizes chunks) = .ok (heads, blocks) ∧
          block = heads ++ blocks := by
  simp only [place, bindOk, Word.checkedOkIff, Except.ok.injEq, Prod.mk.injEq, Prod.exists]
  constructor
  · rintro ⟨pointer, ⟨fits, rfl⟩, heads, blocks, placed, rfl, rfl⟩
    exact ⟨by omega, by simp, heads, blocks, placed, rfl⟩
  · rintro ⟨fits, rfl, heads, blocks, placed, rfl⟩
    exact ⟨_, ⟨⟨by omega, by omega⟩, by simp⟩, heads, blocks, placed, rfl, rfl⟩

theorem placeAllConsOk {chunk : Chunk} {chunks : List Chunk} {address : Nat} {heads blocks : Bytes} :
    placeAll (chunk :: chunks) address = .ok (heads, blocks) ↔
      ∃ head block heads' blocks', place chunk address = .ok (head, block) ∧
        placeAll chunks (address + block.length) = .ok (heads', blocks') ∧
        heads = head ++ heads' ∧ blocks = block ++ blocks' := by
  simp only [placeAll, bindOk, Except.ok.injEq, Prod.mk.injEq, Prod.exists]
  constructor
  · rintro ⟨head, block, first, heads', blocks', rest, rfl, rfl⟩
    exact ⟨head, block, heads', blocks', first, rest, rfl, rfl⟩
  · rintro ⟨head, block, heads', blocks', first, rest, rfl, rfl⟩
    exact ⟨head, block, first, heads', blocks', rest, rfl, rfl⟩

theorem placeAllAppendOk {chunks others : List Chunk} {address : Nat} {heads blocks : Bytes} :
    placeAll (chunks ++ others) address = .ok (heads, blocks) ↔
      ∃ heads₁ blocks₁ heads₂ blocks₂, placeAll chunks address = .ok (heads₁, blocks₁) ∧
        placeAll others (address + blocks₁.length) = .ok (heads₂, blocks₂) ∧
        heads = heads₁ ++ heads₂ ∧ blocks = blocks₁ ++ blocks₂ := by
  induction chunks generalizing address heads blocks with
  | nil =>
    constructor
    · intro placed
      exact ⟨[], [], heads, blocks, rfl, placed, rfl, rfl⟩
    · rintro ⟨_, _, _, _, empty, placed, rfl, rfl⟩
      simp only [placeAll, Except.ok.injEq, Prod.mk.injEq] at empty
      obtain ⟨rfl, rfl⟩ := empty
      exact placed
  | cons chunk chunks ih =>
    simp only [List.cons_append, placeAllConsOk, ih]
    constructor
    · rintro ⟨head, block, _, _, first, ⟨h₁, b₁, h₂, b₂, middle, last, rfl, rfl⟩, rfl, rfl⟩
      refine ⟨head ++ h₁, block ++ b₁, h₂, b₂, ⟨head, block, h₁, b₁, first, middle, rfl, rfl⟩, ?_, ?_⟩
      · simpa [Nat.add_assoc] using last
      · simp
    · rintro ⟨_, _, h₂, b₂, ⟨head, block, h₁, b₁, first, middle, rfl, rfl⟩, last, rfl, rfl⟩
      refine ⟨head, block, h₁ ++ h₂, b₁ ++ b₂, first, ⟨h₁, b₁, h₂, b₂, middle, ?_, rfl, rfl⟩, ?_⟩
      · simpa [Nat.add_assoc] using last
      · simp

theorem lengthHeadsOfPlaceAll {chunks : List Chunk} {address : Nat} {heads blocks : Bytes}
    (placed : placeAll chunks address = .ok (heads, blocks)) : heads.length = headSizes chunks := by
  induction chunks generalizing address heads blocks with
  | nil =>
    simp only [placeAll, Except.ok.injEq, Prod.mk.injEq] at placed
    simp [← placed.1]
  | cons chunk chunks ih =>
    obtain ⟨_, _, _, _, first, rest, rfl, rfl⟩ := placeAllConsOk.mp placed
    simp [lengthHeadOfPlace first, ih rest]

mutual

theorem lengthBlockOfPlace : (chunk : Chunk) → ∀ {address head block},
    place chunk address = .ok (head, block) → block.length = blockSize chunk
  | inline bytes, address, head, block, placed => by
    simp only [place, Except.ok.injEq, Prod.mk.injEq] at placed
    simp [← placed.2, blockSize]
  | dynamic chunks, address, head, block, placed => by
    obtain ⟨_, _, heads, blocks, inner, rfl⟩ := placeDynamicOk.mp placed
    simp [blockSize, lengthHeadsOfPlaceAll inner, lengthBlocksOfPlaceAll chunks inner]

theorem lengthBlocksOfPlaceAll : (chunks : List Chunk) → ∀ {address heads blocks},
    placeAll chunks address = .ok (heads, blocks) → blocks.length = blockSizes chunks
  | [], address, heads, blocks, placed => by
    simp only [placeAll, Except.ok.injEq, Prod.mk.injEq] at placed
    simp [← placed.2, blockSizes]
  | chunk :: chunks, address, heads, blocks, placed => by
    obtain ⟨_, _, _, _, first, rest, rfl, rfl⟩ := placeAllConsOk.mp placed
    simp [blockSizes, lengthBlockOfPlace chunk first, lengthBlocksOfPlaceAll chunks rest]

end

mutual

theorem placeOfAddresses : (chunk : Chunk) → (address : Nat) →
    (∀ a ∈ blockAddresses chunk address, a ≤ Word.max) →
    ∃ head block, place chunk address = .ok (head, block)
  | inline bytes, _, _ => ⟨bytes, [], rfl⟩
  | dynamic chunks, address, fit => by
    simp only [blockAddresses, List.forall_mem_cons] at fit
    obtain ⟨heads, blocks, inner⟩ := placeAllOfAddresses chunks _ fit.2
    exact ⟨_, _, placeDynamicOk.mpr ⟨fit.1, rfl, heads, blocks, inner, rfl⟩⟩

theorem placeAllOfAddresses : (chunks : List Chunk) → (address : Nat) →
    (∀ a ∈ allBlockAddresses chunks address, a ≤ Word.max) →
    ∃ heads blocks, placeAll chunks address = .ok (heads, blocks)
  | [], _, _ => ⟨[], [], rfl⟩
  | chunk :: chunks, address, fit => by
    simp only [allBlockAddresses, List.forall_mem_append] at fit
    obtain ⟨head, block, first⟩ := placeOfAddresses chunk address fit.1
    rw [← lengthBlockOfPlace chunk first] at fit
    obtain ⟨heads, blocks, rest⟩ := placeAllOfAddresses chunks _ fit.2
    exact ⟨_, _, placeAllConsOk.mpr ⟨head, block, heads, blocks, first, rest, rfl, rfl⟩⟩

end

theorem resolveOk {chunks : List Chunk} {base : Int} {data : Bytes} :
    resolve chunks base = .ok data ↔ 0 ≤ base ∧ ∃ heads blocks,
      placeAll chunks (base.toNat + headSizes chunks) = .ok (heads, blocks) ∧
        data = heads ++ blocks := by
  unfold resolve
  split
  · rename_i negative
    simp only [reduceCtorEq, false_iff]
    omega
  · rename_i nonneg
    simp only [bindOk, Except.ok.injEq, Prod.exists]
    constructor
    · rintro ⟨heads, blocks, placed, rfl⟩
      exact ⟨by omega, heads, blocks, placed, rfl⟩
    · rintro ⟨_, heads, blocks, placed, rfl⟩
      exact ⟨heads, blocks, placed, rfl⟩

theorem resolveOfAddresses {chunks : List Chunk} {base : Nat}
    (fit : ∀ a ∈ addresses chunks base, a ≤ Word.max) : ∃ data, resolve chunks base = .ok data := by
  obtain ⟨heads, blocks, placed⟩ := placeAllOfAddresses chunks _ fit
  exact ⟨_, resolveOk.mpr ⟨by omega, heads, blocks, by simpa using placed, rfl⟩⟩

theorem lengthResolve {chunks : List Chunk} {base : Int} {data : Bytes}
    (resolved : resolve chunks base = .ok data) : data.length = totalSize chunks := by
  obtain ⟨_, heads, blocks, placed, rfl⟩ := resolveOk.mp resolved
  simp [totalSize, lengthHeadsOfPlaceAll placed, lengthBlocksOfPlaceAll chunks placed]

end WordAbi.Chunk
