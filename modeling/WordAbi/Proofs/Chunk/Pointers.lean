import WordAbi.Proofs.Bytes.Slice
import WordAbi.Proofs.Chunk.Layout
/-! Where the parts of resolved chunks stand in the buffer and what the pointers hold. Main statement: a
buffer is what chunks resolve to exactly when they are laid out in it. -/
namespace WordAbi.Chunk

/-- In `data`, whose first byte has the address `base`, the heads of the chunks stand from `head` to
`first` and their blocks from `block` to `stop`, each laid out in the same way. A pointer holds the
address of its block. -/
inductive Stand (base : Int) (data : Bytes) : List Chunk → (head first block stop : Nat) → Prop
  | nil {first stop} : Stand base data [] first first stop stop
  | inline {bytes chunks head first block stop} (here : data.Holds head bytes)
      (rest : Stand base data chunks (head + bytes.length) first block stop) :
      Stand base data (.inline bytes :: chunks) head first block stop
  | dynamic {elements chunks} {head first block middle next stop : Nat}
      (pointer : (Word.read data head : Int) = base + block)
      (inner : Stand base data elements block middle middle next)
      (rest : Stand base data chunks (head + 8) first next stop) :
      Stand base data (.dynamic elements :: chunks) head first block stop

def LaidOut (base : Int) (data : Bytes) (chunks : List Chunk) (start stop : Nat) : Prop :=
  ∃ first, Stand base data chunks start first first stop

variable {base : Int} {data : Bytes} {head first block stop : Nat}

theorem standLe {chunks : List Chunk} (stand : Stand base data chunks head first block stop) :
    head ≤ first ∧ block ≤ stop := by
  induction stand with
  | nil => omega
  | inline here rest ih => omega
  | dynamic pointer inner rest ihInner ih => omega

theorem standSizes {chunks : List Chunk} (stand : Stand base data chunks head first block stop) :
    first = head + headSizes chunks ∧ stop = block + blockSizes chunks := by
  induction stand with
  | nil => exact ⟨rfl, rfl⟩
  | inline here rest ih =>
    simp only [headSizesCons, headSize, blockSizes, blockSize]
    omega
  | dynamic pointer inner rest ihInner ih =>
    simp only [headSizesCons, headSize, blockSizes, blockSize]
    omega

theorem standOfPlaceAll : (chunks : List Chunk) → ∀ {address head block : Nat} {heads blocks : Bytes},
    placeAll chunks address = .ok (heads, blocks) → (address : Int) = base + block →
    data.Holds head heads → data.Holds block blocks →
    Stand base data chunks head (head + heads.length) block (block + blocks.length)
  | [], address, head, block, heads, blocks, placed, _, _, _ => by
    cases placed
    exact .nil
  | .inline bytes :: chunks, address, head, block, _, _, placed, here, headsHeld, blocksHeld => by
    obtain ⟨_, _, heads, blocks, first, rest, rfl, rfl⟩ := placeAllConsOk.mp placed
    cases first
    obtain ⟨own, later⟩ := Bytes.holdsAppend.mp headsHeld
    have stand := standOfPlaceAll chunks rest here later blocksHeld
    rw [List.length_append, ← Nat.add_assoc]
    exact .inline own stand
  | .dynamic elements :: chunks, address, head, block, _, _, placed, here, headsHeld, blocksHeld => by
    obtain ⟨_, _, heads, blocks, first, rest, rfl, rfl⟩ := placeAllConsOk.mp placed
    obtain ⟨fits, rfl, innerHeads, innerBlocks, inner, rfl⟩ := placeDynamicOk.mp first
    obtain ⟨word, laterHeads⟩ := Bytes.holdsAppend.mp headsHeld
    obtain ⟨own, laterBlocks⟩ := Bytes.holdsAppend.mp blocksHeld
    obtain ⟨ownHeads, ownBlocks⟩ := Bytes.holdsAppend.mp own
    have pointer := (Word.holdsBytes.mp ⟨word, fits⟩).2
    have width := lengthHeadsOfPlaceAll inner
    have standInner := standOfPlaceAll elements inner (by omega) ownHeads ownBlocks
    have standRest := standOfPlaceAll chunks rest (by simp; omega) laterHeads laterBlocks
    simp only [List.length_append, Word.lengthBytes, ← Nat.add_assoc] at standInner standRest ⊢
    exact .dynamic (by omega) standInner standRest

theorem placeAllOfStand {chunks : List Chunk} (stand : Stand base data chunks head first block stop)
    (headsInside : first ≤ data.length) (blocksInside : stop ≤ data.length) (address : Nat)
    (here : (address : Int) = base + block) :
    ∃ heads blocks, placeAll chunks address = .ok (heads, blocks) ∧
      data.Holds head heads ∧ head + heads.length = first ∧
      data.Holds block blocks ∧ block + blocks.length = stop := by
  induction stand generalizing address with
  | nil => exact ⟨[], [], rfl, Bytes.holdsNil.mpr headsInside, rfl, Bytes.holdsNil.mpr blocksInside, rfl⟩
  | inline own rest ih =>
    obtain ⟨heads, blocks, placed, headsHeld, headsEnd, blocksHeld, blocksEnd⟩ :=
      ih headsInside blocksInside address here
    refine ⟨_, blocks, placeAllConsOk.mpr ⟨_, [], heads, blocks, rfl, placed, rfl, rfl⟩,
      Bytes.holdsAppend.mpr ⟨own, headsHeld⟩, ?_, blocksHeld, blocksEnd⟩
    simp only [List.length_append]
    omega
  | @dynamic elements chunks head first block middle next stop pointer inner rest ihInner ih =>
    have within := standLe inner
    have after := standLe rest
    obtain ⟨innerHeads, innerBlocks, placedInner, innerHeld, innerEnd, belowHeld, belowEnd⟩ :=
      ihInner (by omega) (by omega) (address + (middle - block)) (by omega)
    obtain ⟨heads, blocks, placed, headsHeld, headsEnd, blocksHeld, blocksEnd⟩ :=
      ih headsInside blocksInside (address + (next - block)) (by omega)
    obtain rfl : Word.read data head = address := by omega
    obtain ⟨word, fits⟩ := Word.holdsBytes.mpr ⟨show head + 8 ≤ data.length by omega, rfl⟩
    have width := lengthHeadsOfPlaceAll placedInner
    rw [show middle - block = headSizes elements by omega] at placedInner
    have own := placeDynamicOk.mpr ⟨fits, rfl, innerHeads, innerBlocks, placedInner, rfl⟩
    rw [show next - block = (innerHeads ++ innerBlocks).length by simp; omega] at placed
    have held := Bytes.holdsAppend.mpr ⟨innerHeld, innerEnd ▸ belowHeld⟩
    have nextIs : block + (innerHeads ++ innerBlocks).length = next := by
      rw [List.length_append, ← Nat.add_assoc, innerEnd, belowEnd]
    refine ⟨_, _, placeAllConsOk.mpr ⟨_, _, heads, blocks, own, placed, rfl, rfl⟩,
      Bytes.holdsAppend.mpr ⟨word, by simpa using headsHeld⟩, ?_,
      Bytes.holdsAppend.mpr ⟨held, nextIs ▸ blocksHeld⟩, ?_⟩
    · simp only [List.length_append, Word.lengthBytes]
      omega
    · rw [List.length_append, ← Nat.add_assoc, nextIs, blocksEnd]

theorem laidOutOfResolve {chunks : List Chunk} {before bytes : Bytes}
    (resolved : resolve chunks (base + before.length) = .ok bytes) :
    LaidOut base (before ++ bytes) chunks before.length (before ++ bytes).length := by
  obtain ⟨nonneg, heads, blocks, placed, rfl⟩ := resolveOk.mp resolved
  have held : Bytes.Holds (before ++ (heads ++ blocks)) before.length (heads ++ blocks) :=
    ⟨before, [], by simp, rfl⟩
  obtain ⟨headsHeld, blocksHeld⟩ := Bytes.holdsAppend.mp held
  have width := lengthHeadsOfPlaceAll placed
  have here : (((base + before.length).toNat + headSizes chunks : Nat) : Int) =
      base + (before.length + heads.length : Nat) := by omega
  have stand := standOfPlaceAll chunks placed here headsHeld blocksHeld
  exact ⟨_, by simpa [Nat.add_assoc] using stand⟩

/-- Chunks resolve to the buffer at an address exactly when they fill it: the heads first, with a pointer
for each dynamic part, and then one block after the other to the end of the buffer, in the same way at
every depth; each pointer is the address of its block. -/
theorem resolveIffLaidOut {chunks : List Chunk} :
    resolve chunks base = .ok data ↔ 0 ≤ base ∧ LaidOut base data chunks 0 data.length := by
  constructor
  · intro resolved
    have laid := @laidOutOfResolve base chunks [] data (by simpa using resolved)
    exact ⟨(resolveOk.mp resolved).1, by simpa using laid⟩
  · rintro ⟨nonneg, first, stand⟩
    have within := standLe stand
    obtain ⟨heads, blocks, placed, headsHeld, headsEnd, blocksHeld, blocksEnd⟩ :=
      placeAllOfStand stand within.2 (Nat.le_refl _) (base.toNat + first) (by omega)
    rw [Nat.zero_add] at headsEnd
    subst headsEnd
    have whole := Bytes.holdsAppend.mpr ⟨headsHeld, by simpa using blocksHeld⟩
    rw [lengthHeadsOfPlaceAll placed] at placed
    exact resolveOk.mpr
      ⟨nonneg, heads, blocks, placed, Bytes.holdsEq whole (by simpa using blocksEnd)⟩

end WordAbi.Chunk
