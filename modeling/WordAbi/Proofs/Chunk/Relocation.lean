import WordAbi.Proofs.Chunk.Pointers
/-! The pointers of a buffer, and what becomes of them at another address. Main statement: at two addresses chunks
resolve to buffers that differ in the words of their pointers alone, and there by the distance. -/
namespace WordAbi.Chunk

structure Pointer where
  word : Nat
  block : Nat
  chunks : List Chunk

mutual

def pointersFrom : Chunk → (head block : Nat) → List Pointer
  | inline _, _, _ => []
  | dynamic chunks, head, block =>
    ⟨head, block, chunks⟩ :: allPointersFrom chunks block (block + headSizes chunks)

def allPointersFrom : List Chunk → (head block : Nat) → List Pointer
  | [], _, _ => []
  | chunk :: chunks, head, block =>
    pointersFrom chunk head block ++ allPointersFrom chunks (head + chunk.headSize) (block + blockSize chunk)

end

def pointers (chunks : List Chunk) : List Pointer := allPointersFrom chunks 0 (headSizes chunks)

namespace Pointer

def Covers (p : Pointer) (i : Nat) : Prop := p.word ≤ i ∧ i < p.word + 8

structure Leads (p : Pointer) (base : Int) (data : Bytes) : Prop where
  inside : p.word + 8 ≤ data.length
  told : (Word.read data p.word : Int) = base + p.block
  laidOut : LaidOut base data p.chunks p.block (p.block + totalSize p.chunks)

end Pointer

variable {base : Int} {data : Bytes} {head first block stop : Nat}

theorem standLeads {chunks : List Chunk} (stand : Stand base data chunks head first block stop)
    (headsInside : first ≤ data.length) (blocksInside : stop ≤ data.length) :
    ∀ p ∈ allPointersFrom chunks head block, p.Leads base data := by
  induction stand with
  | nil => simp [allPointersFrom]
  | inline here rest ih =>
    simp only [allPointersFrom, pointersFrom, List.nil_append]
    exact ih headsInside blocksInside
  | @dynamic elements chunks head first block middle next stop pointer inner rest ihInner ih =>
    have within := standLe inner
    have after := standLe rest
    obtain ⟨rfl, rfl⟩ := standSizes inner
    have inside : head + 8 ≤ data.length := by omega
    have laid : LaidOut base data elements block (block + totalSize elements) := by
      rw [totalSize, ← Nat.add_assoc]
      exact ⟨_, inner⟩
    have below := ihInner (by omega) (by omega)
    have later := ih headsInside blocksInside
    rw [Nat.add_assoc] at later
    exact List.forall_mem_append.mpr ⟨List.forall_mem_cons.mpr ⟨⟨inside, pointer, laid⟩, below⟩, later⟩

theorem standAlike {chunks : List Chunk} (stand : Stand base data chunks head first block stop) {other : Int}
    {moved : Bytes} (again : Stand other moved chunks head first block stop) {i : Nat}
    (inside : (head ≤ i ∧ i < first) ∨ (block ≤ i ∧ i < stop))
    (apart : ∀ p ∈ allPointersFrom chunks head block, ¬ p.Covers i) : moved[i]? = data[i]? := by
  induction stand with
  | nil => omega
  | @inline bytes chunks head first block stop here rest ih =>
    cases again with
    | inline here' rest' =>
      by_cases own : head ≤ i ∧ i < head + bytes.length
      · obtain ⟨k, rfl⟩ := Nat.exists_eq_add_of_le own.1
        rw [Bytes.holdsGet here (by omega), Bytes.holdsGet here' (by omega)]
      · exact ih rest' (by omega) apart
  | @dynamic elements chunks head first block middle next stop pointer inner rest ihInner ih =>
    cases again with
    | dynamic pointer' inner' rest' =>
      -- the places of what is inside do not depend on the buffer
      obtain ⟨rfl, rfl⟩ := standSizes inner
      obtain ⟨rfl, rfl⟩ := standSizes inner'
      simp only [allPointersFrom, pointersFrom, headSize, blockSize, List.forall_mem_append,
        List.forall_mem_cons, Pointer.Covers, ← Nat.add_assoc] at apart
      obtain ⟨⟨own, below⟩, later⟩ := apart
      by_cases deeper : block ≤ i ∧ i < block + headSizes elements + blockSizes elements
      · exact ihInner inner' (by omega) below
      · exact ih rest' (by omega) later

section

variable {chunks : List Chunk}

theorem standOfResolve (resolved : resolve chunks base = .ok data) :
    headSizes chunks ≤ data.length ∧
      Stand base data chunks 0 (headSizes chunks) (headSizes chunks) data.length := by
  have filled := @laidOutOfResolve base chunks [] data (by simpa using resolved)
  simp only [List.nil_append, List.length_nil] at filled
  obtain ⟨first, stand⟩ := filled
  have within := standLe stand
  obtain ⟨rfl, _⟩ := standSizes stand
  rw [Nat.zero_add] at within stand
  exact ⟨within.2, stand⟩

theorem leadsOfResolve (resolved : resolve chunks base = .ok data) :
    ∀ p ∈ pointers chunks, p.Leads base data := by
  obtain ⟨within, stand⟩ := standOfResolve resolved
  exact standLeads stand within (Nat.le_refl _)

theorem alikeOfResolve {other : Int} {moved : Bytes} (resolved : resolve chunks base = .ok data)
    (again : resolve chunks other = .ok moved) {i : Nat} (apart : ∀ p ∈ pointers chunks, ¬ p.Covers i) :
    moved[i]? = data[i]? := by
  have same : moved.length = data.length := (lengthResolve again).trans (lengthResolve resolved).symm
  obtain ⟨_, stand⟩ := standOfResolve resolved
  obtain ⟨_, stand'⟩ := standOfResolve again
  rw [same] at stand'
  by_cases inside : i < data.length
  · exact standAlike stand stand' (by omega) apart
  · rw [List.getElem?_eq_none (by omega), List.getElem?_eq_none (by omega)]

end

/-- Where chunks resolve at two addresses, the buffers are equally long and have the same bytes outside the words of
pointers, and the word of each pointer, at every depth, is in the second what it is in the first and the distance
between the addresses. -/
theorem resolveShifted {chunks : List Chunk} {base shift : Int} {data moved : Bytes}
    (resolved : resolve chunks base = .ok data) (again : resolve chunks (base + shift) = .ok moved) :
    moved.length = data.length ∧
      (∀ i, (∀ p ∈ pointers chunks, ¬ p.Covers i) → moved[i]? = data[i]?) ∧
      ∀ p ∈ pointers chunks, p.word + 8 ≤ data.length ∧
        (Word.read moved p.word : Int) = Word.read data p.word + shift := by
  refine ⟨(lengthResolve again).trans (lengthResolve resolved).symm,
    fun i apart => alikeOfResolve resolved again apart, fun p member => ?_⟩
  have here := leadsOfResolve resolved p member
  have there := leadsOfResolve again p member
  refine ⟨here.inside, ?_⟩
  rw [there.told, here.told]
  omega

theorem resolveShiftedNested :
    let chunks : List Chunk := [.inline [7], .dynamic [.inline [1, 2], .dynamic [.inline [3]]], .inline [4]]
    let data : Bytes := [7, 0, 0, 0, 0, 0, 0, 3, 242, 4, 1, 2, 0, 0, 0, 0, 0, 0, 3, 252, 3]
    let moved : Bytes := [7, 0, 0, 0, 0, 0, 0, 4, 10, 4, 1, 2, 0, 0, 0, 0, 0, 0, 4, 20, 3]
    resolve chunks 1000 = .ok data ∧ resolve chunks (1000 + 24) = .ok moved ∧
      moved.length = data.length ∧
      (∀ i, (∀ p ∈ pointers chunks, ¬ p.Covers i) → moved[i]? = data[i]?) ∧
      ∀ p ∈ pointers chunks, p.word + 8 ≤ data.length ∧
        (Word.read moved p.word : Int) = Word.read data p.word + 24 :=
  ⟨rfl, rfl, @resolveShifted _ 1000 24 _ _ rfl rfl⟩

end WordAbi.Chunk
