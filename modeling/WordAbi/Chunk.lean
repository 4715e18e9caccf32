import WordAbi.Fault
/-! Encoded values whose pointers are not bound to an address yet. Main statement: a chunk's head
has its head size wherever it is placed. -/
namespace WordAbi

namespace Word

def checked (value : Int) : Except Fault Bytes :=
  if value < 0 ∨ (max : Int) < value then .error (.invalidData (.wordRange value))
  else .ok (bytes value.toNat)

theorem checkedOkIff {value : Int} {bs : Bytes} :
    checked value = .ok bs ↔ (0 ≤ value ∧ value ≤ max) ∧ bytes value.toNat = bs := by
  unfold checked
  split
  · rename_i h
    simp only [reduceCtorEq, false_iff]
    omega
  · rename_i h
    simp only [Except.ok.injEq]
    constructor
    · intro hb; exact ⟨by omega, hb⟩
    · intro hb; exact hb.2

end Word

/-- A part of an encoding: bytes that stand in the head as they are, or chunks that stand in the
dynamic region, with a pointer in the head. -/
inductive Chunk where
  | inline (bytes : Bytes)
  | dynamic (chunks : List Chunk)
  deriving Inhabited

namespace Chunk

def headSize : Chunk → Nat
  | inline bs => bs.length
  | dynamic _ => 8

def headSizes : List Chunk → Nat
  | [] => 0
  | chunk :: chunks => chunk.headSize + headSizes chunks

mutual

def place : Chunk → (address : Nat) → Except Fault (Bytes × Bytes)
  | inline bs, _ => .ok (bs, [])
  | dynamic chunks, address => do
    let pointer ← Word.checked address
    let (heads, blocks) ← placeAll chunks (address + headSizes chunks)
    .ok (pointer, heads ++ blocks)

def placeAll : List Chunk → (address : Nat) → Except Fault (Bytes × Bytes)
  | [], _ => .ok ([], [])
  | chunk :: chunks, address => do
    let (head, block) ← place chunk address
    let (heads, blocks) ← placeAll chunks (address + block.length)
    .ok (head ++ heads, block ++ blocks)

end

def resolve (chunks : List Chunk) (base : Int) : Except Fault Bytes :=
  if base < 0 then .error (.invalidData .negativeAddress)
  else do
    let (heads, blocks) ← placeAll chunks (base.toNat + headSizes chunks)
    .ok (heads ++ blocks)

@[simp] theorem headSizesNil : headSizes [] = 0 := rfl

@[simp] theorem headSizesCons (c : Chunk) (cs : List Chunk) :
    headSizes (c :: cs) = c.headSize + headSizes cs := rfl

@[simp] theorem headSizesAppend (cs ds : List Chunk) :
    headSizes (cs ++ ds) = headSizes cs + headSizes ds := by
  induction cs with
  | nil => simp
  | cons c cs ih => simp [ih, Nat.add_assoc]

theorem lengthHeadOfPlace {c : Chunk} {address : Nat} {head block : Bytes}
    (h : place c address = .ok (head, block)) : head.length = c.headSize := by
  cases c with
  | inline bs =>
    simp only [place, Except.ok.injEq, Prod.mk.injEq] at h
    simp [headSize, ← h.1]
  | dynamic cs =>
    simp only [place, bind, Except.bind] at h
    split at h
    · cases h
    · rename_i pointer hp
      split at h
      · cases h
      · cases h
        rw [Word.checkedOkIff] at hp
        simp [headSize, ← hp.2]

end Chunk

end WordAbi
