import WordAbi.Proofs.Chunk.Relocation
/-! The addresses of blocks, and which of them a pointer can tell. Main statement: chunks are refused exactly where
some block, at any depth, would have an address that no word holds; no pointer is ever cut off. -/
namespace WordAbi.Chunk
open Outcome

mutual

theorem blockAddressesEq (base : Nat) : (chunk : Chunk) → (head block : Nat) →
    blockAddresses chunk (base + block) = (pointersFrom chunk head block).map fun p => base + p.block
  | inline _, _, _ => rfl
  | dynamic chunks, head, block => by
    rw [blockAddresses, pointersFrom, List.map_cons, Nat.add_assoc, allBlockAddressesEq base chunks]

theorem allBlockAddressesEq (base : Nat) : (chunks : List Chunk) → (head block : Nat) →
    allBlockAddresses chunks (base + block) = (allPointersFrom chunks head block).map fun p => base + p.block
  | [], _, _ => rfl
  | chunk :: chunks, head, block => by
    rw [allBlockAddresses, allPointersFrom, List.map_append, Nat.add_assoc, blockAddressesEq base chunk,
      allBlockAddressesEq base chunks]

end

theorem addressesEq (chunks : List Chunk) (base : Nat) :
    addresses chunks base = (pointers chunks).map fun p => base + p.block :=
  allBlockAddressesEq base chunks 0 (headSizes chunks)

def Beyond (addresses : List Nat) (fault : Fault) : Prop :=
  ∃ a ∈ addresses, Word.max < a ∧ fault = .invalidData (.wordRange a)

theorem beyondMono {some more : List Nat} (within : some ⊆ more) (fault : Fault) (beyond : Beyond some fault) :
    Beyond more fault := by
  obtain ⟨a, member, told⟩ := beyond
  exact ⟨a, within member, told⟩

theorem endsChecked (address : Nat) :
    Ends (fun _ => address ≤ Word.max) (Beyond [address]) (Word.checked address) := by
  unfold Word.checked
  split
  · rename_i outside
    exact ⟨address, List.mem_singleton_self _, by omega, rfl⟩
  · rename_i inside
    show address ≤ Word.max
    omega

mutual

theorem endsPlace : (chunk : Chunk) → (address : Nat) →
    Ends (fun _ => ∀ a ∈ blockAddresses chunk address, a ≤ Word.max) (Beyond (blockAddresses chunk address))
      (place chunk address)
  | inline _, _ => fun _ absurd => nomatch absurd
  | dynamic chunks, address => by
    rw [place]
    refine endsBind (endsBlamed (endsChecked address) (beyondMono (by simp [blockAddresses]))) fun _ fits => ?_
    refine endsBind (endsBlamed (endsPlaceAll chunks _) (beyondMono (by simp [blockAddresses])))
      fun _ below => ?_
    exact List.forall_mem_cons.mpr ⟨fits, below⟩

theorem endsPlaceAll : (chunks : List Chunk) → (address : Nat) →
    Ends (fun _ => ∀ a ∈ allBlockAddresses chunks address, a ≤ Word.max)
      (Beyond (allBlockAddresses chunks address)) (placeAll chunks address)
  | [], _ => fun _ absurd => nomatch absurd
  | chunk :: chunks, address => by
    rw [placeAll]
    refine endsBindOk (endsBlamed (endsPlace chunk address) (beyondMono (by simp [allBlockAddresses])))
      fun ⟨head, block⟩ first => ?_
    have fits := endsPlace chunk address
    rw [first] at fits
    simp only [lengthBlockOfPlace chunk first]
    refine endsBind (endsBlamed (endsPlaceAll chunks _) (beyondMono (by simp [allBlockAddresses])))
      fun _ later => ?_
    exact List.forall_mem_append.mpr ⟨fits, later⟩

end

variable {chunks : List Chunk} {base : Int}

theorem endsResolve (chunks : List Chunk) (base : Nat) :
    Ends (fun _ => ∀ a ∈ addresses chunks base, a ≤ Word.max) (Beyond (addresses chunks base))
      (resolve chunks base) := by
  rw [resolve, if_neg (by omega), Int.toNat_natCast]
  exact endsBind (endsPlaceAll chunks _) fun _ fits => fits

theorem addressesFitIff {base : Nat} :
    (∀ a ∈ addresses chunks base, a ≤ Word.max) ↔ ∀ p ∈ pointers chunks, (base : Int) + p.block ≤ Word.max := by
  rw [addressesEq, List.forall_mem_map]
  refine forall₂_congr fun p _ => ?_
  omega

theorem resolvesIff :
    (∃ data, resolve chunks base = .ok data) ↔ 0 ≤ base ∧ ∀ p ∈ pointers chunks, base + p.block ≤ Word.max := by
  constructor
  · intro resolves
    obtain ⟨data, resolved⟩ := resolves
    obtain ⟨base, rfl⟩ := Int.eq_ofNat_of_zero_le (resolveOk.mp resolved).1
    have ends := endsResolve chunks base
    rw [resolved] at ends
    exact ⟨by omega, addressesFitIff.mp ends⟩
  · intro fits
    obtain ⟨base, rfl⟩ := Int.eq_ofNat_of_zero_le fits.1
    exact resolveOfAddresses (addressesFitIff.mpr fits.2)

theorem invalidOfRefused {fault : Fault} (refused : resolve chunks base = .error fault) :
    ∃ message context, fault.report = .codec .invalidData message context := by
  by_cases negative : base < 0
  · rw [resolve, if_pos negative] at refused
    cases refused
    exact ⟨_, _, rfl⟩
  · obtain ⟨base, rfl⟩ := Int.eq_ofNat_of_zero_le (Int.not_lt.mp negative)
    have ends := endsResolve chunks base
    rw [refused] at ends
    obtain ⟨_, _, _, rfl⟩ := ends
    exact ⟨_, _, rfl⟩

theorem refusedIff :
    (∃ fault message context, resolve chunks base = .error fault ∧
      fault.report = .codec .invalidData message context) ↔ ¬ ∃ data, resolve chunks base = .ok data := by
  cases outcome : resolve chunks base with
  | ok data => simp
  | error fault =>
    obtain ⟨message, context, told⟩ := invalidOfRefused outcome
    simp [told]

/-- Chunks are refused, as invalid data, exactly at a negative address and where some block, at any depth, would have
an address greater than the greatest word. Everywhere else they resolve to a buffer, in which each pointer is the
whole address of its block. -/
theorem resolveRefusedIff {chunks : List Chunk} {base : Int} :
    ((∃ fault message context, resolve chunks base = .error fault ∧
        fault.report = .codec .invalidData message context) ↔
      base < 0 ∨ ∃ p ∈ pointers chunks, Word.max < base + p.block) ∧
    ((∃ data, resolve chunks base = .ok data ∧ ∀ p ∈ pointers chunks, p.Leads base data) ↔
      0 ≤ base ∧ ∀ p ∈ pointers chunks, base + p.block ≤ Word.max) := by
  constructor
  · rw [refusedIff, resolvesIff, not_and_or]
    simp only [not_forall, Int.not_le, exists_prop]
  · rw [← resolvesIff]
    constructor
    · intro resolves
      obtain ⟨data, resolved, _⟩ := resolves
      exact ⟨data, resolved⟩
    · intro resolves
      obtain ⟨data, resolved⟩ := resolves
      exact ⟨data, resolved, leadsOfResolve resolved⟩

example : resolve [.dynamic [.inline [1, 2], .dynamic [.inline [3]]]] (Word.max - 17) =
    .error (.invalidData (.wordRange (Word.max + 1))) := rfl

end WordAbi.Chunk
