import WordAbi.Proofs.Bytes.Slice
import WordAbi.Proofs.Bytes.Span
import WordAbi.Proofs.Configurable.Frame
/-! Overrides written one after another. None of them changes how long the binary is, so that one is refused exactly
when it ends behind the binary as it was given; of those that cover a byte the last one counts, and such as share no
byte may be written in any order. -/
namespace WordAbi.Configurables
open Outcome

variable {binary out : Bytes} {override : Int × Bytes}

def place (override : Int × Bytes) : Span := ⟨override.1.toNat, override.1.toNat + override.2.length⟩

def Exceeds (size : Nat) (override : Int × Bytes) : Prop := (size : Int) < override.1 + override.2.length

instance (size : Nat) (override : Int × Bytes) : Decidable (Exceeds size override) :=
  inferInstanceAs (Decidable (_ < _))

def writeAll (overrides : List (Int × Bytes)) (binary : Bytes) : Except Fault Bytes :=
  overrides.foldlM (fun binary override => write binary override.1 override.2) binary

theorem writeAllCons (overrides : List (Int × Bytes)) :
    writeAll (override :: overrides) binary = write binary override.1 override.2 >>= writeAll overrides :=
  List.foldlM_cons

theorem writeAllAppend (overrides others : List (Int × Bytes)) :
    writeAll (overrides ++ others) binary = writeAll overrides binary >>= writeAll others :=
  List.foldlM_append

theorem writeAllPairOk {first second : Int × Bytes} : writeAll [first, second] binary = .ok out ↔
    ∃ next, write binary first.1 first.2 = .ok next ∧ write next second.1 second.2 = .ok out := by
  have last (next : Bytes) : writeAll [second] next = write next second.1 second.2 := by
    rw [writeAllCons]
    exact bind_pure _
  simp only [writeAllCons, bindOk, last]

theorem writeExceeding (exceeds : Exceeds binary.length override) : write binary override.1 override.2 =
    .error (.invalidData (.overrideEnd override.1 override.2.length binary.length)) := if_pos exceeds

theorem writeFitting (fits : ¬ Exceeds binary.length override) : Succeeds (write binary override.1 override.2) :=
  ⟨_, if_neg fits⟩

theorem fitsOfWrite (written : write binary override.1 override.2 = .ok out) : ¬ Exceeds binary.length override := by
  intro exceeds
  cases (writeExceeding exceeds).symm.trans written

theorem writeByte (nonneg : 0 ≤ override.1) (written : write binary override.1 override.2 = .ok out) (i : Nat) :
    ((place override).Covers i → out[i]? = override.2[i - override.1.toNat]?) ∧
      (¬ (place override).Covers i → out[i]? = binary[i]?) := by
  obtain ⟨offset, bytes⟩ := override
  obtain ⟨offset, rfl⟩ := Int.eq_ofNat_of_zero_le nonneg
  simp only [place, Span.Covers, Int.toNat_natCast] at written ⊢
  constructor
  · rintro ⟨reached, before⟩
    obtain ⟨fits, rfl⟩ := writeOk.mp written
    have holds : Bytes.Holds (binary.take offset ++ bytes ++ binary.drop (offset + bytes.length)) offset bytes :=
      ⟨_, _, rfl, by simp; omega⟩
    have byte := Bytes.holdsGet holds (show i - offset < bytes.length by omega)
    rwa [show offset + (i - offset) = i by omega] at byte
  · intro outside
    by_contra changed
    have covered := (writeFrame nonneg written).2 i changed
    omega

section

variable {overrides : List (Int × Bytes)} (nonneg : ∀ override ∈ overrides, 0 ≤ override.1)
include nonneg

theorem writeAllFitting (fit : ∀ override ∈ overrides, ¬ Exceeds binary.length override) :
    Succeeds (writeAll overrides binary) := by
  induction overrides generalizing binary with
  | nil => exact ⟨binary, rfl⟩
  | cons override overrides ih =>
    obtain ⟨here, later⟩ := List.forall_mem_cons.mp nonneg
    obtain ⟨first, rest⟩ := List.forall_mem_cons.mp fit
    obtain ⟨next, written⟩ := writeFitting first
    rw [← (writeFrame here written).1] at rest
    rw [writeAllCons]
    exact succeedsAfter written (ih later rest)

theorem writeAllExceeding (exceeding : ∃ override ∈ overrides, Exceeds binary.length override) :
    ∃ cause, writeAll overrides binary = .error (.invalidData cause) := by
  induction overrides generalizing binary with
  | nil =>
    obtain ⟨_, absurd, _⟩ := exceeding
    cases absurd
  | cons override overrides ih =>
    obtain ⟨here, later⟩ := List.forall_mem_cons.mp nonneg
    rw [writeAllCons]
    by_cases exceeds : Exceeds binary.length override
    · rw [writeExceeding exceeds]
      exact ⟨_, rfl⟩
    · obtain ⟨next, written⟩ := writeFitting exceeds
      obtain ⟨other, member, beyond⟩ := exceeding
      rcases List.mem_cons.mp member with rfl | among
      · exact absurd beyond exceeds
      · rw [← (writeFrame here written).1] at beyond
        obtain ⟨cause, failed⟩ := ih later ⟨other, among, beyond⟩
        exact ⟨cause, by rw [written]; exact failed⟩

theorem writeAllUncovered (applied : writeAll overrides binary = .ok out) {i : Nat}
    (uncovered : ∀ override ∈ overrides, ¬ (place override).Covers i) : out[i]? = binary[i]? := by
  by_contra changed
  obtain ⟨override, member, first, last⟩ := (applyFrame nonneg applied).2 i changed
  have start := nonneg override member
  exact uncovered override member ⟨by simp only [place]; omega, by simp only [place]; omega⟩

end

theorem writeAllCovered {earlier later : List (Int × Bytes)}
    (nonneg : ∀ other ∈ earlier ++ override :: later, 0 ≤ other.1)
    (applied : writeAll (earlier ++ override :: later) binary = .ok out) {i : Nat}
    (covered : (place override).Covers i) (last : ∀ other ∈ later, ¬ (place other).Covers i) :
    out[i]? = override.2[i - override.1.toNat]? := by
  obtain ⟨_, own, rest⟩ := List.forall_mem_append.mp nonneg |>.imp_right List.forall_mem_cons.mp
  rw [writeAllAppend, bindOk] at applied
  obtain ⟨middle, _, applied⟩ := applied
  rw [writeAllCons, bindOk] at applied
  obtain ⟨next, written, applied⟩ := applied
  rw [writeAllUncovered rest applied last]
  exact (writeByte own written i).1 covered

section

variable {first second : Int × Bytes} (apart : (place first).Apart (place second)) (nonneg : 0 ≤ first.1)
  (nonnegToo : 0 ≤ second.1)
include apart nonneg nonnegToo

theorem writePairSame {next other result : Bytes} (one : write binary first.1 first.2 = .ok next)
    (two : write next second.1 second.2 = .ok out) (otherTwo : write binary second.1 second.2 = .ok other)
    (otherOne : write other first.1 first.2 = .ok result) : out = result := by
  refine List.ext_getElem? fun i => ?_
  have one := writeByte nonneg one i
  have two := writeByte nonnegToo two i
  have otherTwo := writeByte nonnegToo otherTwo i
  have otherOne := writeByte nonneg otherOne i
  by_cases here : (place first).Covers i
  · have elsewhere := apart i here
    rw [two.2 elsewhere, one.1 here, otherOne.1 here]
  · rw [otherOne.2 here]
    by_cases there : (place second).Covers i
    · rw [two.1 there, otherTwo.1 there]
    · rw [two.2 there, one.2 here, otherTwo.2 there]

theorem writePairConcur : Concur (writeAll [first, second] binary) (writeAll [second, first] binary) := by
  intro result
  rw [writeAllPairOk, writeAllPairOk]
  constructor
  · rintro ⟨next, one, two⟩
    have length := (writeFrame nonneg one).1
    obtain ⟨other, otherTwo⟩ := writeFitting (length ▸ fitsOfWrite two)
    obtain ⟨again, otherOne⟩ := writeFitting ((writeFrame nonnegToo otherTwo).1.symm ▸ fitsOfWrite one)
    exact ⟨other, otherTwo, (writePairSame apart nonneg nonnegToo one two otherTwo otherOne).symm ▸ otherOne⟩
  · rintro ⟨other, otherTwo, otherOne⟩
    have length := (writeFrame nonnegToo otherTwo).1
    obtain ⟨next, one⟩ := writeFitting (length ▸ fitsOfWrite otherOne)
    obtain ⟨again, two⟩ := writeFitting ((writeFrame nonneg one).1.symm ▸ fitsOfWrite otherTwo)
    exact ⟨next, one, writePairSame apart nonneg nonnegToo one two otherTwo otherOne ▸ two⟩

theorem writeAllExchanged (earlier later : List (Int × Bytes)) :
    Concur (writeAll (earlier ++ first :: second :: later) binary)
      (writeAll (earlier ++ second :: first :: later) binary) := by
  have split (one two : Int × Bytes) : earlier ++ one :: two :: later = earlier ++ ([one, two] ++ later) := rfl
  rw [split, split, writeAllAppend, writeAllAppend earlier]
  refine concurBind (concurSame rfl) fun middle => ?_
  rw [writeAllAppend, writeAllAppend]
  exact concurBind (writePairConcur apart nonneg nonnegToo) fun _ => concurSame rfl

end

theorem writeAllPerm {overrides others : List (Int × Bytes)} (perm : overrides.Perm others)
    (nonneg : ∀ override ∈ overrides, 0 ≤ override.1)
    (apart : overrides.Pairwise fun first second => (place first).Apart (place second)) :
    Concur (writeAll overrides binary) (writeAll others binary) := by
  induction perm generalizing binary with
  | nil => exact concurSame rfl
  | cons override perm ih =>
    rw [writeAllCons, writeAllCons]
    exact concurBind (concurSame rfl) fun next =>
      ih (List.forall_mem_cons.mp nonneg).2 (List.pairwise_cons.mp apart).2
  | swap second first overrides =>
    obtain ⟨here, there, _⟩ := List.forall_mem_cons.mp nonneg |>.imp_right List.forall_mem_cons.mp
    exact writeAllExchanged ((List.pairwise_cons.mp apart).1 _ List.mem_cons_self) here there [] overrides
  | trans perm _ ih ih' =>
    refine concurTrans (ih nonneg apart) (ih' (fun override member => nonneg override (perm.mem_iff.mpr member)) ?_)
    exact (perm.pairwise_iff fun apart => Span.apartSymm apart).mp apart

/-- Overrides are refused exactly when one of them ends behind the binary. Otherwise the result is as long as the
binary; a byte that some of them cover is that of the last one that covers it, and every other byte is that of the
binary. So neighbours that share no byte may be exchanged, and if no two of them do, all may be written in any
order. -/
theorem applySplices (c : Configurables) (nonneg : ∀ override ∈ c.overrides, 0 ≤ override.1) (binary : Bytes) :
    ((∃ cause, c.apply binary = .error (.invalidData cause)) ↔
      ∃ override ∈ c.overrides, Exceeds binary.length override) ∧
    ((∀ override ∈ c.overrides, ¬ Exceeds binary.length override) →
      ∃ out, c.apply binary = .ok out ∧ out.length = binary.length ∧
        (∀ earlier override later i, c.overrides = earlier ++ override :: later → (place override).Covers i →
          (∀ other ∈ later, ¬ (place other).Covers i) → out[i]? = override.2[i - override.1.toNat]?) ∧
        ∀ i, (∀ override ∈ c.overrides, ¬ (place override).Covers i) → out[i]? = binary[i]?) ∧
    (∀ earlier first second later, c.overrides = earlier ++ first :: second :: later →
      (place first).Apart (place second) →
      Concur (c.apply binary) (apply ⟨c.slots, earlier ++ second :: first :: later⟩ binary)) ∧
    ((c.overrides.Pairwise fun first second => (place first).Apart (place second)) →
      ∀ others, c.overrides.Perm others → Concur (c.apply binary) (apply ⟨c.slots, others⟩ binary)) := by
  refine ⟨⟨?_, writeAllExceeding nonneg⟩, fun fit => ?_, ?_,
    fun apart others perm => writeAllPerm perm nonneg apart⟩
  · rintro ⟨cause, failed⟩
    by_contra none
    obtain ⟨out, applied⟩ :=
      writeAllFitting nonneg fun override member exceeds => none ⟨override, member, exceeds⟩
    cases applied.symm.trans failed
  · obtain ⟨out, applied⟩ := writeAllFitting nonneg fit
    refine ⟨out, applied, (applyFrame nonneg applied).1, ?_, fun i => writeAllUncovered nonneg applied⟩
    intro earlier override later i parts covered last
    have applied : writeAll c.overrides binary = .ok out := applied
    rw [parts] at nonneg applied
    exact writeAllCovered nonneg applied covered last
  · intro earlier first second later parts apart
    show Concur (writeAll c.overrides binary) _
    rw [parts] at nonneg ⊢
    exact writeAllExchanged apart (nonneg first (by simp)) (nonneg second (by simp)) earlier later

theorem applySplicesOverlapping :
    let overrides : List (Int × Bytes) := [(2, [1, 1, 1, 1]), (4, [2, 2, 2]), (5, [9]), (7, []), (5, [9]), (8, [3])]
    let exchanged : List (Int × Bytes) := [(2, [1, 1, 1, 1]), (4, [2, 2, 2]), (5, [9]), (7, []), (8, [3]), (5, [9])]
    (∀ override ∈ overrides, 0 ≤ override.1) ∧
      (∃ out, apply ⟨[], overrides⟩ (Bytes.zeros 10) = .ok out ∧ out.length = 10 ∧ out[3]? = some 1 ∧
        out[4]? = some 2 ∧ out[5]? = some 9 ∧ out[7]? = some 0) ∧
      (∃ cause, apply ⟨[], overrides⟩ (Bytes.zeros 8) = .error (.invalidData cause)) ∧
      Concur (apply ⟨[], overrides⟩ (Bytes.zeros 10)) (apply ⟨[], exchanged⟩ (Bytes.zeros 10)) := by
  intro overrides exchanged
  have nonneg : ∀ override ∈ overrides, 0 ≤ override.1 := by decide
  obtain ⟨_, fitting, neighbours, _⟩ := applySplices ⟨[], overrides⟩ nonneg (Bytes.zeros 10)
  obtain ⟨out, applied, length, covered, uncovered⟩ := fitting (by decide)
  refine ⟨nonneg, ⟨out, applied, length, ?_, ?_, ?_, ?_⟩, ?_, ?_⟩
  · exact covered [] (2, [1, 1, 1, 1]) _ 3 rfl (by decide) (by decide)
  · exact covered [_] (4, [2, 2, 2]) _ 4 rfl (by decide) (by decide)
  · exact covered [_, _, _, _] (5, [9]) _ 5 rfl (by decide) (by decide)
  · exact uncovered 7 (by decide)
  · exact (applySplices ⟨[], overrides⟩ nonneg (Bytes.zeros 8)).1.mpr (by decide)
  · exact neighbours [_, _, _, _] (5, [9]) (8, [3]) [] rfl (by decide)

end WordAbi.Configurables
