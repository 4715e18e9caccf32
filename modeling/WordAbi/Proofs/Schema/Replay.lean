import Mathlib.Algebra.Ring.Nat
import Mathlib.Data.List.Nodup
import WordAbi.Proofs.Schema.Conduct
/-! Work that is done a second time. A memory that is tidy has each key in progress or remembered, and once.
Work keeps it so; where it has found something it finds that again by lookups alone, and where it has failed
it fails again in the same way, although it now knows what it found before it failed. -/
namespace WordAbi

/-- What keys are told apart by, where they are valid. -/
structure Recognition (κ ω : Type) where
  same : κ → κ → Bool
  valid : κ → Prop
  outline : κ → ω
  sameIff : ∀ {key other}, valid key → valid other → (same key other = true ↔ outline key = outline other)

namespace Memory

variable {κ ω : Type} {sense : Recognition κ ω} {start memory later : Memory κ} {key other : κ}
  {type : ParamType} {m n : Nat}

def keys (memory : Memory κ) : List κ := memory.opened ++ memory.known.map Prod.fst

structure Tidy (sense : Recognition κ ω) (memory : Memory κ) : Prop where
  valid : ∀ key ∈ memory.keys, sense.valid key
  once : (memory.keys.map sense.outline).Nodup

structure Kept (sense : Recognition κ ω) (start memory : Memory κ) : Prop where
  tidy : memory.Tidy sense
  opened : memory.opened = start.opened
  known : start.known <:+ memory.known

def Within (sense : Recognition κ ω) (memory start : Memory κ) : Prop :=
  ∀ key type, sense.valid key → memory.find? sense.same key = some type → start.find? sense.same key = some type

def hitTimes (memory : Memory κ) (n : Nat) : Memory κ := { memory with hits := memory.hits + n }

theorem hitMore : (memory.hitTimes m).hitTimes n = memory.hitTimes (m + n) := by
  simp [hitTimes, Nat.add_assoc]

theorem tidyEmpty : (Memory.empty : Memory κ).Tidy sense := ⟨by simp [keys, empty], by simp [keys, empty]⟩

theorem outlinesOfKeys : memory.keys.map sense.outline =
    memory.opened.map sense.outline ++ memory.known.map fun entry => sense.outline entry.1 := by
  rw [keys, List.map_append, List.map_map]
  rfl

theorem validKnown (tidy : memory.Tidy sense) {entry : κ × ParamType} (member : entry ∈ memory.known) :
    sense.valid entry.1 :=
  tidy.valid entry.1 (List.mem_append_right _ (List.mem_map_of_mem member))

theorem findOfMem (tidy : memory.Tidy sense) (valid : sense.valid key) (member : (other, type) ∈ memory.known)
    (alike : sense.outline other = sense.outline key) : memory.find? sense.same key = some type := by
  have same := (sense.sameIff (validKnown tidy member) valid).mpr alike
  obtain ⟨found, there⟩ : ∃ found, memory.find? sense.same key = some found := by
    rw [← Option.isSome_iff_exists, find?, Option.isSome_map, List.find?_isSome]
    exact ⟨_, member, same⟩
  obtain ⟨twin, inside, like⟩ := memOfFind there
  have alikeToo := (sense.sameIff (validKnown tidy inside) valid).mp like
  have once := tidy.once
  rw [outlinesOfKeys] at once
  cases List.inj_on_of_nodup_map (List.nodup_append.mp once).2.1 inside member (alikeToo.trans alike.symm)
  exact there

theorem findSomeIff (tidy : memory.Tidy sense) (valid : sense.valid key) :
    memory.find? sense.same key = some type ↔
      ∃ other, (other, type) ∈ memory.known ∧ sense.outline other = sense.outline key := by
  constructor
  · intro found
    obtain ⟨other, member, same⟩ := memOfFind found
    exact ⟨other, member, (sense.sameIff (validKnown tidy member) valid).mp same⟩
  · rintro ⟨other, member, alike⟩
    exact findOfMem tidy valid member alike

theorem findNoneIff (tidy : memory.Tidy sense) (valid : sense.valid key) :
    memory.find? sense.same key = none ↔ sense.outline key ∉ memory.known.map fun entry => sense.outline entry.1 := by
  rw [Option.eq_none_iff_forall_ne_some, List.mem_map]
  constructor
  · rintro none ⟨⟨other, type⟩, member, alike⟩
    exact none type (findOfMem tidy valid member alike)
  · intro absent type found
    obtain ⟨other, member, alike⟩ := (findSomeIff tidy valid).mp found
    exact absent ⟨_, member, alike⟩

theorem openedNoneIff (tidy : memory.Tidy sense) (valid : sense.valid key) :
    memory.opened.any (sense.same · key) = false ↔ sense.outline key ∉ memory.opened.map sense.outline := by
  simp only [List.any_eq_false, List.mem_map, not_exists, not_and]
  refine forall₂_congr fun other member => ?_
  rw [sense.sameIff (tidy.valid other (List.mem_append_left _ member)) valid]

theorem tidyBegun (tidy : memory.Tidy sense) (valid : sense.valid key)
    (unknown : memory.find? sense.same key = none) (new : memory.opened.any (sense.same · key) = false) :
    (memory.begun key).Tidy sense := by
  rw [findNoneIff tidy valid] at unknown
  rw [openedNoneIff tidy valid] at new
  have absent : sense.outline key ∉ memory.keys.map sense.outline := by
    rw [outlinesOfKeys, List.mem_append]
    exact not_or_intro new unknown
  exact ⟨List.forall_mem_cons.mpr ⟨valid, tidy.valid⟩, List.nodup_cons.mpr ⟨absent, tidy.once⟩⟩

theorem findBegun (tidy : later.Tidy sense) (valid : sense.valid key) (opened : key ∈ later.opened) :
    later.find? sense.same key = none := by
  have once := tidy.once
  rw [outlinesOfKeys] at once
  rw [findNoneIff tidy valid]
  exact fun known => (List.nodup_append.mp once).2.2 _ (List.mem_map_of_mem opened) _ known rfl

theorem keptRefl (tidy : memory.Tidy sense) : Kept sense memory memory := ⟨tidy, rfl, List.suffix_rfl⟩

theorem keptTrans (one : Kept sense start memory) (two : Kept sense memory later) : Kept sense start later :=
  ⟨two.tidy, two.opened.trans one.opened, one.known.trans two.known⟩

theorem keptWithin (tidy : start.Tidy sense) (kept : Kept sense start memory) : Within sense start memory := by
  intro key type valid found
  obtain ⟨other, member, alike⟩ := (findSomeIff tidy valid).mp found
  exact findOfMem kept.tidy valid (kept.known.subset member) alike

theorem keptHit (tidy : memory.Tidy sense) : Kept sense memory memory.hit :=
  ⟨⟨tidy.valid, tidy.once⟩, rfl, List.suffix_rfl⟩

theorem tidyPerm {twin : Memory κ} (tidy : memory.Tidy sense) (perm : twin.keys.Perm memory.keys) :
    twin.Tidy sense :=
  ⟨fun key member => tidy.valid key (perm.subset member), (perm.map sense.outline).nodup_iff.mpr tidy.once⟩

theorem keysEnded (opened : memory.opened = key :: start.opened) : memory.keys = key :: memory.ended.keys := by
  rw [keys, keys, ended, opened]
  rfl

theorem keptEnded (kept : Kept sense (start.begun key) memory) : Kept sense start memory.ended where
  tidy := by
    have valid := kept.tidy.valid
    have once := kept.tidy.once
    rw [keysEnded kept.opened] at valid once
    exact ⟨(List.forall_mem_cons.mp valid).2, (List.nodup_cons.mp once).2⟩
  opened := congrArg List.tail kept.opened
  known := kept.known

theorem keptLearnt (kept : Kept sense (start.begun key) memory) :
    Kept sense start (memory.ended.learnt key type) where
  tidy := by
    refine tidyPerm kept.tidy ?_
    rw [keysEnded kept.opened]
    exact List.perm_middle
  opened := congrArg List.tail kept.opened
  known := kept.known.trans (List.suffix_cons _ _)

end Memory

namespace Resolving

open Memory (Tidy Kept Within keptRefl keptTrans keptWithin keptHit keptEnded keptLearnt tidyBegun findBegun findOfMem hitMore)

variable {κ ω α β : Type} {sense : Recognition κ ω} {m n : Nat}

def Fails (work : Resolving κ α) (memory : Memory κ) (fault : Fault) (later : Memory κ) : Prop :=
  work memory = (.error fault, later)

theorem failsPure {a : α} {memory later : Memory κ} {fault : Fault} : ¬ Fails (pure a) memory fault later :=
  fun absurd => nomatch absurd

theorem failsThrow {fault other : Fault} {memory later : Memory κ} :
    Fails (throw fault : Resolving κ α) memory other later ↔ fault = other ∧ memory = later := by
  constructor
  · intro failed
    cases failed
    exact ⟨rfl, rfl⟩
  · rintro ⟨rfl, rfl⟩
    rfl

theorem failsBind {work : Resolving κ α} {next : α → Resolving κ β} {memory later : Memory κ} {fault : Fault} :
    Fails (work >>= next) memory fault later ↔
      Fails work memory fault later ∨ ∃ a between, Runs work memory a between ∧ Fails (next a) between fault later := by
  rw [Fails, bindRun]
  constructor
  · intro failed
    split at failed
    · rename_i a found
      exact .inr ⟨a, _, Prod.ext found rfl, failed⟩
    · rename_i other found
      cases failed
      exact .inl (Prod.ext found rfl)
  · rintro (failed | ⟨a, between, ran, failed⟩)
    · rw [failed]
    · rw [ran]
      exact failed

theorem failsGet {next : Memory κ → Resolving κ β} {memory later : Memory κ} {fault : Fault} :
    Fails (get >>= next) memory fault later ↔ Fails (next memory) memory fault later := Iff.rfl

section

variable {same : κ → κ → Bool} {limit : Int} {source : String} {key : κ} {works : Option (Resolving κ ParamType)}
  {memory later : Memory κ} {fault : Fault}

theorem failsInProgress {work : Resolving κ ParamType} : Fails (inProgress key work) memory fault later ↔
    ∃ between, Fails work (memory.begun key) fault between ∧ later = between.ended := by
  constructor
  · intro failed
    obtain ⟨found, rfl⟩ := Prod.ext_iff.mp failed
    exact ⟨(work (memory.begun key)).2, Prod.ext found rfl, rfl⟩
  · rintro ⟨between, failed, rfl⟩
    rw [Fails, inProgress]
    change ((work (memory.begun key)).1, (work (memory.begun key)).2.ended) = _
    rw [failed]

theorem failsWorked : Fails (worked same limit source key works) memory fault later ↔
    (memory.opened.any (same · key) = true ∧ .invalidType (.recursive source) = fault ∧ memory = later) ∨
    (memory.opened.any (same · key) = false ∧
      ((works = none ∧ .unsupported (.resolutionDepth limit source) = fault ∧ memory = later) ∨
        ∃ work between, works = some work ∧ Fails work (memory.begun key) fault between ∧
          later = between.ended)) := by
  unfold worked
  rw [failsGet]
  cases memory.opened.any (same · key) with
  | true => simp [failsThrow]
  | false =>
    cases works with
    | none => simp [failsThrow]
    | some work => simp [failsInProgress]

theorem failsGuarded : Fails (guarded same limit source key works) memory fault later ↔
    memory.find? same key = none ∧ Fails (worked same limit source key works) memory fault later := by
  rw [Fails, guardedRun]
  cases memory.find? same key with
  | some type => exact ⟨fun absurd => (nomatch absurd), fun absurd => nomatch absurd.1⟩
  | none =>
    have remembers : ∀ type (between : Memory κ), ¬ Fails (remember key type) between fault later :=
      fun _ _ absurd => nomatch absurd
    have whole := @failsBind _ _ _ (worked same limit source key works) (remember key) memory later fault
    simp only [remembers, and_false, exists_false, or_false] at whole
    exact whole.trans (and_iff_right rfl).symm

end

/-- Work that looks `n` things up when it finds again what it found before. -/
structure Replays (sense : Recognition κ ω) (n : Nat) (work : Resolving κ α) : Prop where
  keeps : ∀ {memory : Memory κ}, memory.Tidy sense → Kept sense memory (work memory).2
  repeats : ∀ {memory later start : Memory κ} {a : α}, memory.Tidy sense → Runs work memory a later →
    Within sense later start → Runs work start a (start.hitTimes n)
  relapses : ∀ {memory later start : Memory κ} {fault : Fault}, memory.Tidy sense →
    Fails work memory fault later → start.known = later.known → start.opened = memory.opened →
    ∃ m, Fails work start fault (start.hitTimes m)

theorem keptRuns {work : Resolving κ α} {memory later : Memory κ} {a : α} (replays : Replays sense n work)
    (tidy : memory.Tidy sense) (runs : Runs work memory a later) : Kept sense memory later := by
  have kept := replays.keeps tidy
  rw [runs] at kept
  exact kept

theorem keptFails {work : Resolving κ α} {memory later : Memory κ} {fault : Fault}
    (replays : Replays sense n work) (tidy : memory.Tidy sense) (failed : Fails work memory fault later) :
    Kept sense memory later := by
  have kept := replays.keeps tidy
  rw [failed] at kept
  exact kept

theorem replaysPure (a : α) : Replays sense 0 (pure a) where
  keeps := keptRefl
  repeats := by
    intro memory later start b _ runs _
    exact runsPure.mpr ⟨(runsPure.mp runs).1, rfl⟩
  relapses := fun _ failed => absurd failed failsPure

theorem replaysThrow (n : Nat) (fault : Fault) : Replays sense n (throw fault : Resolving κ α) where
  keeps := keptRefl
  repeats := fun _ runs => absurd runs runsThrow
  relapses := by
    intro memory later start other _ failed _ _
    exact ⟨0, failsThrow.mpr ⟨(failsThrow.mp failed).1, rfl⟩⟩

theorem replaysLift (outcome : Except Fault α) : Replays sense 0 (Site.lift outcome) := by
  cases outcome with
  | ok a => exact replaysPure a
  | error fault => exact replaysThrow 0 fault

theorem withinOfKnown {memory later start : Memory κ} (tidy : memory.Tidy sense) (kept : Kept sense memory later)
    (known : start.known = later.known) : Within sense memory start := by
  intro key type valid found
  rw [Memory.find?, known]
  exact keptWithin tidy kept key type valid found

theorem replaysBind {work : Resolving κ α} {next : α → Resolving κ β} (first : Replays sense m work)
    (rest : ∀ a, Replays sense n (next a)) : Replays sense (m + n) (work >>= next) where
  keeps := by
    intro memory tidy
    have kept := first.keeps tidy
    rw [bindRun]
    cases (work memory).1 with
    | ok a => exact keptTrans kept ((rest a).keeps kept.tidy)
    | error fault => exact kept
  repeats := by
    intro memory later start b tidy runs within
    obtain ⟨a, between, ran, last⟩ := runsBind.mp runs
    have kept := keptRuns first tidy ran
    have keptToo := keptRuns (rest a) kept.tidy last
    have before : Within sense between start := fun key type valid found =>
      within key type valid (keptWithin kept.tidy keptToo key type valid found)
    have again := first.repeats tidy ran before
    have more : Runs (next a) (start.hitTimes m) b ((start.hitTimes m).hitTimes n) :=
      (rest a).repeats kept.tidy last within
    rw [hitMore] at more
    exact runsBind.mpr ⟨a, _, again, more⟩
  relapses := by
    intro memory later start fault tidy failed known opened
    rcases failsBind.mp failed with failed | ⟨a, between, ran, failed⟩
    · obtain ⟨times, again⟩ := first.relapses tidy failed known opened
      exact ⟨times, failsBind.mpr (.inl again)⟩
    · have kept := keptRuns first tidy ran
      have keptToo := keptFails (rest a) kept.tidy failed
      have again := first.repeats tidy ran (withinOfKnown kept.tidy keptToo known)
      obtain ⟨times, more⟩ := @(rest a).relapses _ _ (start.hitTimes m) _ kept.tidy failed known
        (opened.trans kept.opened.symm)
      rw [hitMore] at more
      exact ⟨m + times, failsBind.mpr (.inr ⟨a, _, again, more⟩)⟩

theorem replaysLiftBind {outcome : Except Fault α} {next : α → Resolving κ β}
    (rest : ∀ a, outcome = .ok a → Replays sense n (next a)) : Replays sense n (Site.lift outcome >>= next) := by
  cases outcome with
  | ok a =>
    have same : (Site.lift (.ok a) >>= next : Resolving κ β) = next a := rfl
    rw [same]
    exact rest a rfl
  | error fault => exact replaysThrow n fault

section

variable {limit : Int} {source : String} {key : κ} {works : Option (Resolving κ ParamType)} {memory later : Memory κ}

theorem keptGuarded (valid : sense.valid key) (each : ∀ work, works = some work → ∃ n, Replays sense n work)
    (tidy : memory.Tidy sense) {type : ParamType}
    (runs : Runs (guarded sense.same limit source key works) memory type later) : Kept sense memory later := by
  rcases runsGuarded.mp runs with ⟨_, rfl⟩ | ⟨unknown, new, work, between, given, ran, rfl⟩
  · exact keptHit tidy
  · obtain ⟨n, replays⟩ := each work given
    exact keptLearnt (keptRuns replays (tidyBegun tidy valid unknown new) ran)

theorem keptRefused (valid : sense.valid key) (each : ∀ work, works = some work → ∃ n, Replays sense n work)
    (tidy : memory.Tidy sense) {fault : Fault}
    (failed : Fails (guarded sense.same limit source key works) memory fault later) : Kept sense memory later := by
  obtain ⟨unknown, failed⟩ := failsGuarded.mp failed
  rcases failsWorked.mp failed with ⟨_, _, rfl⟩ | ⟨new, ⟨_, _, rfl⟩ | ⟨work, between, given, inside, rfl⟩⟩
  · exact keptRefl tidy
  · exact keptRefl tidy
  · obtain ⟨n, replays⟩ := each work given
    exact keptEnded (keptFails replays (tidyBegun tidy valid unknown new) inside)

theorem relapsesGuarded (valid : sense.valid key) (each : ∀ work, works = some work → ∃ n, Replays sense n work)
    (tidy : memory.Tidy sense) {fault : Fault} {start : Memory κ}
    (failed : Fails (guarded sense.same limit source key works) memory fault later)
    (known : start.known = later.known) (opened : start.opened = memory.opened) :
    ∃ m, Fails (guarded sense.same limit source key works) start fault (start.hitTimes m) := by
  obtain ⟨unknown, failed⟩ := failsGuarded.mp failed
  have lookup : start.find? sense.same key = later.find? sense.same key := by
    rw [Memory.find?, known, Memory.find?]
  rcases failsWorked.mp failed with
    ⟨again, blamed, rfl⟩ | ⟨new, ⟨none, blamed, rfl⟩ | ⟨work, between, given, inside, rfl⟩⟩
  · rw [← opened] at again
    exact ⟨0, failsGuarded.mpr ⟨lookup.trans unknown, failsWorked.mpr (.inl ⟨again, blamed, rfl⟩)⟩⟩
  · rw [← opened] at new
    exact ⟨0, failsGuarded.mpr ⟨lookup.trans unknown, failsWorked.mpr (.inr ⟨new, .inl ⟨none, blamed, rfl⟩⟩)⟩⟩
  · obtain ⟨n, replays⟩ := each work given
    have begun := tidyBegun tidy valid unknown new
    have kept := keptFails replays begun inside
    have still : key ∈ between.opened := by
      rw [kept.opened]
      exact List.mem_cons_self
    have missing : between.find? sense.same key = Option.none := findBegun kept.tidy valid still
    rw [← opened] at new
    obtain ⟨times, relapsed⟩ := @replays.relapses _ _ (start.begun key) _ begun inside known
      (congrArg (key :: ·) opened)
    exact ⟨times, failsGuarded.mpr ⟨lookup.trans missing,
      failsWorked.mpr (.inr ⟨new, .inr ⟨work, _, given, relapsed, rfl⟩⟩)⟩⟩

theorem replaysGuarded (valid : sense.valid key) (each : ∀ work, works = some work → ∃ n, Replays sense n work) :
    Replays sense 1 (guarded sense.same limit source key works) where
  keeps := by
    intro memory tidy
    cases outcome : (guarded sense.same limit source key works memory).1 with
    | ok type => exact keptGuarded valid each tidy (Prod.ext outcome rfl)
    | error fault => exact keptRefused valid each tidy (Prod.ext outcome rfl)
  repeats := by
    intro memory later start type tidy runs within
    refine runsGuarded.mpr (.inl ⟨within key type valid ?_, rfl⟩)
    have kept := keptGuarded valid each tidy runs
    rcases runsGuarded.mp runs with ⟨found, rfl⟩ | ⟨_, _, _, _, _, _, rfl⟩
    · exact found
    · exact findOfMem kept.tidy valid List.mem_cons_self rfl
  relapses := fun tidy failed known opened => relapsesGuarded valid each tidy failed known opened

end

end Resolving

namespace Memory

open Resolving (Replays)

variable {κ ω ν : Type} {sense : Recognition κ ω} {ask : ν → Resolving κ ParamType} {lookups : ν → Nat}
  {memory : Memory κ} {steps : List ν}

def afterAsking (ask : ν → Resolving κ ParamType) (memory : Memory κ) (steps : List ν) : Memory κ :=
  steps.foldl (fun memory step => (ask step memory).2) memory

theorem keptAsking (replays : ∀ step ∈ steps, Replays sense (lookups step) (ask step))
    (tidy : memory.Tidy sense) : memory.Kept sense (memory.afterAsking ask steps) := by
  refine List.foldlRecOn (motive := memory.Kept sense) steps _ (keptRefl tidy) fun between kept step member => ?_
  exact keptTrans kept ((replays step member).keeps kept.tidy)

theorem askingAppend (history more : List ν) :
    memory.afterAsking ask (history ++ more) = (memory.afterAsking ask history).afterAsking ask more :=
  List.foldl_append

end Memory

namespace Site

open Resolving (Replays replaysPure replaysThrow replaysLift replaysBind)
open Outcome (Faults)

variable {κ ω ι : Type} {sense : Recognition κ ω} {name : ι → String} {work : ι → Resolving κ ParamType}
  {source : String} {items : Option (List ι)} {arguments : List ParamType}
  {stand : String → Except Fault ParamType} {expr : TypeExpr}

theorem replaysResolveAll (times : ι → Nat) (is : List ι) (each : ∀ item ∈ is, Replays sense (times item) (work item)) :
    Replays sense (is.map times).sum (resolveAll (is.map fun item => (name item, work item))) := by
  induction is with
  | nil => exact replaysPure []
  | cons item is ih =>
    obtain ⟨first, rest⟩ := List.forall_mem_cons.mp each
    rw [List.map_cons, List.sum_cons]
    exact replaysBind first fun type => replaysBind (n := 0) (ih rest) fun types => replaysPure (type :: types)

theorem replaysBuild (stands : ∀ word, Faults Fault.OfNode (stand word))
    (each : asks arguments expr = true → ∀ item ∈ items.getD [], ∃ n, Replays sense n (work item)) :
    ∃ n, Replays sense n ((working name work source items arguments stand).build expr) := by
  cases asked : asks arguments expr with
  | false =>
    rw [buildUnasked asked []]
    exact ⟨0, replaysLift _⟩
  | true =>
    cases composed stands asked with
    | refuses fault _ works _ =>
      rw [works work]
      exact ⟨0, replaysThrow 0 fault⟩
    | forms form works =>
      rw [works work]
      choose! times replays using each asked
      refine ⟨_, replaysBind (n := 0) (replaysResolveAll times (items.getD []) replays) fun types => ?_⟩
      exact replaysPure (form types)

end Site

end WordAbi
