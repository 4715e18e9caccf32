import WordAbi.Proofs.Outcome
import WordAbi.Schema.Memory
import WordAbi.Schema.Site
/-! Rules for work with a memory: what it keeps true of all that is known, and what is true of its
results. A node is built from the results of its components as it is built from their work. -/
namespace WordAbi

def Memory.Keeps {κ : Type} (known : κ → ParamType → Prop) (memory : Memory κ) : Prop :=
  ∀ key type, (key, type) ∈ memory.known → known key type

theorem Memory.keepsEmpty {κ : Type} {known : κ → ParamType → Prop} :
    (Memory.empty : Memory κ).Keeps known := by
  intro key type member
  cases member

theorem Memory.memOfFind {κ : Type} {same : κ → κ → Bool} {memory : Memory κ} {key : κ}
    {type : ParamType} (found : memory.find? same key = some type) :
    ∃ other, (other, type) ∈ memory.known ∧ same other key = true := by
  simp only [Memory.find?, Option.map_eq_some_iff] at found
  obtain ⟨⟨other, _⟩, found, rfl⟩ := found
  exact ⟨other, List.mem_of_find?_eq_some found, (List.find?_some found :)⟩

namespace Resolving

variable {κ α β ι : Type} {known : κ → ParamType → Prop}

def Ensures (known : κ → ParamType → Prop) (work : Resolving κ α) (result : α → Prop) : Prop :=
  ∀ memory, memory.Keeps known →
    (work memory).2.Keeps known ∧ ∀ a, (work memory).1 = .ok a → result a

theorem bindRun (work : Resolving κ α) (next : α → Resolving κ β) (memory : Memory κ) :
    (work >>= next) memory =
      match (work memory).1 with
      | .ok a => next a (work memory).2
      | .error fault => (.error fault, (work memory).2) := by
  simp only [bind, ExceptT.bind, ExceptT.mk, StateT.bind]
  cases work memory with
  | mk outcome later => cases outcome <;> rfl

theorem ensuresPure {a : α} {result : α → Prop} (holds : result a) :
    Ensures known (pure a) result := by
  intro memory keeps
  refine ⟨keeps, fun b same => ?_⟩
  cases same
  exact holds

theorem ensuresThrow {fault : Fault} {result : α → Prop} :
    Ensures known (throw fault) result := by
  intro memory keeps
  exact ⟨keeps, fun _ absurd => nomatch absurd⟩

theorem ensuresBind {work : Resolving κ α} {next : α → Resolving κ β} {first : α → Prop}
    {result : β → Prop} (before : Ensures known work first)
    (after : ∀ a, first a → Ensures known (next a) result) :
    Ensures known (work >>= next) result := by
  intro memory keeps
  obtain ⟨kept, holds⟩ := before memory keeps
  rw [bindRun]
  cases outcome : (work memory).1 with
  | error fault => exact ⟨kept, fun _ absurd => nomatch absurd⟩
  | ok a => exact after a (holds a outcome) _ kept

theorem ensuresOf {work : Resolving κ α} {first result : α → Prop} (before : Ensures known work first)
    (weaker : ∀ a, first a → result a) : Ensures known work result := by
  intro memory keeps
  obtain ⟨kept, holds⟩ := before memory keeps
  exact ⟨kept, fun a same => weaker a (holds a same)⟩

theorem ensuresLift {outcome : Except Fault α} {result : α → Prop}
    (holds : ∀ a, outcome = .ok a → result a) :
    Ensures known (Site.lift outcome) result := by
  cases outcome with
  | ok a => exact ensuresPure (holds a rfl)
  | error fault => exact ensuresThrow

theorem ensuresGet {next : Memory κ → Resolving κ β} {result : β → Prop}
    (after : ∀ memory, memory.Keeps known → Ensures known (next memory) result) :
    Ensures known (get >>= next) result := by
  intro memory keeps
  rw [bindRun]
  exact after memory keeps memory keeps

theorem ensuresSet {later : Memory κ} (keeps : later.Keeps known) :
    Ensures known (set later : Resolving κ PUnit) fun _ => True := by
  intro _ _
  exact ⟨keeps, fun _ _ => trivial⟩

theorem ensuresInProgress {key : κ} {work : Resolving κ ParamType} {result : ParamType → Prop}
    (worked : Ensures known work result) : Ensures known (inProgress key work) result := by
  intro memory keeps
  exact worked { memory with opened := key :: memory.opened } keeps

theorem ensuresRemember {key : κ} {type : ParamType} (new : known key type) :
    Ensures known (remember key type) (known key) := by
  intro memory keeps
  refine ⟨fun other found member => ?_, fun found same => ?_⟩
  · rcases List.mem_cons.mp member with same | member
    · cases same
      exact new
    · exact keeps other found member
  · cases same
    exact new

theorem ensuresWorked {same : κ → κ → Bool} {limit : Int} {source : String} {key : κ}
    {work : Option (Resolving κ ParamType)} {result : ParamType → Prop}
    (inner : ∀ found, work = some found → Ensures known found result) :
    Ensures known (worked same limit source key work) result := by
  refine ensuresGet fun memory _ => ?_
  split
  · exact ensuresThrow
  · cases work with
    | none => exact ensuresThrow
    | some found => exact ensuresInProgress (inner found rfl)

theorem ensuresGuarded {same : κ → κ → Bool} {limit : Int} {source : String} {key : κ}
    {work : Option (Resolving κ ParamType)}
    (shared : ∀ other type, known other type → same other key = true → known key type)
    (inner : ∀ found, work = some found → Ensures known found (known key)) :
    Ensures known (guarded same limit source key work) (known key) := by
  refine ensuresGet fun memory keeps => ?_
  split
  · rename_i type found
    obtain ⟨other, member, like⟩ := Memory.memOfFind found
    have holds := shared other type (keeps other type member) like
    exact ensuresBind (ensuresSet keeps)
      fun _ _ => ensuresPure holds
  · exact ensuresBind (ensuresWorked inner) fun type holds => ensuresRemember holds

def Reaches (limit : Int) (opened : List κ) (work : Resolving κ α) (a : α) : Prop :=
  ∀ memory, memory.opened = opened → (work memory).2.opened = opened ∧
    ((work memory).1 = .ok a ∨
      ∃ source, (work memory).1 = .error (.unsupported (.resolutionDepth limit source)))

variable {limit : Int} {opened : List κ}

theorem reachesPure (a : α) : Reaches limit opened (pure a) a :=
  fun _ same => ⟨same, .inl rfl⟩

theorem reachesBind {work : Resolving κ α} {next : α → Resolving κ β} {a : α} {b : β}
    (first : Reaches limit opened work a) (rest : Reaches limit opened (next a) b) :
    Reaches limit opened (work >>= next) b := by
  intro memory same
  obtain ⟨kept, outcome⟩ := first memory same
  rw [bindRun]
  rcases outcome with found | ⟨source, failed⟩
  · rw [found]
    exact rest _ kept
  · rw [failed]
    exact ⟨kept, .inr ⟨source, rfl⟩⟩

theorem reachesLift {outcome : Except Fault α} {a : α} (found : outcome = .ok a) :
    Reaches limit opened (Site.lift outcome) a := by
  rw [found]
  exact reachesPure a

theorem reachesInProgress {key : κ} {work : Resolving κ ParamType} {type : ParamType}
    (inner : Reaches limit (key :: opened) work type) :
    Reaches limit opened (inProgress key work) type := by
  rintro memory rfl
  obtain ⟨kept, outcome⟩ := inner { memory with opened := key :: memory.opened } rfl
  exact ⟨congrArg List.tail kept, outcome⟩

theorem reachesWorked {same : κ → κ → Bool} {source : String} {key : κ}
    {work : Option (Resolving κ ParamType)} {type : ParamType}
    (new : ∀ other ∈ opened, same other key = false)
    (inner : ∀ found, work = some found → Reaches limit (key :: opened) found type) :
    Reaches limit opened (worked same limit source key work) type := by
  rintro memory rfl
  have fresh : memory.opened.any (same · key) = false :=
    List.any_eq_false.mpr fun other member => by simp [new other member]
  cases work with
  | none =>
    have run : worked same limit source key none memory =
        (if memory.opened.any (same · key) then throw (.invalidType (.recursive source))
          else throw (.unsupported (.resolutionDepth limit source)) : Resolving κ ParamType) memory := rfl
    rw [run, fresh]
    exact ⟨rfl, .inr ⟨source, rfl⟩⟩
  | some found =>
    have run : worked same limit source key (some found) memory =
        (if memory.opened.any (same · key) then throw (.invalidType (.recursive source))
          else inProgress key found : Resolving κ ParamType) memory := rfl
    rw [run, fresh]
    exact reachesInProgress (inner found rfl) memory rfl

end Resolving

end WordAbi
