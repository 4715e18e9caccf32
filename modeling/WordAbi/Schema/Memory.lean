import WordAbi.Fault
import WordAbi.Table
/-! What a resolver goes by: the types that generic parameters stand for, by their names or their ids, and what it
remembers, namely the types that it has found, by what they were found for, how often a type was found again, and
what it is working on. -/
namespace WordAbi

abbrev Bindings (κ : Type) := Table κ ParamType

namespace Bindings

variable {κ : Type} [DecidableEq κ]

def extend (bindings : Bindings κ) (parameters : List κ) (arguments : List ParamType) : Bindings κ :=
  (parameters.zip arguments).foldl (fun table entry => table.insert entry.1 entry.2) bindings

def same (bindings others : Bindings κ) : Bool :=
  bindings.length == others.length
    && bindings.all fun (name, type) => (others.get? name).any (type.same ·)

end Bindings

structure Memory (κ : Type) where
  known : List (κ × ParamType)
  hits : Nat
  opened : List κ

namespace Memory

def empty {κ : Type} : Memory κ := ⟨[], 0, []⟩

def find? {κ : Type} (same : κ → κ → Bool) (memory : Memory κ) (key : κ) : Option ParamType :=
  (memory.known.find? fun entry => same entry.1 key).map (·.2)

end Memory

abbrev Resolving (κ : Type) := ExceptT Fault (StateM (Memory κ))

namespace Resolving

variable {κ : Type}

def inProgress (key : κ) (work : Resolving κ ParamType) : Resolving κ ParamType :=
  fun memory =>
    let done := work { memory with opened := key :: memory.opened }
    (done.1, { done.2 with opened := done.2.opened.tail })

def remember (key : κ) (type : ParamType) : Resolving κ ParamType := do
  modify fun memory => { memory with known := (key, type) :: memory.known }
  pure type

/-- The result of the work for a key, which is not begun a second time while it is in progress. Work
nested too deeply is absent. -/
def worked (same : κ → κ → Bool) (limit : Int) (source : String) (key : κ)
    (work : Option (Resolving κ ParamType)) : Resolving κ ParamType := do
  let memory ← get
  if memory.opened.any (same · key) then throw (.invalidType (.recursive source))
  else
    match work with
    | none => throw (.unsupported (.resolutionDepth limit source))
    | some work => inProgress key work

def guarded (same : κ → κ → Bool) (limit : Int) (source : String) (key : κ)
    (work : Option (Resolving κ ParamType)) : Resolving κ ParamType := do
  let memory ← get
  match memory.find? same key with
  | some type => do
    set { memory with hits := memory.hits + 1 }
    pure type
  | none => do
    let type ← worked same limit source key work
    remember key type

end Resolving

end WordAbi
