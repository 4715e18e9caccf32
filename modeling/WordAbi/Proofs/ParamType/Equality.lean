import WordAbi.ParamType.Basic
/-! Types are compared with all their names, so that what a run gives can be decided. -/
namespace WordAbi

namespace ParamType

mutual

def equal : ParamType → ParamType → Bool
  | primitive p, primitive q => p == q
  | string m, string n => m == n
  | array s m, array t n => m == n && equal s t
  | vector s, vector t => equal s t
  | tuple ss, tuple ts => equalList ss ts
  | struct ss gs m ms, struct ts hs n ns => equalList ss ts && equalList gs hs && m == n && ms == ns
  | enum ss gs m ms, enum ts hs n ns => equalList ss ts && equalList gs hs && m == n && ms == ns
  | unspecified, unspecified => true
  | _, _ => false

def equalList : List ParamType → List ParamType → Bool
  | [], [] => true
  | s :: ss, t :: ts => equal s t && equalList ss ts
  | _, _ => false

end

mutual

theorem equalIff : (s t : ParamType) → (equal s t = true ↔ s = t)
  | primitive p, t => by cases t <;> simp [equal]
  | string m, t => by cases t <;> simp [equal]
  | array s m, t => by
    cases t with
    | array t n => simp [equal, equalIff s t, and_comm]
    | _ => simp [equal]
  | vector s, t => by
    cases t with
    | vector t => simp [equal, equalIff s t]
    | _ => simp [equal]
  | tuple ss, t => by
    cases t with
    | tuple ts => simp [equal, equalListIff ss ts]
    | _ => simp [equal]
  | struct ss gs _ _, t => by
    cases t with
    | struct ts hs _ _ => simp [equal, equalListIff ss ts, equalListIff gs hs, and_assoc]
    | _ => simp [equal]
  | enum ss gs _ _, t => by
    cases t with
    | enum ts hs _ _ => simp [equal, equalListIff ss ts, equalListIff gs hs, and_assoc]
    | _ => simp [equal]
  | unspecified, t => by cases t <;> simp [equal]

theorem equalListIff : (ss ts : List ParamType) → (equalList ss ts = true ↔ ss = ts)
  | [], ts => by cases ts <;> simp [equalList]
  | s :: ss, ts => by
    cases ts with
    | nil => simp [equalList]
    | cons t ts => simp [equalList, equalIff s t, equalListIff ss ts]

end

instance : DecidableEq ParamType := fun s t => decidable_of_iff (equal s t = true) (equalIff s t)

end ParamType

instance Outcome.decidableIsOk {ε α : Type} [DecidableEq α] (outcome : Except ε α) (a : α) :
    Decidable (outcome = .ok a) :=
  match outcome with
  | .ok other => decidable_of_iff (other = a) ⟨congrArg _, Except.ok.inj⟩
  | .error _ => isFalse nofun

end WordAbi
