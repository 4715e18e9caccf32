import WordAbi.Proofs.Schema.Flat.Labels
import WordAbi.Proofs.Schema.Inline.Account
/-! Types of inline nodes say what values they have, when the types that parameters stand for do. -/
namespace WordAbi.Property
open ParamType (Whole)

variable {bindings : Bindings String}

def Supplied (bindings : Bindings String) : Prop :=
  ∀ word type, Table.get? bindings word = some type → type.Whole

theorem suppliedExtend (supplied : Supplied bindings) {types : List ParamType}
    (each : ∀ type ∈ types, type.Whole) (parameters : List String) :
    Supplied (bindings.extend parameters types) := by
  intro word type found
  rcases Table.valueOfGet found with before | ⟨⟨_, _⟩, member, rfl⟩
  · exact supplied word type before
  · exact each _ (List.of_mem_zip member).2

theorem wholeOfStanding (supplied : Supplied bindings) {source word : String} {type : ParamType}
    (found : standing source bindings word = .ok type) : type.Whole := by
  unfold standing at found
  split at found
  · rename_i bound
    cases found
    exact supplied word _ bound
  · contradiction

variable [Host]

def wholeAccount : Account where
  allows _ bindings := Supplied bindings
  of _ bindings type := Supplied bindings → type.Whole
  meets key := Supplied key.bindings ∧ ∀ argument ∈ key.arguments, argument.Whole
  found _ type := type.Whole
  bound _ found supplied := supplied _ _ found
  argument supplied _ _ _ _ := supplied
  applied := by
    intro name typeField cs as ps expr types bindings supplied _ _ each _ _
    have whole : ∀ type ∈ types, type.Whole := by
      intro type member
      obtain ⟨_, _, whole⟩ := Outcome.pairOfMem each.flip type member
      exact whole supplied
    exact ⟨⟨suppliedExtend supplied whole _, whole⟩, fun type whole _ => whole⟩
  component meets _ _ _ _ := meets.1
  settled := by
    intro key expr type meets _ _ settles
    have theirs := Site.settlesOf (fun _ _ whole => whole meets.1) settles
    exact Site.wholeOfSettles (fun word found => wholeOfStanding meets.1) meets.2 theirs
  shared _ _ whole _ := whole

theorem wholeOfResolve {limit : Int} {history : List (Property × Bindings String)}
    (known : ∀ step ∈ history, Supplied step.2) (supplied : Supplied bindings) {p : Property} {type : ParamType}
    (resolved : (resolve limit p bindings (memoryAfter limit history)).1 = .ok type) : type.Whole :=
  wholeAccount.ofResolve known supplied resolved supplied

end WordAbi.Property
