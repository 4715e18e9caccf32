import WordAbi.Proofs.ParamType.Equality
import WordAbi.Proofs.Schema.Flat.Nesting
import WordAbi.Proofs.Schema.Inline.Nesting
/-! The nesting limit of a resolver bounds the work in progress and not the types that are found: these
nest as deeply as their schemas do, and so may nest more deeply than the codec allows. -/
namespace WordAbi

open Declarations (Nests Unambiguous)

section

variable [Host]

/-- Whatever was resolved before, a type that is found nests exactly as deeply as its schema: within the
limit only if the schema does, and then the codec never refuses it for its depth. -/
theorem resolvedNesting (limit : Int) :
    (∀ (history : List (Property × Bindings String)) (p : Property) (type : ParamType),
      (∀ step ∈ history, (Table.keys step.2).Nodup) →
      (p.resolve limit [] (Property.memoryAfter limit history)).1 = .ok type →
      p.nesting (fun _ => none) = some type.height ∧
        ((type.height : Int) ≤ limit → type.Fits limit)) ∧
    (∀ (declarations : List TypeDeclaration) (history : List TypeApplication) (a : TypeApplication)
        (type : ParamType),
      (Declarations.resolve (.ofList declarations) limit a
        (Declarations.memoryAfter (.ofList declarations) limit history)).1 = .ok type →
      Nests (.ofList declarations) a (fun _ => none) type.height ∧
        (Unambiguous (.ofList declarations) →
          ∀ n, Nests (.ofList declarations) a (fun _ => none) n → n = type.height) ∧
        ((type.height : Int) ≤ limit → type.Fits limit)) := by
  constructor
  · intro history p type nodup resolved
    have unbound : (Table.keys ([] : Bindings String)).Nodup := List.nodup_nil
    have counted := Property.nestingOfResolve nodup unbound resolved
    exact ⟨counted, ParamType.fitsOfHeight⟩
  · intro declarations history a type resolved
    have nests := Declarations.nestsOfResolve resolved
    exact ⟨nests, fun unambiguous n other => Declarations.nestsUnique unambiguous other nests,
      ParamType.fitsOfHeight⟩

end

theorem resolvedNestingBeyond :
    let element : Property := .mk "" (.str "u64") none none none
    let around := fun inner : Property => Property.mk "" (.str "[u64; 1]") (some [inner]) none none
    let inline : Property := .mk "" (.str "[[u64; 1]; 1]") none none none
    let declarations : List TypeDeclaration :=
      [⟨0, .str "u64", none, []⟩, ⟨1, .str "struct Vec", none, [2]⟩, ⟨2, .str "generic T", none, []⟩]
    let vectors : TypeApplication := .mk "" 1 [.mk "" 1 [.mk "" 0 []]]
    let array := fun inner => ParamType.array inner 1
    (inline.resolve 1 [] (Property.memoryAfter 1 [])).1 = .ok (array (array (.primitive .u64))) ∧
      inline.nesting (fun _ => none) = some 2 ∧
      ((around (around (around element))).resolve 2 []
        (Property.memoryAfter 2 [(around element, []), (around (around element), [])])).1 =
          .ok (array (array (array (.primitive .u64)))) ∧
      (around (around (around element))).nesting (fun _ => none) = some 3 ∧
      (Declarations.resolve (.ofList declarations) 1 vectors
        (Declarations.memoryAfter (.ofList declarations) 1 [])).1 =
          .ok (.vector (.vector (.primitive .u64))) ∧
      Nests (.ofList declarations) vectors (fun _ => none) 2 := by
  intro element around inline declarations vectors array
  have first : (inline.resolve 1 [] (Property.memoryAfter 1 [])).1 =
      .ok (array (array (.primitive .u64))) := by
    dsimp only [inline, array]
    decide +kernel
  have second : ((around (around (around element))).resolve 2 []
      (Property.memoryAfter 2 [(around element, []), (around (around element), [])])).1 =
        .ok (array (array (array (.primitive .u64)))) := by
    dsimp only [element, around, array]
    decide +kernel
  have third : (Declarations.resolve (.ofList declarations) 1 vectors
      (Declarations.memoryAfter (.ofList declarations) 1 [])).1 =
        .ok (.vector (.vector (.primitive .u64))) := by
    dsimp only [declarations, vectors]
    decide +kernel
  have once : ∀ step ∈ ([(around element, []), (around (around element), [])] :
      List (Property × Bindings String)), (Table.keys step.2).Nodup := by simp [Table.keys]
  exact ⟨first, ((resolvedNesting 1).1 [] inline _ (by simp) first).1,
    second, ((resolvedNesting 2).1 _ _ _ once second).1,
    third, ((resolvedNesting 1).2 declarations [] vectors _ third).1⟩

end WordAbi
