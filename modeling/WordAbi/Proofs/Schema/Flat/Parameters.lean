import WordAbi.Proofs.Schema.Flat.Account
import WordAbi.Proofs.Schema.Shape
/-! What the names of generic parameters stand for under bindings: where every name is that of one
declaration, it does not matter in which order the parameters were bound. -/
namespace WordAbi

open List (Forall₂)

namespace Declarations

variable {table : Declarations} {bindings others : Bindings Int} {type : ParamType}
  {source word : String}

def Unambiguous (table : Declarations) : Prop :=
  ∀ {id other d e word}, find table id = .ok d → find table other = .ok e → declares d word = true →
    declares e word = true → id = other

def Declared (table : Declarations) : Prop :=
  ∀ id d, find table id = .ok d → ∀ parameter ∈ d.typeParameters, ∃ e, find table parameter = .ok e

structure Bound (table : Declarations) (bindings : Bindings Int) : Prop where
  once : (Table.keys bindings).Nodup
  known : ∀ id ∈ Table.keys bindings, ∃ d, find table id = .ok d

theorem boundExtend (declared : Declared table) (bound : Bound table bindings) {id : Int}
    {d : TypeDeclaration} (found : find table id = .ok d) (types : List ParamType) :
    Bound table (bindings.extend d.typeParameters types) := by
  refine ⟨Bindings.nodupExtend bound.once, fun key member => ?_⟩
  rcases Bindings.keysExtend member with here | parameter
  · exact bound.known key here
  · exact declared id d found key parameter

theorem substituteOk (found : substitute table source word bindings = .ok type) :
    ∃ id d, (id, type) ∈ bindings ∧ find table id = .ok d ∧ declares d word = true := by
  induction bindings with
  | nil => cases found
  | cons entry rest ih =>
    obtain ⟨id, bound⟩ := entry
    rw [substitute, Outcome.bindOk] at found
    obtain ⟨d, declared, found⟩ := found
    split at found
    · rename_i named
      cases found
      exact ⟨id, d, List.mem_cons_self, declared, named⟩
    · obtain ⟨other, e, member, rest⟩ := ih found
      exact ⟨other, e, List.mem_cons_of_mem _ member, rest⟩

theorem substituteOfMem (unambiguous : Unambiguous table) (bound : Bound table bindings) {id : Int}
    {d : TypeDeclaration} (member : (id, type) ∈ bindings) (found : find table id = .ok d)
    (named : declares d word = true) : substitute table source word bindings = .ok type := by
  induction bindings with
  | nil => cases member
  | cons entry rest ih =>
    obtain ⟨first, other⟩ := entry
    obtain ⟨new, once⟩ := List.nodup_cons.mp bound.once
    obtain ⟨e, there⟩ := bound.known first List.mem_cons_self
    rw [substitute, there]
    change (if declares e word = true then _ else _) = _
    rcases List.mem_cons.mp member with same | later
    · cases same
      rw [found] at there
      cases there
      rw [if_pos named]
    · split
      · rename_i namedToo
        obtain rfl := unambiguous there found namedToo named
        exact absurd (List.mem_map.mpr ⟨_, later, rfl⟩) new
      · exact ih ⟨once, fun key member => bound.known key (List.mem_cons_of_mem first member)⟩ later

theorem substituteFollows (unambiguous : Unambiguous table) (bound : Bound table bindings)
    (boundToo : Bound table others) (alike : bindings.Alike others) (source word : String) :
    Site.Follows (substitute table source word bindings) (substitute table source word others) := by
  intro type found
  obtain ⟨id, d, member, declared, named⟩ := substituteOk found
  obtain ⟨twin, there, same⟩ := Bindings.alikeFound alike (Table.getOfMem bound.once member)
  exact ⟨twin, substituteOfMem unambiguous boundToo (Table.memOfGet there) declared named, same⟩

end Declarations

end WordAbi
