import Mathlib.Data.List.Perm.Subperm
import WordAbi.Schema.Memory
/-! Bindings know every parameter once, and so the same bindings stand for types of the same shapes. -/
namespace WordAbi

namespace Table

variable {κ α : Type} [DecidableEq κ] {table : Table κ α} {key : κ} {value : α}

theorem memOfGet (found : table.get? key = some value) : (key, value) ∈ table := by
  simp only [get?, Option.map_eq_some_iff] at found
  obtain ⟨⟨other, _⟩, found, rfl⟩ := found
  have same := List.find?_some found
  simp only [decide_eq_true_eq] at same
  subst same
  exact List.mem_of_find?_eq_some found

theorem getNone : table.get? key = none ↔ key ∉ table.keys := by
  simp only [get?, Option.map_eq_none_iff, List.find?_eq_none, decide_eq_true_eq, keys, List.mem_map,
    not_exists, not_and]

theorem getOfMem (nodup : table.keys.Nodup) (member : (key, value) ∈ table) :
    table.get? key = some value := by
  induction table with
  | nil => cases member
  | cons entry rest ih =>
    obtain ⟨new, nodup⟩ := List.nodup_cons.mp nodup
    rcases List.mem_cons.mp member with rfl | member
    · simp [get?]
    · have other : ¬ entry.1 = key := by
        rintro rfl
        exact new (List.mem_map.mpr ⟨_, member, rfl⟩)
      simpa [get?, other] using ih nodup member

theorem nodupInsert (nodup : table.keys.Nodup) : (table.insert key value).keys.Nodup := by
  rw [keysInsert]
  split
  · exact nodup
  · rename_i new
    refine List.nodup_append.mpr ⟨nodup, by simp, fun a here b last same => ?_⟩
    rw [same, List.mem_singleton.mp last] at here
    exact new here

theorem valueOfGet {entries : List (κ × α)}
    (found : get? (entries.foldl (fun table entry => table.insert entry.1 entry.2) table) key = some value) :
    table.get? key = some value ∨ ∃ entry ∈ entries, entry.2 = value := by
  induction entries generalizing table with
  | nil => exact .inl found
  | cons entry entries ih =>
    rcases ih found with before | ⟨other, member, same⟩
    · rw [getInsert] at before
      split at before
      · exact .inr ⟨entry, by simp, Option.some.inj before⟩
      · exact .inl before
    · exact .inr ⟨other, by simp [member], same⟩

end Table

namespace Bindings

variable {κ : Type} [DecidableEq κ] {bindings others : Bindings κ}

theorem nodupExtend {parameters : List κ} {types : List ParamType} (nodup : (Table.keys bindings).Nodup) :
    (Table.keys (bindings.extend parameters types)).Nodup := by
  rw [extend]
  generalize parameters.zip types = entries
  induction entries generalizing bindings with
  | nil => exact nodup
  | cons entry entries ih => exact ih (Table.nodupInsert nodup)

theorem getExtend (parameters : List κ) (types : List ParamType) (key : κ) :
    Table.get? (bindings.extend parameters types) key =
      (Table.get? (extend [] parameters types) key).or (Table.get? bindings key) := by
  rw [extend, extend]
  generalize parameters.zip types = entries
  induction entries generalizing bindings with
  | nil => rfl
  | cons entry entries ih =>
    simp only [List.foldl_cons]
    rw [ih, @ih (Table.insert [] entry.1 entry.2), Option.or_assoc, Table.getInsert, Table.getInsert]
    congr 1
    split <;> rfl

theorem foundOfSame (same : bindings.same others = true) {name : κ} {type : ParamType}
    (member : (name, type) ∈ bindings) :
    ∃ other, Table.get? others name = some other ∧ type.same other = true := by
  simp only [Bindings.same, Bool.and_eq_true, List.all_eq_true] at same
  exact (Option.any_eq_true _ _).mp (same.2 (name, type) member)

theorem getNoneOfSame (same : bindings.same others = true) (nodup : (Table.keys bindings).Nodup)
    {name : κ} (absent : Table.get? bindings name = none) : Table.get? others name = none := by
  have inside : Table.keys bindings ⊆ Table.keys others := by
    intro key member
    obtain ⟨entry, here, rfl⟩ := List.mem_map.mp member
    obtain ⟨other, found, _⟩ := foundOfSame same here
    exact List.mem_map.mpr ⟨_, Table.memOfGet found, rfl⟩
  have length : (Table.keys others).length ≤ (Table.keys bindings).length := by
    simp only [Bindings.same, Bool.and_eq_true, beq_iff_eq] at same
    simp [Table.keys, same.1]
  have perm := (List.subperm_of_subset nodup inside).perm_of_length_le length
  rw [Table.getNone] at absent ⊢
  exact fun member => absent (perm.mem_iff.mpr member)

theorem shapesOfSame (same : bindings.same others = true) (nodup : (Table.keys bindings).Nodup)
    (name : κ) :
    (Table.get? bindings name).map ParamType.shape = (Table.get? others name).map ParamType.shape := by
  cases found : Table.get? bindings name with
  | none => rw [getNoneOfSame same nodup found]
  | some type =>
    obtain ⟨other, there, alike⟩ := foundOfSame same (Table.memOfGet found)
    rw [there, Option.map_some, Option.map_some, (ParamType.sameIff type other).mp alike]

end Bindings

end WordAbi
