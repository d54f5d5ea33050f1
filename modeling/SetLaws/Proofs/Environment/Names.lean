import Mathlib.Data.Finset.Dedup
import Mathlib.Data.Finset.Insert
import SetLaws.Environment
import SetLaws.Proofs.Text.Edit

/-!
# Names of sets

The names of the stored sets increase strictly, so each of them stands once among the names that
are suggested for another one.
-/

namespace SetLaws

namespace NamedSets

theorem mem_names_iff {s : NamedSets} {name : String} :
    name ∈ s.names ↔ s.contains name = true := by
  rw [contains, find?, Option.isSome_iff_ne_none, ne_eq, List.lookup_eq_none_iff, names,
    List.mem_map]
  simp only [bne_iff_ne, ne_eq, not_forall, not_not, exists_prop]
  exact exists_congr fun p => and_congr_right fun _ => eq_comm

theorem pairwise_names (s : NamedSets) : s.names.Pairwise (· < ·) :=
  List.pairwise_map.mpr s.increasing

theorem contains_insert (s : NamedSets) (name other : String) (set : ElementSet) :
    (s.insert name set).contains other = true ↔ other = name ∨ s.contains other = true := by
  rw [contains, find?_insert]
  split
  · next h => exact iff_of_true rfl (Or.inl h)
  · next h => exact (or_iff_right h).symm

theorem toFinset_names_insert (s : NamedSets) (name : String) (set : ElementSet) :
    (s.insert name set).names.toFinset = Insert.insert name s.names.toFinset := by
  ext other
  rw [Finset.mem_insert, List.mem_toFinset, List.mem_toFinset, mem_names_iff, mem_names_iff,
    contains_insert]

theorem contains_eq_false_iff {s : NamedSets} {name : String} :
    s.contains name = false ↔ s.find? name = none := by
  rw [contains, Option.isSome_eq_false_iff, Option.isNone_iff_eq_none]

end NamedSets

namespace Environment

variable {env : Environment} {name : String}

/-- A suggestion is the name of a stored set that an edit at most separates from the given name. -/
theorem mem_similarNames_iff {other : String} :
    other ∈ env.similarNames name ↔
      env.sets.contains other = true ∧ (other = name ∨ Text.Edit name.toList other.toList) := by
  rw [similarNames, List.mem_filter, NamedSets.mem_names_iff, Text.similar_iff]

theorem lookup_eq_ok_iff {set : ElementSet} :
    env.lookup name = .ok set ↔ env.sets.find? name = some set := by
  rw [lookup]
  cases env.sets.find? name with
  | some found => simp only [Except.ok.injEq, Option.some.injEq]
  | none => simp only [reduceCtorEq]

theorem lookup_eq_error_iff {fault : Fault} :
    env.lookup name = .error fault ↔
      env.sets.contains name = false ∧ fault = .undefinedSet name (env.similarNames name) := by
  rw [NamedSets.contains_eq_false_iff, lookup]
  cases env.sets.find? name with
  | some found => simp only [reduceCtorEq, false_and]
  | none => simp only [Except.error.injEq, true_and, eq_comm]

/-- The names similar to a given one are, in strictly increasing order, those of stored sets that
are equal to it or one edit away.  A name is looked up to its set, or fails with the names similar
to it, and then it is none of them itself. -/
theorem similarNames_lists (env : Environment) (name : String) :
    (env.similarNames name).Pairwise (· < ·) ∧
    (∀ other, other ∈ env.similarNames name ↔
      env.sets.contains other = true ∧ (other = name ∨ Text.Edit name.toList other.toList)) ∧
    (∀ set, env.lookup name = .ok set ↔ env.sets.find? name = some set) ∧
    (∀ fault, env.lookup name = .error fault ↔
      env.sets.contains name = false ∧ fault = .undefinedSet name (env.similarNames name)) ∧
    (env.sets.contains name = false ↔ name ∉ env.similarNames name) := by
  refine ⟨env.sets.pairwise_names.filter _, fun _ => mem_similarNames_iff,
    fun _ => lookup_eq_ok_iff, fun _ => lookup_eq_error_iff, ?_⟩
  rw [mem_similarNames_iff, ← Bool.not_eq_true]
  simp only [true_or, and_true]

example : ((initial.define "Z" .empty).2.define "AB" .empty).2.lookup "A" =
    .error (.undefinedSet "A" ["AB", "Z"]) := by
  decide +kernel

end Environment
end SetLaws
