import Mathlib.Data.List.Forall2
import SetLaws.Proofs.ElementSet.Normal

/-!
# Sets in any spelling

What a set has does not depend on how its members are spelled.  The members increase
strictly, so two sets with the same elements agree member by member.
-/

namespace SetLaws
namespace ElementSet

/-- Some member has the same normal form. -/
def Has (s : ElementSet) (x : Element) : Prop :=
  ∃ y ∈ s.toList, y.normalized = x.normalized

/-- The sets have as many members, and those in the same place mean the same. -/
def Same (a b : ElementSet) : Prop :=
  List.Forall₂ (fun x y => x.same y = true) a.toList b.toList

theorem contains_iff_has {s : ElementSet} {x : Element} : s.contains x = true ↔ s.Has x := by
  rw [contains, List.any_eq_true]
  exact exists_congr fun y => and_congr_right fun _ => Element.same_iff

theorem has_iff_mem_map {s : ElementSet} {x : Element} :
    s.Has x ↔ x.normalized ∈ s.toList.map Element.normalized := by
  rw [List.mem_map]
  rfl

section

variable {a b : ElementSet} {x : Element}

theorem has_union : (a.union b).Has x ↔ a.Has x ∨ b.Has x := by
  rw [← contains_iff_has, contains_union, Bool.or_eq_true, contains_iff_has, contains_iff_has]

theorem has_inter : (a.inter b).Has x ↔ a.Has x ∧ b.Has x := by
  rw [← contains_iff_has, contains_inter, Bool.and_eq_true, contains_iff_has, contains_iff_has]

theorem has_diff : (a.diff b).Has x ↔ a.Has x ∧ ¬ b.Has x := by
  rw [← contains_iff_has, contains_diff, Bool.and_eq_true, Bool.not_eq_true', ← Bool.not_eq_true,
    contains_iff_has, contains_iff_has]

theorem same_iff_map_eq :
    a.Same b ↔ a.toList.map Element.normalized = b.toList.map Element.normalized := by
  rw [← List.forall₂_eq_eq_eq, List.forall₂_map_left_iff, List.forall₂_map_right_iff, Same]
  constructor
  · intro h
    exact h.imp fun _ _ => Element.same_iff.mp
  · intro h
    exact h.imp fun _ _ => Element.same_iff.mpr

/-- The normal forms of the members increase as the members do. -/
theorem pairwise_map_normalized (s : ElementSet) :
    (s.toList.map Element.normalized).Pairwise fun x y => compare x y = .lt := by
  refine List.pairwise_map.mpr (s.increasing.imp fun {x y} hxy => ?_)
  show Element.compareSpelled x.normalized.normalized y.normalized.normalized = .lt
  rw [x.normalized_normalized, y.normalized_normalized]
  exact hxy

/-- Sets that have the same elements are the same, member by member. -/
theorem same_iff_has : a.Same b ↔ ∀ x, a.Has x ↔ b.Has x := by
  rw [same_iff_map_eq]
  constructor
  · intro h x
    rw [has_iff_mem_map, h, has_iff_mem_map]
  · intro h
    have hsub : ∀ {s t : ElementSet}, (∀ x, s.Has x → t.Has x) →
        ∀ e ∈ s.toList.map Element.normalized, e ∈ t.toList.map Element.normalized := by
      intro s t hst e he
      obtain ⟨x, hx, rfl⟩ := List.mem_map.mp he
      exact has_iff_mem_map.mp (hst x ⟨x, hx, rfl⟩)
    refine Element.eq_of_increasing a.pairwise_map_normalized b.pairwise_map_normalized ?_
    exact fun e => ⟨hsub (fun x => (h x).mp) e, hsub (fun x => (h x).mpr) e⟩

/-- A set lies inside another one when its members do. -/
theorem forall_has_iff : (∀ x, a.Has x → b.Has x) ↔ a.toList.all b.contains = true := by
  rw [List.all_eq_true]
  constructor
  · intro h x hx
    exact contains_iff_has.mpr (h x ⟨x, hx, rfl⟩)
  · intro h x hx
    obtain ⟨y, hy, hyx⟩ := hx
    obtain ⟨z, hz, hzy⟩ := contains_iff_has.mp (h y hy)
    exact ⟨z, hz, hzy.trans hyx⟩

end

/-- The set has exactly the elements that satisfy a condition, each of them once, in increasing
order. -/
structure Collects (s : ElementSet) (p : Element → Prop) : Prop where
  has_iff (x : Element) : s.Has x ↔ p x
  contains_iff (x : Element) : s.contains x = true ↔ p x
  increasing : s.toList.Pairwise fun x y => compare x y = .lt
  distinct : s.toList.Pairwise fun x y => x.normalized ≠ y.normalized

theorem collects_of_has_iff {s : ElementSet} {p : Element → Prop} (h : ∀ x, s.Has x ↔ p x) :
    s.Collects p where
  has_iff := h
  contains_iff x := contains_iff_has.trans (h x)
  increasing := s.increasing
  distinct := by
    refine s.increasing.imp fun {x y} hxy heq => ?_
    rw [Element.compare_eq_iff.mpr heq] at hxy
    cases hxy

/-! ## The union of many sets

The union has what one of the sets has, so neither the order of the sets nor their repetition
matters.  Only the spelling could tell, and in normal form it does not. -/

section

/-- The members of all sets, spelled as in the first one that has them. -/
def unionAll (sets : List ElementSet) : ElementSet :=
  sets.foldl union empty

variable {x : Element}

theorem has_ofList {es : List Element} :
    (ofList es).Has x ↔ ∃ e ∈ es, e.normalized = x.normalized := by
  rw [← contains_iff_has, contains_ofList, List.any_eq_true]
  exact exists_congr fun e => and_congr_right fun _ => Element.same_iff

theorem has_foldl_union {start : ElementSet} {sets : List ElementSet} :
    (sets.foldl union start).Has x ↔ start.Has x ∨ ∃ s ∈ sets, s.Has x := by
  induction sets generalizing start with
  | nil => simp
  | cons s sets ih => rw [List.foldl_cons, ih, has_union, List.exists_mem_cons_iff, or_assoc]

theorem has_unionAll {sets : List ElementSet} : (unionAll sets).Has x ↔ ∃ s ∈ sets, s.Has x := by
  rw [unionAll, has_foldl_union, or_iff_right]
  rintro ⟨y, hy, -⟩
  exact absurd hy List.not_mem_nil

theorem isNormal_foldl_union {start : ElementSet} {sets : List ElementSet}
    (hstart : start.IsNormal) (hsets : ∀ s ∈ sets, s.IsNormal) :
    (sets.foldl union start).IsNormal := by
  induction sets generalizing start with
  | nil => exact hstart
  | cons s sets ih =>
    rw [List.forall_mem_cons] at hsets
    exact ih (hstart.union hsets.1) hsets.2

theorem isNormal_unionAll {sets : List ElementSet} (h : ∀ s ∈ sets, s.IsNormal) :
    (unionAll sets).IsNormal :=
  isNormal_foldl_union isNormal_empty h

/-- Sets that have the same elements are stored as the same set. -/
theorem normalized_congr {a b : ElementSet} (h : ∀ x, a.Has x ↔ b.Has x) :
    a.normalized = b.normalized := by
  rw [normalized, normalized, same_iff_map_eq.mp (same_iff_has.mpr h)]

end

end ElementSet
end SetLaws
