import Mathlib.Data.Finset.SDiff
import SetLaws.Proofs.Element.Normal

/-!
# Sets of normal elements

Where all members are normal, membership is literal, so the operations on sets are
those on finite sets of elements.
-/

namespace SetLaws
namespace ElementSet

/-- Every member is spelled in its preferred form. -/
def IsNormal (s : ElementSet) : Prop :=
  ∀ e ∈ s.toList, e.IsNormal

theorem isNormal_empty : empty.IsNormal := fun _ h => absurd h List.not_mem_nil

theorem IsNormal.insert {s : ElementSet} (hs : s.IsNormal) {e : Element} (he : e.IsNormal) :
    (s.insert e).IsNormal := by
  intro y hy
  rcases eq_or_mem_of_mem_place hy with rfl | hy
  · exact he
  · exact hs y hy

theorem IsNormal.insertAll {s : ElementSet} (hs : s.IsNormal) {es : List Element}
    (hes : ∀ e ∈ es, e.IsNormal) : (s.insertAll es).IsNormal := by
  induction es generalizing s with
  | nil => exact hs
  | cons e es ih =>
    exact ih (hs.insert (hes e List.mem_cons_self)) fun y hy => hes y (List.mem_cons_of_mem e hy)

theorem isNormal_ofList {es : List Element} (hes : ∀ e ∈ es, e.IsNormal) :
    (ofList es).IsNormal :=
  isNormal_empty.insertAll hes

theorem IsNormal.filter {s : ElementSet} (hs : s.IsNormal) (p : Element → Bool) :
    (s.filter p).IsNormal := fun e he => hs e (List.mem_filter.mp he).1

theorem IsNormal.union {a b : ElementSet} (ha : a.IsNormal) (hb : b.IsNormal) :
    (a.union b).IsNormal :=
  ha.insertAll hb

theorem IsNormal.inter {a b : ElementSet} (ha : a.IsNormal) (hb : b.IsNormal) :
    (a.inter b).IsNormal := by
  rw [ElementSet.inter]
  split
  · exact hb.filter _
  · exact ha.filter _

theorem IsNormal.diff {a : ElementSet} (ha : a.IsNormal) (b : ElementSet) :
    (a.diff b).IsNormal :=
  ha.filter _

theorem isNormal_normalized (s : ElementSet) : s.normalized.IsNormal := by
  refine isNormal_ofList fun e he => ?_
  obtain ⟨x, _, rfl⟩ := List.mem_map.mp he
  exact x.isNormal_normalized

/-- The members as a finite set. -/
def members (s : ElementSet) : Finset Element :=
  s.toList.toFinset

theorem mem_members_iff {s : ElementSet} {e : Element} : e ∈ s.members ↔ e ∈ s.toList :=
  List.mem_toFinset

/-- An element set is determined by its members, as they stand in order. -/
theorem members_injective {a b : ElementSet} (h : a.members = b.members) : a = b := by
  have hlist : a.toList = b.toList := by
    refine Element.eq_of_increasing a.increasing b.increasing fun e => ?_
    rw [← mem_members_iff, ← mem_members_iff, h]
  cases a
  cases b
  exact (mk.injEq ..).mpr hlist

/-- A normal set has exactly the normal elements that are in it in any spelling. -/
theorem IsNormal.mem_members_iff {s : ElementSet} (hs : s.IsNormal) {e : Element} :
    e ∈ s.members ↔ e.IsNormal ∧ s.contains e = true := by
  rw [ElementSet.mem_members_iff, contains, List.any_eq_true]
  constructor
  · intro he
    exact ⟨hs e he, e, he, e.same_refl⟩
  · intro h
    obtain ⟨he, x, hx, hxe⟩ := h
    obtain rfl := ((hs x hx).same_iff he).mp hxe
    exact hx

theorem IsNormal.members_union {a b : ElementSet} (ha : a.IsNormal) (hb : b.IsNormal) :
    (a.union b).members = a.members ∪ b.members := by
  ext e
  rw [Finset.mem_union, (ha.union hb).mem_members_iff, ha.mem_members_iff, hb.mem_members_iff,
    contains_union, Bool.or_eq_true, and_or_left]

theorem IsNormal.members_inter {a b : ElementSet} (ha : a.IsNormal) (hb : b.IsNormal) :
    (a.inter b).members = a.members ∩ b.members := by
  ext e
  rw [Finset.mem_inter, (ha.inter hb).mem_members_iff, ha.mem_members_iff, hb.mem_members_iff,
    contains_inter, Bool.and_eq_true, and_and_left]

theorem IsNormal.members_diff {a b : ElementSet} (ha : a.IsNormal) (hb : b.IsNormal) :
    (a.diff b).members = a.members \ b.members := by
  ext e
  rw [Finset.mem_sdiff, (ha.diff b).mem_members_iff, ha.mem_members_iff, hb.mem_members_iff,
    contains_diff, Bool.and_eq_true, Bool.not_eq_true', ← Bool.not_eq_true]
  constructor
  · intro h
    obtain ⟨he, hea, heb⟩ := h
    exact ⟨⟨he, hea⟩, fun h => heb h.2⟩
  · intro h
    obtain ⟨⟨he, hea⟩, heb⟩ := h
    exact ⟨he, hea, fun h => heb ⟨he, h⟩⟩

/-- A normal set is stored as it is. -/
theorem IsNormal.normalized_eq {s : ElementSet} (hs : s.IsNormal) : s.normalized = s := by
  refine members_injective ?_
  ext e
  rw [(isNormal_normalized s).mem_members_iff, hs.mem_members_iff, normalized, contains_ofList,
    List.map_congr_left hs, List.map_id', contains]

end ElementSet
end SetLaws
