import SetLaws.ElementSet

/-!
# Membership

What each operation on sets does to membership.  Membership does not depend on how
an element is spelled.
-/

namespace SetLaws

namespace Element

/-- Two spellings mean the same element exactly when their normal forms agree. -/
theorem same_iff {a b : Element} : a.same b = true ↔ a.normalized = b.normalized := by
  rw [same, beq_iff_eq, compare_eq_iff]

theorem same_comm (a b : Element) : a.same b = b.same a := by
  rw [Bool.eq_iff_iff, same_iff, same_iff]
  exact eq_comm

/-- Spellings of one element are the same as the same elements. -/
theorem same_congr {a b : Element} (h : a.same b = true) (x : Element) :
    a.same x = b.same x := by
  rw [Bool.eq_iff_iff, same_iff, same_iff, same_iff.mp h]

end Element

namespace ElementSet

theorem contains_congr {a b : Element} (h : a.same b = true) (s : ElementSet) :
    s.contains a = s.contains b := by
  have hab : ∀ x : Element, x.same a = x.same b := fun x => by
    rw [x.same_comm, x.same_comm, Element.same_congr h]
  simp only [contains, hab]

theorem contains_empty (x : Element) : empty.contains x = false := rfl

theorem any_same_place (e x : Element) (xs : List Element) :
    (place e xs).any (·.same x) = (e.same x || xs.any (·.same x)) := by
  induction xs with
  | nil => rfl
  | cons y ys ih =>
    rw [place]
    split
    · rfl
    · next heq =>
      have hey : e.same y = true := by rw [Element.same, heq]; rfl
      rw [List.any_cons, Element.same_congr hey, ← Bool.or_assoc, Bool.or_self]
    · rw [List.any_cons, List.any_cons, ih, Bool.or_left_comm]

theorem contains_insert (s : ElementSet) (e x : Element) :
    (s.insert e).contains x = (e.same x || s.contains x) :=
  any_same_place e x s.toList

theorem contains_insertAll (s : ElementSet) (es : List Element) (x : Element) :
    (s.insertAll es).contains x = (s.contains x || es.any (·.same x)) := by
  induction es generalizing s with
  | nil => rw [insertAll, List.foldl_nil, List.any_nil, Bool.or_false]
  | cons e es ih =>
    have h := ih (s.insert e)
    rw [insertAll] at h
    rw [insertAll, List.foldl_cons, h, contains_insert, List.any_cons, Bool.or_comm (e.same x),
      Bool.or_assoc]

theorem contains_ofList (es : List Element) (x : Element) :
    (ofList es).contains x = es.any (·.same x) := by
  rw [ofList, contains_insertAll, contains_empty, Bool.false_or]

/-- A condition that does not depend on the spelling selects the members that
satisfy it. -/
theorem contains_filter {p : Element → Bool} (hp : ∀ a b, a.same b = true → p a = p b)
    (s : ElementSet) (x : Element) : (s.filter p).contains x = (s.contains x && p x) := by
  rw [contains, contains, filter, List.any_filter, Bool.eq_iff_iff, Bool.and_eq_true,
    List.any_eq_true, List.any_eq_true]
  constructor
  · intro h
    obtain ⟨y, hy, h⟩ := h
    obtain ⟨hpy, hyx⟩ := Bool.and_eq_true_iff.mp h
    exact ⟨⟨y, hy, hyx⟩, hp y x hyx ▸ hpy⟩
  · intro h
    obtain ⟨⟨y, hy, hyx⟩, hpx⟩ := h
    exact ⟨y, hy, Bool.and_eq_true_iff.mpr ⟨(hp y x hyx).symm ▸ hpx, hyx⟩⟩

theorem contains_union (a b : ElementSet) (x : Element) :
    (a.union b).contains x = (a.contains x || b.contains x) :=
  contains_insertAll a b.toList x

theorem contains_inter (a b : ElementSet) (x : Element) :
    (a.inter b).contains x = (a.contains x && b.contains x) := by
  rw [inter]
  split
  · rw [contains_filter (fun _ _ h => contains_congr h a), Bool.and_comm]
  · exact contains_filter (fun _ _ h => contains_congr h b) a x

theorem contains_diff (a b : ElementSet) (x : Element) :
    (a.diff b).contains x = (a.contains x && !b.contains x) :=
  contains_filter (fun _ _ h => congrArg _ (contains_congr h b)) a x

end ElementSet
end SetLaws
