import SetLaws.Text

/-!
# Single edits

The edit distance is computed from the distances of shorter texts.  It is the least number of
single edits, made one after the other anywhere in a text, that lead from the one text to the
other.
-/

namespace SetLaws
namespace Text

/-- One character is inserted, deleted or replaced by another one. -/
inductive Edit : List Char → List Char → Prop where
  | insert (front : List Char) (c : Char) (back : List Char) :
      Edit (front ++ back) (front ++ c :: back)
  | delete (front : List Char) (c : Char) (back : List Char) :
      Edit (front ++ c :: back) (front ++ back)
  | replace (front : List Char) {c d : Char} (h : c ≠ d) (back : List Char) :
      Edit (front ++ c :: back) (front ++ d :: back)

/-- A number of edits, made one after the other. -/
inductive Edits : Nat → List Char → List Char → Prop where
  | none (xs : List Char) : Edits 0 xs xs
  | more {n : Nat} {xs ys zs : List Char} (h : Edit xs ys) (hs : Edits n ys zs) :
      Edits (n + 1) xs zs

section

variable {n : Nat} {xs ys : List Char}

theorem Edit.symm (h : Edit xs ys) : Edit ys xs := by
  cases h with
  | insert front c back => exact .delete front c back
  | delete front c back => exact .insert front c back
  | replace front h back => exact .replace front h.symm back

theorem Edit.cons (c : Char) (h : Edit xs ys) : Edit (c :: xs) (c :: ys) := by
  cases h with
  | insert front d back => exact .insert (c :: front) d back
  | delete front d back => exact .delete (c :: front) d back
  | replace front h back => exact .replace (c :: front) h back

theorem Edits.cons (c : Char) (h : Edits n xs ys) : Edits n (c :: xs) (c :: ys) := by
  induction h with
  | none xs => exact .none (c :: xs)
  | more h _ ih => exact .more (h.cons c) ih

theorem edits_zero_iff : Edits 0 xs ys ↔ xs = ys := by
  constructor
  · intro h
    cases h
    rfl
  · intro h
    rw [h]
    exact .none ys

theorem edits_one_iff : Edits 1 xs ys ↔ Edit xs ys := by
  constructor
  · intro h
    cases h with
    | more h hs =>
      rw [edits_zero_iff] at hs
      rwa [← hs]
  · intro h
    exact .more h (.none ys)

end

/-! ## Distances of shorter texts -/

/-- The edit distance of two lists of characters. -/
def distance (xs ys : List Char) : Nat :=
  (tailDistances xs ys).headD 0

section

variable (x y : Char) (xs ys zs : List Char)

theorem tailDistances_nil_right : tailDistances xs [] = [xs.length] := by
  induction xs with
  | nil => rfl
  | cons x xs ih =>
    rw [tailDistances, ih]
    rfl

/-- Behind the distance to the whole text come those to the tails of the rest. -/
theorem tailDistances_cons_right :
    tailDistances xs (y :: ys) = distance xs (y :: ys) :: tailDistances xs ys := by
  induction xs with
  | nil => rfl
  | cons x xs ih =>
    rw [distance, tailDistances, ih]
    rfl

theorem distance_nil_left : distance [] ys = ys.length := by
  cases ys <;> rfl

theorem distance_nil_right : distance xs [] = xs.length := by
  rw [distance, tailDistances_nil_right, List.headD_cons]

theorem distance_cons_cons :
    distance (x :: xs) (y :: ys) =
      min (min (distance xs (y :: ys) + 1) (distance (x :: xs) ys + 1))
        (distance xs ys + if x = y then 0 else 1) := by
  rw [distance, tailDistances, tailDistances_cons_right]
  rfl

theorem distance_cons_left_le : distance (x :: xs) ys ≤ distance xs ys + 1 := by
  cases ys with
  | nil => simp only [distance_nil_right, List.length_cons, Nat.le_refl]
  | cons y ys =>
    rw [distance_cons_cons]
    omega

theorem distance_cons_right_le : distance xs (y :: ys) ≤ distance xs ys + 1 := by
  cases xs with
  | nil => simp only [distance_nil_left, List.length_cons, Nat.le_refl]
  | cons x xs =>
    rw [distance_cons_cons]
    omega

theorem distance_le_cons_left : distance xs ys ≤ distance (x :: xs) ys + 1 := by
  induction ys with
  | nil =>
    simp only [distance_nil_right, List.length_cons]
    omega
  | cons y ys ih =>
    have hright := distance_cons_right_le y xs ys
    rw [distance_cons_cons]
    omega

/-- The first characters do not matter beyond one edit. -/
theorem distance_cons_left_le_cons_left :
    distance (x :: xs) zs ≤ distance (y :: xs) zs + 1 := by
  induction zs with
  | nil => simp only [distance_nil_right, List.length_cons, Nat.le_succ]
  | cons z zs ih =>
    rw [distance_cons_cons, distance_cons_cons y]
    split <;> omega

end

section

variable {n : Nat} {xs ys : List Char}

/-- What is in front of an edit does not add to the difference that it makes. -/
theorem distance_cons_le_of_forall (c : Char) (h : ∀ zs, distance xs zs ≤ distance ys zs + 1)
    (zs : List Char) : distance (c :: xs) zs ≤ distance (c :: ys) zs + 1 := by
  induction zs with
  | nil =>
    have hlength := h []
    simp only [distance_nil_right, List.length_cons] at hlength ⊢
    omega
  | cons z zs ih =>
    have hwhole := h (z :: zs)
    have hrest := h zs
    rw [distance_cons_cons, distance_cons_cons]
    omega

theorem distance_append_le_of_forall (front : List Char)
    (h : ∀ zs, distance xs zs ≤ distance ys zs + 1) :
    ∀ zs, distance (front ++ xs) zs ≤ distance (front ++ ys) zs + 1 := by
  induction front with
  | nil => exact h
  | cons c front ih => exact distance_cons_le_of_forall c ih

/-- An edit changes the distance to any text by one at most. -/
theorem distance_le_of_edit (h : Edit xs ys) (zs : List Char) :
    distance xs zs ≤ distance ys zs + 1 := by
  cases h with
  | insert front c back =>
    exact distance_append_le_of_forall front (distance_le_cons_left c back) zs
  | delete front c back =>
    exact distance_append_le_of_forall front (distance_cons_left_le c back) zs
  | @replace front c d _ back =>
    exact distance_append_le_of_forall front (distance_cons_left_le_cons_left c d back) zs

theorem distance_self (xs : List Char) : distance xs xs = 0 := by
  induction xs with
  | nil => rfl
  | cons x xs ih =>
    rw [distance_cons_cons, ih, if_pos rfl]
    omega

theorem distance_le_of_edits (h : Edits n xs ys) : distance xs ys ≤ n := by
  induction h with
  | none xs => exact Nat.le_of_eq (distance_self xs)
  | @more n xs ys zs h _ ih =>
    have hfirst := distance_le_of_edit h zs
    omega

end

/-- As many edits as the distance says lead from the one text to the other. -/
theorem edits_distance : (xs ys : List Char) → Edits (distance xs ys) xs ys
  | [], [] => .none []
  | [], y :: ys => by
    have hrest := edits_distance [] ys
    rw [distance_nil_left] at hrest ⊢
    exact .more (.insert [] y []) (hrest.cons y)
  | x :: xs, [] => by
    have hrest := edits_distance xs []
    rw [distance_nil_right] at hrest ⊢
    exact .more (.delete [] x xs) hrest
  | x :: xs, y :: ys => by
    have hdelete : Edits (distance xs (y :: ys) + 1) (x :: xs) (y :: ys) :=
      .more (.delete [] x xs) (edits_distance xs (y :: ys))
    have hinsert : Edits (distance (x :: xs) ys + 1) (x :: xs) (y :: ys) :=
      .more (.insert [] y (x :: xs)) ((edits_distance (x :: xs) ys).cons y)
    have hreplace : Edits (distance xs ys + if x = y then 0 else 1) (x :: xs) (y :: ys) := by
      have hrest := (edits_distance xs ys).cons y
      by_cases hxy : x = y
      · rw [if_pos hxy, hxy]
        exact hrest
      · rw [if_neg hxy]
        exact .more (.replace [] hxy xs) hrest
    have hleast : distance (x :: xs) (y :: ys) = distance xs (y :: ys) + 1 ∨
        distance (x :: xs) (y :: ys) = distance (x :: xs) ys + 1 ∨
        distance (x :: xs) (y :: ys) = distance xs ys + if x = y then 0 else 1 := by
      rw [distance_cons_cons]
      omega
    rcases hleast with h | h | h <;> rwa [h]

/-- The edit distance is the least number of edits. -/
theorem editDistance_le_iff {a b : String} {n : Nat} :
    editDistance a b ≤ n ↔ ∃ m ≤ n, Edits m a.toList b.toList := by
  constructor
  · intro h
    exact ⟨_, h, edits_distance a.toList b.toList⟩
  · rintro ⟨m, hm, h⟩
    exact Nat.le_trans (distance_le_of_edits h) hm

/-- Similar texts are equal or an edit apart. -/
theorem similar_iff {a b : String} : similar a b = true ↔ a = b ∨ Edit b.toList a.toList := by
  have hone : similar a b = true ↔ editDistance a b ≤ 1 := by
    rw [similar, decide_eq_true_eq, Nat.lt_succ_iff]
  rw [hone, editDistance_le_iff]
  constructor
  · rintro ⟨m, hm, h⟩
    have hcases : m = 0 ∨ m = 1 := by omega
    rcases hcases with rfl | rfl
    · exact Or.inl (String.toList_inj.mp (edits_zero_iff.mp h))
    · exact Or.inr (edits_one_iff.mp h).symm
  · rintro (rfl | h)
    · exact ⟨0, Nat.zero_le 1, .none _⟩
    · exact ⟨1, Nat.le_refl 1, edits_one_iff.mpr h.symm⟩

end Text
end SetLaws
