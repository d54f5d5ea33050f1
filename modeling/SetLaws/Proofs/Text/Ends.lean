import Mathlib.Data.List.DropRight
import Mathlib.Data.List.TakeWhile
import SetLaws.Text

/-!
# The ends of a text

A text that starts with characters of a class comes apart where the class ends.  What is left of a
text without the blanks at its ends has no blanks at its ends.
-/

namespace SetLaws
namespace Text

/-! ## The part in front -/

section

variable {cs rest : List Char} {p : Char → Bool}

theorem takeWhile_append_eq (h : ∀ d ∈ cs, p d = true) (hrest : ∀ d ∈ rest.head?, p d = false) :
    (cs ++ rest).takeWhile p = cs := by
  rw [List.takeWhile_append_of_pos h]
  cases rest with
  | nil => rw [List.takeWhile_nil, List.append_nil]
  | cons d rest => rw [List.takeWhile_cons_of_neg (by simp [hrest d rfl]), List.append_nil]

theorem dropWhile_append_eq (h : ∀ d ∈ cs, p d = true) (hrest : ∀ d ∈ rest.head?, p d = false) :
    (cs ++ rest).dropWhile p = rest := by
  rw [List.dropWhile_append_of_pos h]
  cases rest with
  | nil => rfl
  | cons d rest => rw [List.dropWhile_cons_of_neg (by simp [hrest d rfl])]

variable (cs p)

theorem take_length_takeWhile : cs.take (cs.takeWhile p).length = cs.takeWhile p :=
  (List.prefix_iff_eq_take.mp (List.takeWhile_prefix p)).symm

theorem drop_length_takeWhile : cs.drop (cs.takeWhile p).length = cs.dropWhile p := by
  have happend : cs.takeWhile p ++ cs.drop (cs.takeWhile p).length =
      cs.takeWhile p ++ cs.dropWhile p := by
    rw [List.takeWhile_append_dropWhile, ← take_length_takeWhile, List.length_take_of_le]
    · exact List.take_append_drop _ _
    · exact (List.takeWhile_prefix p).length_le
  exact List.append_cancel_left happend

/-- The character after the longest part in a class is not in the class. -/
theorem head?_drop_length_takeWhile :
    ∀ d ∈ (cs.drop (cs.takeWhile p).length).head?, p d = false := by
  intro d hd
  rw [drop_length_takeWhile] at hd
  have hnot := List.head?_dropWhile_not p cs
  rw [hd] at hnot
  exact hnot

end

/-! ## Trimming -/

variable {before after cs : List Char}

theorem trimChars_eq (cs : List Char) :
    trimChars cs = (cs.dropWhile isBlank).rdropWhile isBlank := rfl

theorem trimChars_sublist (cs : List Char) : (trimChars cs).Sublist cs := by
  rw [trimChars_eq]
  exact (List.rdropWhile_prefix isBlank _).sublist.trans (List.dropWhile_sublist isBlank)

theorem trimChars_trimChars (cs : List Char) : trimChars (trimChars cs) = trimChars cs := by
  have hprefix := List.rdropWhile_prefix isBlank (cs.dropWhile isBlank)
  -- The blanks at the end go without uncovering one at the start.
  have hstart : (trimChars cs).dropWhile isBlank = trimChars cs := by
    rw [List.dropWhile_eq_self_iff]
    intro hpos
    have hpos' : 0 < (cs.dropWhile isBlank).length := Nat.lt_of_lt_of_le hpos hprefix.length_le
    have hfirst : (trimChars cs)[0] = (cs.dropWhile isBlank)[0] := hprefix.getElem hpos
    rw [hfirst]
    exact List.dropWhile_eq_self_iff.mp (List.dropWhile_idempotent isBlank cs) hpos'
  rw [trimChars_eq (trimChars cs), hstart, trimChars_eq, List.rdropWhile_idempotent]

/-- Where there is no blank at all there is nothing to drop. -/
theorem trimChars_eq_self (h : ∀ c ∈ cs, isBlank c = false) : trimChars cs = cs := by
  have hstart : cs.dropWhile isBlank = cs := by
    rw [List.dropWhile_eq_self_iff]
    intro hpos
    rw [h _ (List.getElem_mem hpos)]
    exact Bool.false_ne_true
  rw [trimChars_eq, hstart, List.rdropWhile_eq_self_iff]
  intro hne
  rw [h _ (List.getLast_mem hne)]
  exact Bool.false_ne_true

/-- Blanks around a text make no difference. -/
theorem trimChars_append (hbefore : ∀ c ∈ before, isBlank c = true)
    (hafter : ∀ c ∈ after, isBlank c = true) :
    trimChars (before ++ cs ++ after) = trimChars cs := by
  have hstart : (before ++ cs ++ after).dropWhile isBlank = (cs ++ after).dropWhile isBlank := by
    rw [List.append_assoc, List.dropWhile_append_of_pos hbefore]
  rw [trimChars_eq, trimChars_eq, hstart, List.dropWhile_append]
  split
  · next hcs =>
    rw [List.isEmpty_iff] at hcs
    rw [hcs, List.dropWhile_eq_nil_iff.mpr hafter]
  · rw [List.rdropWhile, List.reverse_append, List.dropWhile_append_of_pos, List.rdropWhile]
    exact fun c hc => hafter c (List.mem_reverse.mp hc)

example : trim "\t\u00a0a b\u3000\n" = "a b" := by decide +kernel

/-- Only from blanks nothing is left. -/
theorem trimChars_eq_nil_iff : trimChars cs = [] ↔ ∀ c ∈ cs, isBlank c = true := by
  rw [trimChars_eq, List.rdropWhile_eq_nil_iff]
  constructor
  · intro h
    rw [← List.dropWhile_eq_nil_iff] at h ⊢
    rw [← List.dropWhile_idempotent isBlank cs]
    exact h
  · intro h c hc
    exact h c ((List.dropWhile_sublist isBlank).mem hc)

theorem toList_trim (s : String) : (trim s).toList = trimChars s.toList :=
  String.toList_ofList

theorem isEmpty_trim_ofList (cs : List Char) :
    (trim (String.ofList cs)).isEmpty = cs.all isBlank := by
  rw [Bool.eq_iff_iff, String.isEmpty_iff, ← String.toList_eq_nil_iff, toList_trim,
    String.toList_ofList, trimChars_eq_nil_iff, List.all_eq_true]

end Text
end SetLaws
