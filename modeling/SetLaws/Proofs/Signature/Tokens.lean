import SetLaws.Proofs.Text.Ends
import SetLaws.Signature.Text
import SetLaws.Text

/-!
# The tokens of a text

The tokens of a text make up the text.  A piece that scans as one token wherever the text
goes on after it is split off as that token.
-/

namespace SetLaws
namespace Signature

section Characters

variable {c : Char}

/-- The characters of names lie between `0` and `z`. -/
theorem toNat_of_isNameRest (h : isNameRest c = true) : 48 ≤ c.toNat ∧ c.toNat ≤ 122 := by
  have hclass : (decide (c.val ≥ 'A'.val ∧ c.val ≤ 'Z'.val) ||
      (decide (c.val ≥ 'a'.val) && decide (c.val ≤ 'z'.val)) ||
      (decide (c.val ≥ 48) && decide (c.val ≤ 57)) || decide (c = '_')) = true := h
  simp only [Bool.or_eq_true, Bool.and_eq_true, decide_eq_true_eq, ge_iff_le,
    UInt32.le_iff_toNat_le] at hclass
  show 48 ≤ c.val.toNat ∧ c.val.toNat ≤ 122
  rcases hclass with ((⟨hlow, hhigh⟩ | ⟨hlow, hhigh⟩) | ⟨hlow, hhigh⟩) | rfl
  · exact ⟨Nat.le_trans (by decide) hlow, Nat.le_trans hhigh (by decide)⟩
  · exact ⟨Nat.le_trans (by decide) hlow, Nat.le_trans hhigh (by decide)⟩
  · exact ⟨Nat.le_trans (by decide) hlow, Nat.le_trans hhigh (by decide)⟩
  · decide

theorem isBlank_eq_false_of_isNameRest (h : isNameRest c = true) : Text.isBlank c = false := by
  have hbounds := toNat_of_isNameRest h
  simp only [Text.isBlank, Bool.or_eq_false_iff, Bool.and_eq_false_iff, decide_eq_false_iff_not,
    beq_eq_false_iff_ne]
  omega

theorem isBrace_eq_false_of_isNameRest (h : isNameRest c = true) : isBrace c = false := by
  cases hc : isBrace c with
  | false => rfl
  | true =>
    simp only [isBrace, Bool.or_eq_true, decide_eq_true_eq] at hc
    rcases hc with rfl | rfl <;> exact absurd h (by decide)

theorem isNameRest_of_isNameStart (h : isNameStart c = true) : isNameRest c = true := by
  simp only [isNameStart, isNameRest, Char.isAlphanum, Bool.or_eq_true] at h ⊢
  exact h.imp_left Or.inl

theorem isSeparator_eq_false_of_isNameRest (h : isNameRest c = true) :
    isSeparator c = false := by
  cases hc : isSeparator c with
  | false => rfl
  | true =>
    simp only [isSeparator, Bool.or_eq_true, decide_eq_true_eq] at hc
    rcases hc with ((rfl | rfl) | rfl) | rfl <;> exact absurd h (by decide)

theorem isSeparator_eq_false_of_isNameStart (h : isNameStart c = true) :
    isSeparator c = false :=
  isSeparator_eq_false_of_isNameRest (isNameRest_of_isNameStart h)

end Characters

theorem split_nil (start : Nat) : split start [] = [] := by
  rw [split]

/-- Nothing of a text is lost between its tokens. -/
theorem flatMap_lexeme_split (start : Nat) (cs : List Char) :
    (split start cs).flatMap (·.lexeme.toList) = cs := by
  fun_induction split start cs with
  | case1 => rfl
  | case2 start c cs found token ih =>
    rw [List.flatMap_cons, ih]
    show (String.ofList _).toList ++ _ = _
    rw [String.toList_ofList, List.cons_append, List.take_append_drop]

/-- Every token comes from a scan. -/
theorem exists_scan_of_mem_split {start : Nat} {cs : List Char} {t : Token}
    (h : t ∈ split start cs) :
    ∃ c ds, t.kind = (scan c ds).1 ∧ t.lexeme = String.ofList (c :: ds.take (scan c ds).2) := by
  fun_induction split start cs with
  | case1 => exact absurd h List.not_mem_nil
  | case2 start c cs found token ih =>
    rcases List.mem_cons.mp h with rfl | h
    · exact ⟨c, cs, rfl, rfl⟩
    · exact ih h

/-- A piece that scans as one token is split off. -/
theorem exists_split_of_scan {c : Char} {cs rest : List Char} {kind : TokenKind} (start : Nat)
    (h : scan c (cs ++ rest) = (kind, cs.length)) :
    ∃ stop, split start (c :: (cs ++ rest)) =
      ⟨kind, start, String.ofList (c :: cs)⟩ :: split stop rest := by
  rw [split, h, List.take_left, List.drop_left]
  exact ⟨_, rfl⟩

/-- A character that scans as a token is split off. -/
theorem exists_split_of_scan_zero {c : Char} {rest : List Char} {kind : TokenKind} (start : Nat)
    (h : scan c rest = (kind, 0)) :
    ∃ stop, split start (c :: rest) = ⟨kind, start, String.ofList [c]⟩ :: split stop rest := by
  rw [split, h, List.take_zero, List.drop_zero]
  exact ⟨_, rfl⟩

section Scan

variable {c : Char} {cs rest : List Char}

/-- A word ends where no letter, digit or underscore follows. -/
theorem scan_word (hc : isNameStart c = true) (hcs : ∀ d ∈ cs, isNameRest d = true)
    (hrest : ∀ d ∈ rest.head?, isNameRest d = false) :
    scan c (cs ++ rest) = (wordKind (c :: cs), cs.length) := by
  rw [scan, if_neg (by simp [isSeparator_eq_false_of_isNameStart hc]), if_pos hc]
  simp only [Text.takeWhile_append_eq hcs hrest]

/-- Without a brace inside, the first closing brace ends a token. -/
theorem scan_braced {inside : List Char} (h : ∀ d ∈ inside, isBrace d = false) :
    scan '\x7b' (inside ++ ['\x7d'] ++ rest) = (.braced, (inside ++ ['\x7d']).length) := by
  have htake : (inside ++ ['\x7d'] ++ rest).takeWhile (fun d => !isBrace d) = inside := by
    rw [List.append_assoc]
    refine Text.takeWhile_append_eq (fun d hd => by simp [h d hd]) ?_
    intro d hd
    cases hd
    rfl
  have hdrop : (inside ++ ['\x7d'] ++ rest).drop inside.length = '\x7d' :: rest := by
    rw [List.append_assoc, List.drop_left]
    rfl
  rw [scan, if_neg (by decide), if_neg (by decide), if_pos rfl]
  simp only [htake, hdrop]
  rw [List.head?_cons, if_pos rfl, List.length_append]
  rfl

/-- A blank before no other blank is a token of its own. -/
theorem scan_space (hrest : ∀ d ∈ rest.head?, isSeparator d = false) :
    scan ' ' rest = (.blank, 0) := by
  have htake : ([] ++ rest).takeWhile isSeparator = [] :=
    Text.takeWhile_append_eq (fun d hd => absurd hd List.not_mem_nil) hrest
  rw [List.nil_append] at htake
  rw [scan, if_pos (by decide), htake]
  rfl

end Scan

end Signature
end SetLaws
