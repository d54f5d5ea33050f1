import SetLaws.Evaluation
import SetLaws.Proofs.Text.Integer

/-!
# Literals

An integer means one element, whether it is given as such or as a text, and whatever the kind of
the literal that holds the text.  The kind makes a difference for a text with an integer between
blanks, and for no other.
-/

namespace SetLaws

open Text

namespace Element

/-- A text that reads as an integer means the element of that integer. -/
theorem ofText_of_readInt64 {s : String} {n : Int64} (h : readInt64 s = some n) :
    ofText s = ofInt n := by
  unfold ofText
  split
  · next c hc =>
    -- The text is taken as a character, so the integer has to be the digit that it is.
    rw [readInt64_eq_some_iff, hc] at h
    obtain ⟨hdigit, hn⟩ := (signed_of_readSigned h).isDigit_of_singleton
    rw [Char.isDigit_iff_toNat] at hdigit
    have h0 : '0'.toNat = 48 := rfl
    have h9 : '9'.toNat = 57 := rfl
    have hone : 0 ≤ n ∧ n ≤ 9 := by
      have hlow : (0 : Int64).toInt = 0 := rfl
      have hhigh : (9 : Int64).toInt = 9 := rfl
      rw [Int64.le_iff_toInt_le, Int64.le_iff_toInt_le]
      omega
    have hcode : '0'.toNat + n.toInt.toNat = c.toNat := by omega
    rw [ofInt, if_pos hone, digit, hcode, Char.ofNat_toNat]
  · rw [h]

theorem ofInt_ne_text (n : Int64) (s : String) : ofInt n ≠ text s := by
  intro h
  unfold ofInt at h
  split at h <;> cases h

end Element

namespace LiteralKind

variable {value : String}

theorem element_of_readInt64 {n : Int64} (h : readInt64 value = some n) (kind : LiteralKind) :
    kind.element value = .ofInt n := by
  cases kind with
  | integer => rw [element, trim_eq_self_of_readSigned (readInt64_eq_some_iff.mp h), h]
  | letter | symbol | text => exact Element.ofText_of_readInt64 h

theorem element_toString (n : Int64) (kind : LiteralKind) :
    kind.element (toString n.toInt) = .ofInt n :=
  element_of_readInt64 (readInt64_toString n) kind

/-- An integer literal can have blanks around its text. -/
theorem element_integer_of_blanks {before after : String} {n : Int64}
    (hbefore : ∀ c ∈ before.toList, isBlank c = true)
    (hafter : ∀ c ∈ after.toList, isBlank c = true) (h : readInt64 value = some n) :
    integer.element (before ++ value ++ after) = .ofInt n := by
  have htrim : trim (before ++ value ++ after) = value := by
    rw [trim, String.toList_append, String.toList_append, trimChars_append hbefore hafter]
    exact trim_eq_self_of_readSigned (readInt64_eq_some_iff.mp h)
  rw [element, htrim, h]

theorem element_eq_ofText (h : trim value = value ∨ readInt64 (trim value) = none)
    (kind : LiteralKind) : kind.element value = .ofText value := by
  cases kind with
  | integer =>
    rw [element]
    split
    · next n hread =>
      have hsome : readInt64 (trim value) ≠ none := hread ▸ Option.some_ne_none n
      have htrim : trim value = value := h.resolve_right hsome
      rw [htrim] at hread
      exact (Element.ofText_of_readInt64 hread).symm
    · rfl
  | letter | symbol | text => rfl

/-- With the blanks around it, an integer is a text like any other. -/
theorem ofText_eq_text {n : Int64} (htrim : trim value ≠ value)
    (hread : readInt64 (trim value) = some n) : Element.ofText value = .text value := by
  unfold Element.ofText
  split
  · next c hc =>
    have hblank : isBlank c = true := by
      by_contra hblank
      refine htrim ?_
      rw [trim, hc, trimChars_eq_self (by simpa using hblank), ← hc, String.ofList_toList]
    have hempty : trimChars value.toList = [] := by
      rw [hc, trimChars_eq_nil_iff, List.forall_mem_singleton]
      exact hblank
    rw [readInt64_eq_some_iff, toList_trim, hempty] at hread
    cases hread
  · split
    · next m hm => exact absurd (trim_eq_self_of_readSigned (readInt64_eq_some_iff.mp hm)) htrim
    · rfl

theorem exists_element_eq_iff :
    (∃ e, ∀ kind : LiteralKind, kind.element value = e) ↔
      trim value = value ∨ readInt64 (trim value) = none := by
  refine ⟨fun h => ?_, fun h => ⟨_, element_eq_ofText h⟩⟩
  obtain ⟨e, he⟩ := h
  by_contra hnot
  rw [not_or, ← ne_eq, ← ne_eq, Option.ne_none_iff_exists'] at hnot
  obtain ⟨htrim, n, hread⟩ := hnot
  have hinteger : integer.element value = .ofInt n := by rw [element, hread]
  have htext : text.element value = .text value := ofText_eq_text htrim hread
  exact Element.ofInt_ne_text n value (hinteger.symm.trans ((he _).trans ((he _).symm.trans htext)))

example : ["+7", "7 ", "70", " ", "a"].map (fun s => (integer.element s, text.element s)) =
    [(.char '7', .char '7'), (.char '7', .text "7 "), (.int 70, .int 70), (.char ' ', .char ' '),
      (.char 'a', .char 'a')] := by
  decide +kernel

end LiteralKind

namespace Expr

theorem evaluate_primitive (value : String) (kind : LiteralKind) (span : Span)
    (s : Evaluation.State) :
    (primitive value kind span).evaluate s = .ok (.element (kind.element value)) s := rfl

theorem evaluate_int (n : Int64) (s : Evaluation.State) :
    (int n).evaluate s = .ok (.element (.ofInt n)) s :=
  LiteralKind.element_toString n .integer ▸ evaluate_primitive _ .integer .nowhere s

/-- An integer means the same element as a number, as a text, as an expression, as an integer
literal with any blanks around it, and as a literal of any other kind without them.  What a literal
means does not depend on its kind, except when its text is an integer with blanks around it. -/
theorem evaluate_literal :
    (∀ (n : Int64) (s : Evaluation.State) (span : Span),
      Element.ofText (toString n.toInt) = .ofInt n ∧
      (int n).evaluate s = .ok (.element (.ofInt n)) s ∧
      (∀ before after : String, (∀ c ∈ before.toList, isBlank c = true) →
        (∀ c ∈ after.toList, isBlank c = true) →
        (primitive (before ++ toString n.toInt ++ after) .integer span).evaluate s =
          .ok (.element (.ofInt n)) s) ∧
      ∀ kind : LiteralKind, (primitive (toString n.toInt) kind span).evaluate s =
        .ok (.element (.ofInt n)) s) ∧
    ∀ value : String,
      (∃ e, ∀ (kind : LiteralKind) (span : Span) (s : Evaluation.State),
        (primitive value kind span).evaluate s = .ok (.element e) s) ↔
      trim value = value ∨ readInt64 (trim value) = none := by
  constructor
  · intro n s span
    have hread := readInt64_toString n
    refine ⟨Element.ofText_of_readInt64 hread, evaluate_int n s,
      fun before after hbefore hafter => ?_, fun kind => ?_⟩
    · rw [evaluate_primitive, LiteralKind.element_integer_of_blanks hbefore hafter hread]
    · rw [evaluate_primitive, LiteralKind.element_toString]
  · intro value
    rw [← LiteralKind.exists_element_eq_iff]
    refine exists_congr fun e => ⟨fun h kind => ?_, fun h kind span s => ?_⟩
    · have hkind := h kind .nowhere ⟨.initial, .empty⟩
      rw [evaluate_primitive] at hkind
      injection hkind with hvalue
      exact Value.element.inj hvalue
    · rw [evaluate_primitive, h kind]

/-- The least integer between blanks, a digit with a sign, the first number that is too large, and
the one integer whose kind matters. -/
theorem evaluate_literal_least :
    let s : Evaluation.State := ⟨.initial, .empty⟩
    (primitive "\t-9223372036854775808\u00a0\u3000" .integer .nowhere).evaluate s =
        .ok (.element (.int Int64.minValue)) s ∧
      (primitive "-9223372036854775808" .symbol .nowhere).evaluate s =
        .ok (.element (.int Int64.minValue)) s ∧
      (∃ e, ∀ (kind : LiteralKind) (span : Span) (s : Evaluation.State),
        (primitive "+7" kind span).evaluate s = .ok (.element e) s) ∧
      (∃ e, ∀ (kind : LiteralKind) (span : Span) (s : Evaluation.State),
        (primitive " 9223372036854775808" kind span).evaluate s = .ok (.element e) s) ∧
      ¬ ∃ e, ∀ (kind : LiteralKind) (span : Span) (s : Evaluation.State),
        (primitive " 7" kind span).evaluate s = .ok (.element e) s := by
  intro s
  obtain ⟨hint, hkinds⟩ := evaluate_literal
  obtain ⟨-, -, hblanks, hplain⟩ := hint Int64.minValue s .nowhere
  have htext : toString Int64.minValue.toInt = "-9223372036854775808" := by decide +kernel
  refine ⟨?_, ?_, (hkinds "+7").mpr (.inl (by decide +kernel)),
    (hkinds " 9223372036854775808").mpr (.inr (by decide +kernel)), ?_⟩
  · have h := hblanks "\t" "\u00a0\u3000" (by simp [isBlank]) (by simp [isBlank])
    rw [htext] at h
    exact h
  · have h := hplain .symbol
    rw [htext] at h
    exact h
  · rw [hkinds " 7"]
    decide +kernel

end Expr
end SetLaws
