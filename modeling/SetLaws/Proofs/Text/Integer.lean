import SetLaws.Proofs.Text.Ends
import SetLaws.Text

/-!
# Decimal texts of integers

The text that is written for an integer is read as that integer.  Whatever is read as an integer
consists of digits, behind a sign or alone, and so has no blanks.
-/

namespace SetLaws
namespace Text

variable {c : Char} {cs : List Char} {k : Int} {m : Nat} {n : Int64} {s : String}

theorem isDigit_toDigits (n : Nat) : ∀ c ∈ Nat.toDigits 10 n, c.isDigit = true :=
  fun _ hc => Nat.isDigit_of_mem_toDigits (by decide) (by decide) hc

theorem isBlank_of_isDigit {c : Char} (h : c.isDigit = true) : isBlank c = false := by
  have hclass : (decide (c.val ≥ 48) && decide (c.val ≤ 57)) = true := h
  simp only [Bool.and_eq_true, decide_eq_true_eq, ge_iff_le, UInt32.le_iff_toNat_le] at hclass
  have hbounds : 48 ≤ c.toNat ∧ c.toNat ≤ 57 := hclass
  simp only [isBlank, Bool.or_eq_false_iff, Bool.and_eq_false_iff, decide_eq_false_iff_not,
    beq_eq_false_iff_ne]
  omega

theorem readDigits_toDigits (n : Nat) : readDigits (Nat.toDigits 10 n) = some n := by
  have hall : (Nat.toDigits 10 n).all Char.isDigit = true :=
    List.all_eq_true.mpr (isDigit_toDigits n)
  have hne : ¬ (Nat.toDigits 10 n).isEmpty = true := by
    rw [List.isEmpty_iff]
    exact Nat.toDigits_ne_nil
  rw [readDigits, if_neg hne, if_pos hall, Nat.ofDigitChars_ten_toDigits]

theorem toList_toString_ofNat (n : Nat) : (toString (n : Int)).toList = Nat.toDigits 10 n :=
  Nat.toList_repr

theorem toList_toString_negSucc (n : Nat) :
    (toString (Int.negSucc n)).toList = '-' :: Nat.toDigits 10 (n + 1) := by
  show ("-" ++ Nat.repr (n + 1)).toList = _
  rw [String.toList_append, Nat.toList_repr]
  rfl

theorem readSigned_toString (n : Int) : readSigned (toString n).toList = some n := by
  cases n with
  | ofNat n =>
    have hread := readDigits_toDigits n
    have hdigit := isDigit_toDigits n
    show readSigned (toString (n : Int)).toList = _
    rw [toList_toString_ofNat]
    -- A digit is no sign, so the last case of the reader applies.
    unfold readSigned
    split
    · next heq => exact absurd (hdigit '-' (heq ▸ List.mem_cons_self)) (by decide)
    · next heq => exact absurd (hdigit '+' (heq ▸ List.mem_cons_self)) (by decide)
    · rw [hread]
      rfl
  | negSucc n =>
    rw [toList_toString_negSucc, readSigned, readDigits_toDigits]
    rfl

theorem toInt64?_eq_some_iff : toInt64? k = some n ↔ k = n.toInt := by
  rw [toInt64?]
  constructor
  · intro h
    split at h
    · next hk =>
      have hmin : Int64.minValue.toInt = -2 ^ 63 := rfl
      have hmax : Int64.maxValue.toInt = 2 ^ 63 - 1 := rfl
      rw [← Option.some.inj h, Int64.toInt_ofInt_of_le (by omega) (by omega)]
    · cases h
  · rintro rfl
    rw [if_pos ⟨n.minValue_le_toInt, n.toInt_le⟩, Int64.ofInt_toInt]

theorem readInt64_eq_some_iff : readInt64 s = some n ↔ readSigned s.toList = some n.toInt := by
  rw [readInt64, Option.bind_eq_some_iff]
  simp only [toInt64?_eq_some_iff, exists_eq_right]

theorem readInt64_toString (n : Int64) : readInt64 (toString n.toInt) = some n :=
  readInt64_eq_some_iff.mpr (readSigned_toString n.toInt)

/-! ### What is read as an integer -/

theorem readDigits_eq_some_iff :
    readDigits cs = some m ↔
      cs ≠ [] ∧ (∀ c ∈ cs, c.isDigit = true) ∧ Nat.ofDigitChars 10 cs 0 = m := by
  rw [readDigits, ← List.all_eq_true, ne_eq, ← List.isEmpty_iff]
  cases cs.isEmpty <;> cases cs.all Char.isDigit <;> simp

theorem readSigned_minus (cs : List Char) :
    readSigned ('-' :: cs) = (readDigits cs).map fun m : Nat => -(m : Int) := by
  rw [readSigned]
  cases readDigits cs <;> rfl

/-- The text of an integer: digits behind a sign, or digits alone. -/
inductive Signed : List Char → Int → Prop where
  | minus {cs : List Char} {m : Nat} (h : readDigits cs = some m) : Signed ('-' :: cs) (-m)
  | plus {cs : List Char} {m : Nat} (h : readDigits cs = some m) : Signed ('+' :: cs) m
  | digits {cs : List Char} {m : Nat} (h : readDigits cs = some m) : Signed cs m

theorem signed_of_readSigned (h : readSigned cs = some k) : Signed cs k := by
  fun_cases readSigned cs with
  | case1 ds =>
    rw [readSigned_minus, Option.map_eq_some_iff] at h
    obtain ⟨m, hm, rfl⟩ := h
    exact .minus hm
  | case2 ds =>
    rw [readSigned, Option.map_eq_some_iff] at h
    obtain ⟨m, hm, rfl⟩ := h
    exact .plus hm
  | case3 _ hminus hplus =>
    rw [readSigned, Option.map_eq_some_iff] at h
    · obtain ⟨m, hm, rfl⟩ := h
      exact .digits hm
    · exact hminus
    · exact hplus

example : ["+7", "007", "-0", "", "+", "7 ", "1_0", "9223372036854775808"].map readInt64 =
    [some 7, some 7, some 0, none, none, none, none, none] := by
  decide +kernel

theorem Signed.isBlank_eq_false (h : Signed cs k) : ∀ c ∈ cs, isBlank c = false := by
  have hdigits : ∀ {ds : List Char} {m : Nat}, readDigits ds = some m →
      ∀ c ∈ ds, isBlank c = false :=
    fun hread c hc => isBlank_of_isDigit ((readDigits_eq_some_iff.mp hread).2.1 c hc)
  cases h with
  | minus h | plus h => exact List.forall_mem_cons.mpr ⟨by decide, hdigits h⟩
  | digits h => exact hdigits h

theorem Signed.isDigit_of_singleton (h : Signed [c] k) :
    c.isDigit = true ∧ k = (c.toNat - '0'.toNat : Nat) := by
  cases h with
  | minus h | plus h => cases h
  | digits h =>
    obtain ⟨-, hdigit, rfl⟩ := readDigits_eq_some_iff.mp h
    exact ⟨hdigit c List.mem_cons_self, by simp [Nat.ofDigitChars]⟩

/-- There are no blanks to drop around what reads as an integer. -/
theorem trim_eq_self_of_readSigned (h : readSigned s.toList = some k) : trim s = s := by
  have hblank := (signed_of_readSigned h).isBlank_eq_false
  rw [trim, trimChars_eq_self hblank, String.ofList_toList]

end Text
end SetLaws
