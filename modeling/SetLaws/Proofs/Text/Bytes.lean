import Mathlib.Data.String.Basic
import SetLaws.Text

/-!
# The order of texts

Texts are ordered by the codes of their characters.  Comparing the bytes that encode them
leads to the same order: a greater code has a greater first byte, or as many bytes that are
the digits of the code, the highest first.
-/

namespace SetLaws
namespace Text

/-- The last `n` bytes that encode a code.  Each holds six bits of it. -/
def lastBytes : Nat → Nat → List UInt8
  | 0, _ => []
  | n + 1, code => lastBytes n (code / 64) ++ [UInt8.ofNat (code % 64 + 128)]

/-- The least code that takes more than `n` bytes. -/
def codeBound : Nat → Nat
  | 0 => 0
  | 1 => 0x80
  | 2 => 0x800
  | 3 => 0x10000
  | _ => 0x110000

/-- The least first byte that stands before `n` others. -/
def firstByte : Nat → Nat
  | 0 => 0
  | 1 => 0xC0
  | 2 => 0xE0
  | 3 => 0xF0
  | _ => 0x100

theorem codeBound_mono {m n : Nat} (h : m ≤ n) : codeBound m ≤ codeBound n := by
  refine monotone_nat_of_le_succ (fun n => ?_) h
  match n with
  | 0 | 1 | 2 | 3 => decide
  | _ + 4 => exact Nat.le_refl _

theorem firstByte_mono {m n : Nat} (h : m ≤ n) : firstByte m ≤ firstByte n := by
  refine monotone_nat_of_le_succ (fun n => ?_) h
  match n with
  | 0 | 1 | 2 | 3 => decide
  | _ + 4 => exact Nat.le_refl _

/-- The first byte tells how many others follow it. -/
theorem firstByte_lt {n code : Nat} (hn : n < 4) (h : code < codeBound (n + 1)) :
    code / 64 ^ n + firstByte n < firstByte (n + 1) := by
  match n with
  | 0 | 1 | 2 | 3 =>
    simp only [codeBound, firstByte] at h ⊢
    omega

/-- A character is encoded by the digits of its code, as many as it takes. -/
theorem exists_utf8EncodeChar_eq (c : Char) :
    ∃ n < 4, codeBound n ≤ c.val.toNat ∧ c.val.toNat < codeBound (n + 1) ∧
      String.utf8EncodeChar c =
        UInt8.ofNat (c.val.toNat / 64 ^ n + firstByte n) :: lastBytes n c.val.toNat := by
  have hmax : c.val.toNat < 0x110000 := by
    rcases c.valid with h | h
    · exact Nat.lt_trans h (by decide)
    · exact h.2
  unfold String.utf8EncodeChar
  dsimp only
  generalize c.val.toNat = code at *
  have hdiv : code / 4096 = code / 64 / 64 := (Nat.div_div_eq_div_mul code 64 64).symm
  split
  · next h =>
    refine ⟨0, by decide, Nat.zero_le code, Nat.lt_succ_of_le h, ?_⟩
    rw [Nat.pow_zero, Nat.div_one]
    rfl
  · split
    · refine ⟨1, by decide, by simp only [codeBound]; omega, by simp only [codeBound]; omega, ?_⟩
      rw [Nat.mod_eq_of_lt (by omega)]
      rfl
    · split
      · refine ⟨2, by decide, by simp only [codeBound]; omega, by simp only [codeBound]; omega, ?_⟩
        rw [Nat.mod_eq_of_lt (by omega)]
        rfl
      · refine ⟨3, by decide, by simp only [codeBound]; omega, hmax, ?_⟩
        rw [Nat.mod_eq_of_lt (by omega), hdiv]
        rfl

section

variable {a b : Nat} {xs ys : List UInt8}

theorem ofNat_cons_lt (h : a < b) (hb : b < 256) :
    UInt8.ofNat a :: xs < UInt8.ofNat b :: ys := by
  refine List.cons_lt_cons_iff.mpr (Or.inl ?_)
  rw [UInt8.lt_iff_toNat_lt, UInt8.toNat_ofNat_of_lt' (Nat.lt_trans h hb),
    UInt8.toNat_ofNat_of_lt' hb]
  exact h

/-- Of two numbers the smaller one has the smaller quotient, or the same and the smaller
remainder. -/
theorem div_lt_or_mod_lt (n : Nat) (h : a < b) :
    a / n < b / n ∨ a / n = b / n ∧ a % n < b % n := by
  rcases Nat.lt_or_eq_of_le (Nat.div_le_div_right (c := n) (Nat.le_of_lt h)) with hlt | heq
  · exact Or.inl hlt
  · have ha := Nat.div_add_mod a n
    have hb := Nat.div_add_mod b n
    rw [heq] at ha
    exact Or.inr ⟨heq, by omega⟩

/-- Codes with as many bytes are in the order of their bytes. -/
theorem lastBytes_lt {n k : Nat} (h : a < b) (hk : b / 64 ^ n + k < 256) :
    UInt8.ofNat (a / 64 ^ n + k) :: (lastBytes n a ++ xs) <
      UInt8.ofNat (b / 64 ^ n + k) :: (lastBytes n b ++ ys) := by
  induction n generalizing a b xs ys with
  | zero =>
    rw [Nat.pow_zero, Nat.div_one] at hk
    rw [Nat.pow_zero, Nat.div_one, Nat.div_one]
    exact ofNat_cons_lt (Nat.add_lt_add_right h k) hk
  | succ n ih =>
    rw [Nat.pow_succ', ← Nat.div_div_eq_div_mul] at hk
    rw [Nat.pow_succ', ← Nat.div_div_eq_div_mul, ← Nat.div_div_eq_div_mul, lastBytes, lastBytes,
      List.append_assoc, List.append_assoc]
    rcases div_lt_or_mod_lt 64 h with hdiv | ⟨hdiv, hmod⟩
    · exact ih hdiv hk
    · rw [hdiv]
      refine List.cons_lt_cons_iff.mpr (Or.inr ⟨rfl, List.append_left_lt ?_⟩)
      exact ofNat_cons_lt (Nat.add_lt_add_right hmod 128) (by omega)

/-- Characters are in the order of their bytes, whatever comes after these. -/
theorem utf8EncodeChar_append_lt {c d : Char} (h : c < d) :
    String.utf8EncodeChar c ++ xs < String.utf8EncodeChar d ++ ys := by
  have hcode : c.val.toNat < d.val.toNat := h
  obtain ⟨m, hm, hlow, hhigh, hc⟩ := exists_utf8EncodeChar_eq c
  obtain ⟨n, hn, hlow', hhigh', hd⟩ := exists_utf8EncodeChar_eq d
  have hfirst := firstByte_lt hm hhigh
  have hfirst' := firstByte_lt hn hhigh'
  have hlast := Nat.lt_of_lt_of_le hfirst' (firstByte_mono hn)
  rw [hc, hd, List.cons_append, List.cons_append]
  rcases Nat.lt_trichotomy m n with hlt | rfl | hgt
  · have hmono : firstByte (m + 1) ≤ firstByte n := firstByte_mono hlt
    refine ofNat_cons_lt (Nat.lt_of_lt_of_le hfirst ?_) hlast
    exact Nat.le_trans hmono (Nat.le_add_left _ _)
  · exact lastBytes_lt hcode hlast
  · have hmono : codeBound (n + 1) ≤ codeBound m := codeBound_mono hgt
    omega

end

theorem flatMap_utf8EncodeChar_lt {cs ds : List Char} (h : cs < ds) :
    cs.flatMap String.utf8EncodeChar < ds.flatMap String.utf8EncodeChar := by
  induction cs generalizing ds with
  | nil =>
    cases ds with
    | nil => exact absurd h (List.lt_irrefl [])
    | cons d ds =>
      obtain ⟨b, bs, hd⟩ := List.exists_cons_of_ne_nil (String.utf8EncodeChar_ne_nil (c := d))
      rw [List.flatMap_nil, List.flatMap_cons, hd, List.cons_append]
      exact List.nil_lt_cons b _
  | cons c cs ih =>
    cases ds with
    | nil => exact absurd h (List.not_lt_nil _)
    | cons d ds =>
      rw [List.flatMap_cons, List.flatMap_cons]
      rcases List.cons_lt_cons_iff.mp h with hcd | ⟨rfl, hrest⟩
      · exact utf8EncodeChar_append_lt hcd
      · exact List.append_left_lt (ih hrest)

/-- Texts are in the order of their bytes. -/
theorem bytes_lt_bytes_iff {s t : String} : bytes s < bytes t ↔ s < t := by
  rw [bytes_eq_flatMap, bytes_eq_flatMap, String.lt_iff_toList_lt]
  refine ⟨fun h => ?_, flatMap_utf8EncodeChar_lt⟩
  by_contra hge
  rcases List.le_iff_lt_or_eq.mp hge with hgt | heq
  · exact List.lt_asymm h (flatMap_utf8EncodeChar_lt hgt)
  · rw [heq] at h
    exact List.lt_irrefl _ h

/-- What is sorted by a text stands in the order of the texts. -/
theorem pairwise_mergeSort {α : Type} (text : α → String) (xs : List α) :
    (xs.mergeSort fun a b => text a ≤ text b).Pairwise fun a b => text a ≤ text b := by
  have hsorted : (xs.mergeSort fun a b => text a ≤ text b).Pairwise fun a b =>
      decide (text a ≤ text b) = true := by
    refine List.pairwise_mergeSort ?_ ?_ xs
    · intro a b c hab hbc
      rw [decide_eq_true_eq] at hab hbc ⊢
      exact String.le_trans hab hbc
    · intro a b
      rw [Bool.or_eq_true, decide_eq_true_eq, decide_eq_true_eq]
      exact String.le_total ..
  exact hsorted.imp of_decide_eq_true

end Text
end SetLaws
