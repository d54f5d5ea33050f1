import Mathlib.Data.List.Count
import Mathlib.Data.List.TakeWhile
import SetLaws.Proofs.Text.Bytes
import SetLaws.Text.Place

/-!
# Lines and columns of bytes

Each offset in a text has a line and a column: the line feeds before it, and the bytes between
the last of these and the offset.  The place of that line and column is the offset again, also
where it is inside a character or behind the last line feed.
-/

namespace SetLaws
namespace Text

/-- The byte that ends a line. -/
def lineFeed : UInt8 := 10

/-- The line in which an offset is, counted from one: the line feeds before it. -/
def lineAt (text : String) (offset : Nat) : Nat :=
  ((bytes text).take offset).count lineFeed + 1

/-- The number of bytes behind the last line feed. -/
def lastLineLength (bs : List UInt8) : Nat :=
  (bs.reverse.takeWhile (· ≠ lineFeed)).length

/-- The column at which an offset is, counted from one: the bytes between the start of its line
and the offset. -/
def columnAt (text : String) (offset : Nat) : Nat :=
  lastLineLength ((bytes text).take offset) + 1

/-! ## Lines of bytes -/

/-- The number of bytes in the given number of lines, each with its line feed. -/
def linesLength : Nat → List UInt8 → Nat
  | 0, _ => 0
  | _, [] => 0
  | lines + 1, b :: bs =>
    1 + if b = lineFeed then linesLength lines bs else linesLength (lines + 1) bs

theorem linesLength_zero (bs : List UInt8) : linesLength 0 bs = 0 := by
  cases bs <;> rfl

theorem linesLength_append {bs : List UInt8} (h : lineFeed ∉ bs) (lines : Nat)
    (rest : List UInt8) :
    linesLength (lines + 1) (bs ++ rest) = bs.length + linesLength (lines + 1) rest := by
  induction bs with
  | nil => rw [List.nil_append, List.length_nil, Nat.zero_add]
  | cons b bs ih =>
    rw [List.mem_cons, not_or] at h
    rw [List.cons_append, linesLength, if_neg (Ne.symm h.1), ih h.2, List.length_cons]
    omega

theorem le_toNat_of_mem_lastBytes {n code : Nat} {b : UInt8} (h : b ∈ lastBytes n code) :
    128 ≤ b.toNat := by
  induction n generalizing code with
  | zero => cases h
  | succ n ih =>
    rw [lastBytes, List.mem_append, List.mem_singleton] at h
    rcases h with h | rfl
    · exact ih h
    · have hlt : code % 64 + 128 < UInt8.size := by
        show _ < 256
        omega
      rw [UInt8.toNat_ofNat_of_lt' hlt]
      omega

/-- No part of a character but the line feed is the byte of a line feed. -/
theorem lineFeed_notMem_utf8EncodeChar {c : Char} (h : c ≠ '\n') :
    lineFeed ∉ String.utf8EncodeChar c := by
  obtain ⟨n, hn, -, hhigh, hc⟩ := exists_utf8EncodeChar_eq c
  have hfirst := firstByte_lt hn hhigh
  have hbound : firstByte (n + 1) ≤ 256 := firstByte_mono (show n + 1 ≤ 4 by omega)
  rw [hc, List.mem_cons, not_or]
  constructor
  · intro heq
    have hvalue : 10 = c.val.toNat / 64 ^ n + firstByte n := by
      have htoNat := congrArg UInt8.toNat heq
      rwa [UInt8.toNat_ofNat_of_lt' (Nat.lt_of_lt_of_le hfirst hbound)] at htoNat
    cases n with
    | zero =>
      rw [Nat.pow_zero, Nat.div_one] at hvalue
      exact h (Char.ext (UInt32.toNat_inj.mp hvalue.symm))
    | succ n =>
      have hmark : 0xC0 ≤ firstByte (n + 1) := firstByte_mono (show 1 ≤ n + 1 by omega)
      have hle : firstByte (n + 1) ≤ 10 := hvalue ▸ Nat.le_add_left _ _
      omega
  · intro hmem
    have hlast := le_toNat_of_mem_lastBytes hmem
    have hvalue : lineFeed.toNat = 10 := rfl
    omega

theorem linesSize_eq (lines : Nat) (cs : List Char) :
    linesSize lines cs = linesLength lines (cs.flatMap String.utf8EncodeChar) := by
  induction cs generalizing lines with
  | nil => cases lines <;> rfl
  | cons c cs ih =>
    cases lines with
    | zero => rw [linesSize, linesLength_zero]
    | succ lines =>
      rw [linesSize, List.flatMap_cons]
      by_cases hc : c = '\n'
      · subst hc
        rw [if_pos rfl, ih]
        rfl
      · rw [if_neg hc, ih, linesLength_append (lineFeed_notMem_utf8EncodeChar hc),
          String.length_utf8EncodeChar]

theorem takeWhile_reverse_of_notMem {bs : List UInt8} (h : lineFeed ∉ bs) :
    bs.reverse.takeWhile (· ≠ lineFeed) = bs.reverse := by
  refine List.takeWhile_eq_self_iff.mpr fun b hb => decide_eq_true ?_
  intro heq
  exact h (heq ▸ List.mem_reverse.mp hb)

theorem lastLineLength_of_notMem {bs : List UInt8} (h : lineFeed ∉ bs) :
    lastLineLength bs = bs.length := by
  rw [lastLineLength, takeWhile_reverse_of_notMem h, List.length_reverse]

/-- What is in front of a line feed does not count. -/
theorem lastLineLength_cons_of_mem (b : UInt8) {bs : List UInt8} (h : lineFeed ∈ bs) :
    lastLineLength (b :: bs) = lastLineLength bs := by
  have hshort : (bs.reverse.takeWhile (· ≠ lineFeed)).length ≠ bs.reverse.length := by
    intro hlength
    have hall := List.takeWhile_eq_self_iff.mp ((List.takeWhile_prefix _).eq_of_length hlength)
    exact of_decide_eq_true (hall lineFeed (List.mem_reverse.mpr h)) rfl
  rw [lastLineLength, List.reverse_cons, List.takeWhile_append, if_neg hshort, lastLineLength]

theorem lastLineLength_lineFeed_cons (bs : List UInt8) :
    lastLineLength (lineFeed :: bs) = lastLineLength bs := by
  by_cases h : lineFeed ∈ bs
  · exact lastLineLength_cons_of_mem lineFeed h
  · rw [lastLineLength, List.reverse_cons, List.takeWhile_append, takeWhile_reverse_of_notMem h,
      if_pos rfl, lastLineLength_of_notMem h, List.length_append, List.length_reverse]
    rfl

/-- The bytes of the lines in front and those in the line itself are all that are before an
offset. -/
theorem linesLength_add_lastLineLength (bs : List UInt8) {offset : Nat} (h : offset ≤ bs.length) :
    linesLength ((bs.take offset).count lineFeed) bs + lastLineLength (bs.take offset) =
      offset := by
  induction bs generalizing offset with
  | nil =>
    obtain rfl : offset = 0 := Nat.le_zero.mp h
    rfl
  | cons b bs ih =>
    cases offset with
    | zero => rfl
    | succ offset =>
      have hrest := ih (Nat.le_of_succ_le_succ h)
      rw [List.take_succ_cons]
      by_cases hb : b = lineFeed
      · rw [hb, List.count_cons_self, linesLength, if_pos rfl, lastLineLength_lineFeed_cons]
        omega
      · rw [List.count_cons_of_ne hb]
        by_cases hmem : lineFeed ∈ bs.take offset
        · -- There is a line in front, and the first byte is in it.
          obtain ⟨lines, hlines⟩ : ∃ lines, (bs.take offset).count lineFeed = lines + 1 :=
            Nat.exists_eq_succ_of_ne_zero (Nat.ne_of_gt (List.count_pos_iff.mpr hmem))
          rw [hlines] at hrest ⊢
          rw [linesLength, if_neg hb, lastLineLength_cons_of_mem b hmem]
          omega
        · have hnone : lineFeed ∉ b :: bs.take offset := by
            rw [List.mem_cons, not_or]
            exact ⟨Ne.symm hb, hmem⟩
          rw [List.count_eq_zero.mpr hmem, linesLength_zero, lastLineLength_of_notMem hnone,
            List.length_cons, List.length_take]
          rw [List.length_cons] at h
          omega

theorem place_eq (text : String) (line column : Nat) :
    place text line column =
      ⟨min (linesLength (line - 1) (bytes text) + (column - 1)) text.utf8ByteSize,
        min (min (linesLength (line - 1) (bytes text) + (column - 1)) text.utf8ByteSize + 1)
          text.utf8ByteSize⟩ := by
  rw [place, linesSize_eq, ← bytes_eq_flatMap]

/-- The line and the column of an offset lead back to it, and the place is one byte unless it is
the end of the text.  Whatever the line and the column are, their place is inside the text, and
empty only at its end. -/
theorem place_inverts (text : String) :
    (∀ offset ≤ text.utf8ByteSize, place text (lineAt text offset) (columnAt text offset) =
      ⟨offset, if offset = text.utf8ByteSize then offset else offset + 1⟩) ∧
    ∀ line column, let extent := place text line column
      extent.start ≤ extent.stop ∧ extent.stop ≤ text.utf8ByteSize ∧
      (extent.start = extent.stop ↔ extent.start = text.utf8ByteSize) := by
  constructor
  · intro offset h
    have hsum := linesLength_add_lastLineLength (bytes text) (h.trans_eq (length_bytes text).symm)
    rw [place_eq, lineAt, columnAt, Nat.add_sub_cancel, Nat.add_sub_cancel, hsum,
      Nat.min_eq_left h]
    split
    · next hend => rw [hend, Nat.min_eq_right (Nat.le_succ _)]
    · next hinside => rw [Nat.min_eq_left (by omega)]
  · intro line column
    rw [place_eq]
    dsimp only
    omega

/-- An offset inside a character is at a column of its own, and the end behind two line feeds is
at the start of a line. -/
theorem place_inverts_wide :
    let text := "ñ\r\n\n"
    (1 ≤ text.utf8ByteSize ∧ lineAt text 1 = 1 ∧ columnAt text 1 = 2 ∧
      place text 1 2 = ⟨1, 2⟩) ∧
    5 ≤ text.utf8ByteSize ∧ lineAt text 5 = 3 ∧ columnAt text 5 = 1 ∧ place text 3 1 = ⟨5, 5⟩ := by
  intro text
  have hinside : 1 ≤ text.utf8ByteSize := by decide +kernel
  have hend : 5 ≤ text.utf8ByteSize := by decide +kernel
  have hcolumn : columnAt text 1 = 2 := by decide +kernel
  have hline : lineAt text 5 = 3 := by decide +kernel
  exact ⟨⟨hinside, by decide +kernel, hcolumn, (place_inverts text).1 1 hinside⟩, hend, hline,
    by decide +kernel, (place_inverts text).1 5 hend⟩

end Text
end SetLaws
