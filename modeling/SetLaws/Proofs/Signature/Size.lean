import Mathlib.Algebra.GroupWithZero.Nat
import SetLaws.Proofs.Signature.Operands
import SetLaws.Signature.Text
import SetLaws.Text

/-!
# The size of a signature

Whatever is written of a signature besides the names of its sets takes one byte a character.  So
the bytes that its text takes beyond the number of its characters are those that the names take.
-/

namespace SetLaws
namespace Text

/-- The bytes that the characters of a text take beyond one byte each. -/
def surplus (s : String) : Nat :=
  (s.toList.map fun c => c.utf8Size - 1).sum

theorem surplus_append (s t : String) : surplus (s ++ t) = surplus s + surplus t := by
  simp only [surplus, String.toList_append, List.map_append, List.sum_append]

theorem length_flatMap_utf8EncodeChar (cs : List Char) :
    (cs.flatMap String.utf8EncodeChar).length =
      cs.length + (cs.map fun c => c.utf8Size - 1).sum := by
  induction cs with
  | nil => rfl
  | cons c cs ih =>
    have hpos := c.utf8Size_pos
    simp only [List.flatMap_cons, List.length_append, String.length_utf8EncodeChar, ih,
      List.length_cons, List.map_cons, List.sum_cons]
    omega

theorem utf8ByteSize_eq (s : String) : s.utf8ByteSize = s.length + surplus s := by
  rw [← length_bytes, bytes_eq_flatMap, length_flatMap_utf8EncodeChar, String.length_toList]
  rfl

end Text

namespace Signature

open Text

/-- The bytes that the characters of its names take beyond one byte each. -/
def surplus (s : Signature) : Nat :=
  (s.operands.map Text.surplus).sum

theorem surplus_complementGap (s : Signature) : Text.surplus s.complementGap = 0 := by
  cases s with
  | binary op a b =>
    show Text.surplus " " = 0
    rfl
  | set | empty | universal | complement => rfl

theorem surplus_symbol (op : BinaryOp) : Text.surplus op.symbol = 0 := by
  cases op <;> rfl

theorem surplus_braced (name : String) : Text.surplus (braced name) = Text.surplus name := by
  have hopen : Text.surplus "\x7b" = 0 := rfl
  have hclose : Text.surplus "\x7d" = 0 := rfl
  rw [braced, surplus_append, surplus_append, hopen, hclose, Nat.zero_add, Nat.add_zero]

theorem surplus_operandText (s : Signature) : Text.surplus s.operandText = s.surplus := by
  have hblank : Text.surplus " " = 0 := rfl
  induction s with
  | set name =>
    rw [operandText, surplus_braced, surplus, operands_set]
    rfl
  | empty =>
    rw [surplus, operands_empty]
    rfl
  | universal =>
    rw [surplus, operands_universal]
    rfl
  | complement s ih =>
    have hsign : Text.surplus "^" = 0 := rfl
    rw [operandText, surplus_append, surplus_append, hsign, surplus_complementGap, ih, surplus,
      surplus, operands_complement]
    omega
  | binary op a b iha ihb =>
    simp only [operandText, surplus_append, surplus_symbol, hblank, iha, ihb, surplus,
      operands_binary, List.map_append, List.sum_append]
    omega

theorem surplus_text (s : Signature) : Text.surplus s.text = s.surplus := by
  cases s with
  | set name =>
    rw [text]
    split
    · rw [surplus, operands_set]
      rfl
    · exact surplus_operandText (.set name)
  | empty | universal | complement | binary => exact surplus_operandText _

/-- A text takes as many bytes as characters, and besides those that its names take. -/
theorem textSize_eq (s : Signature) : s.textSize = s.text.length + s.surplus := by
  rw [textSize, utf8ByteSize_eq, surplus_text]

end Signature
end SetLaws
