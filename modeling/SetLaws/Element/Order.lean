import SetLaws.Element
import SetLaws.Text

/-!
# The order of elements

Elements are compared by their normal forms: integers by value, then characters
by code point, then texts by code points.  The words given to a hash function
come from the normal form as well, so all spellings of an element are hashed
alike.
-/

namespace SetLaws
namespace Element

/-- Integers come first, then characters, then texts. -/
def rank : Element → Nat
  | .int _ => 0
  | .char _ => 1
  | .text _ => 2

def compareSpelled : Element → Element → Ordering
  | .int a, .int b => compare a b
  | .char a, .char b => compare a b
  | .text a, .text b => compare a b
  | a, b => compare a.rank b.rank

instance : Ord Element where
  compare a b := compareSpelled a.normalized b.normalized

/-- Two spellings mean the same element. -/
def same (a b : Element) : Bool :=
  compare a b == .eq

theorem compareSpelled_swap (a b : Element) :
    compareSpelled a b = (compareSpelled b a).swap := by
  cases a <;> cases b <;> first | rfl | exact Std.OrientedOrd.eq_swap

theorem compareSpelled_isLE_trans {a b c : Element} (hab : (compareSpelled a b).isLE)
    (hbc : (compareSpelled b c).isLE) : (compareSpelled a c).isLE := by
  cases a <;> cases b <;> cases c <;> simp only [compareSpelled] at hab hbc ⊢ <;>
    first | exact Std.TransOrd.isLE_trans hab hbc | assumption | rfl | contradiction

instance : Std.TransOrd Element where
  eq_swap := compareSpelled_swap _ _
  isLE_trans := compareSpelled_isLE_trans

/-- Comparing equal as spelled is being spelled alike. -/
theorem compareSpelled_eq_iff {a b : Element} : compareSpelled a b = .eq ↔ a = b := by
  constructor
  · intro h
    cases a <;> cases b <;> simp only [compareSpelled] at h <;>
      first | exact congrArg _ (Std.LawfulEqOrd.eq_of_compare h) | contradiction
  · rintro rfl
    cases a <;> exact Std.ReflOrd.compare_self

/-- Two elements compare equal exactly when their normal forms agree. -/
theorem compare_eq_iff {a b : Element} : compare a b = .eq ↔ a.normalized = b.normalized :=
  compareSpelled_eq_iff

/-- What an element gives to a hash function after its rank: the word of the integer, the
code of the character, or the bytes of the text and a mark of its end. -/
def payload : Element → List Nat
  | .int n => [n.toUInt64.toNat]
  | .char c => [c.toNat]
  | .text s => (Text.bytes s).map UInt8.toNat ++ [0xFF]

/-- The words that an element gives to a hash function, those of its normal form. -/
def hashWords (e : Element) : List Nat :=
  e.normalized.rank :: e.normalized.payload

end Element
end SetLaws
