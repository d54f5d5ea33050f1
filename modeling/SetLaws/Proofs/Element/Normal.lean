import Mathlib.Data.List.Sort
import SetLaws.Element.Order
import SetLaws.ElementSet.Membership

/-!
# Normal forms

Normalizing settles the spelling of an element once and for all.  Two normal elements
mean the same only when they are spelled alike.
-/

namespace SetLaws
namespace Element

theorem normalized_ofInt (n : Int64) : (ofInt n).normalized = ofInt n := by
  unfold ofInt
  split
  · rfl
  · next h => exact if_neg h

theorem normalized_ofText (s : String) : (ofText s).normalized = ofText s := by
  unfold ofText
  split
  · rfl
  · next hlist =>
    split
    · next n _ => exact normalized_ofInt n
    · next hread =>
      show ofText s = .text s
      unfold ofText
      split
      · next c hc => exact absurd hc (hlist c)
      · rw [hread]

/-- Normalizing twice is normalizing once. -/
theorem normalized_normalized (e : Element) : e.normalized.normalized = e.normalized := by
  cases e with
  | char c => rfl
  | int n => exact normalized_ofInt n
  | text s => exact normalized_ofText s

/-- The element is spelled in its preferred form. -/
def IsNormal (e : Element) : Prop :=
  e.normalized = e

theorem isNormal_normalized (e : Element) : e.normalized.IsNormal :=
  normalized_normalized e

theorem isNormal_char (c : Char) : (char c).IsNormal := rfl

/-- Normal elements mean the same only when they are spelled alike. -/
theorem IsNormal.same_iff {a b : Element} (ha : a.IsNormal) (hb : b.IsNormal) :
    a.same b = true ↔ a = b := by
  rw [Element.same_iff, ha, hb]

theorem same_refl (e : Element) : e.same e = true :=
  same_iff.mpr rfl

/-- Lists that increase strictly are equal when they hold the same elements. -/
theorem eq_of_increasing {xs ys : List Element} (hxs : xs.Pairwise fun a b => compare a b = .lt)
    (hys : ys.Pairwise fun a b => compare a b = .lt) (h : ∀ e, e ∈ xs ↔ e ∈ ys) : xs = ys := by
  have hantisymm : Std.Antisymm (fun a b : Element => compare a b = .lt) :=
    ⟨fun a b hab hba => absurd hba (Std.OrientedCmp.not_lt_of_lt hab)⟩
  have hirrefl : Std.Irrefl (fun a b : Element => compare a b = .lt) :=
    ⟨fun a ha => absurd ha (Std.OrientedCmp.not_lt_of_lt ha)⟩
  exact hxs.eq_of_mem_iff hys h

end Element
end SetLaws
