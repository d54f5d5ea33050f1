import Mathlib.Data.Finset.SDiff
import SetLaws.Signature

/-!
# The set that a signature stands for

A universal set and a set for every name give each signature a set.  The named sets
need not lie in the universal set, and then two signatures can mean the same inside
the universal set and differ outside it.
-/

namespace SetLaws

variable {α : Type*}

/-- Two sets have the same members inside the universal set. -/
def SameWithin (whole a b : Finset α) : Prop :=
  ∀ x ∈ whole, x ∈ a ↔ x ∈ b

namespace SameWithin

variable {whole a b c : Finset α}

theorem refl (whole a : Finset α) : SameWithin whole a a := fun _ _ => Iff.rfl

theorem of_eq (h : a = b) : SameWithin whole a b := h ▸ refl whole a

theorem trans (hab : SameWithin whole a b) (hbc : SameWithin whole b c) :
    SameWithin whole a c := fun x hx => (hab x hx).trans (hbc x hx)

/-- Sets that lie in the universal set are equal when they are the same within it. -/
theorem eq_of_subset (h : SameWithin whole a b) (ha : a ⊆ whole) (hb : b ⊆ whole) : a = b := by
  ext x
  exact ⟨fun hx => (h x (ha hx)).mp hx, fun hx => (h x (hb hx)).mpr hx⟩

end SameWithin

variable [DecidableEq α]

/-- What the operator makes of two sets. -/
def BinaryOp.meaning : BinaryOp → Finset α → Finset α → Finset α
  | .union, a, b => a ∪ b
  | .intersection, a, b => a ∩ b
  | .difference, a, b => a \ b

namespace SameWithin

variable {whole a b : Finset α}

theorem complement (h : SameWithin whole a b) : SameWithin whole (whole \ a) (whole \ b) := by
  intro x hx
  rw [Finset.mem_sdiff, Finset.mem_sdiff, h x hx]

theorem binary (op : BinaryOp) {a' b' : Finset α} (ha : SameWithin whole a a')
    (hb : SameWithin whole b b') :
    SameWithin whole (op.meaning a b) (op.meaning a' b') := by
  intro x hx
  cases op with
  | union =>
    show x ∈ a ∪ b ↔ x ∈ a' ∪ b'
    rw [Finset.mem_union, Finset.mem_union, ha x hx, hb x hx]
  | intersection =>
    show x ∈ a ∩ b ↔ x ∈ a' ∩ b'
    rw [Finset.mem_inter, Finset.mem_inter, ha x hx, hb x hx]
  | difference =>
    show x ∈ a \ b ↔ x ∈ a' \ b'
    rw [Finset.mem_sdiff, Finset.mem_sdiff, ha x hx, hb x hx]

end SameWithin

namespace Signature

/-- The set that a signature stands for. -/
def meaning (whole : Finset α) (named : String → Finset α) : Signature → Finset α
  | .set x => named x
  | .empty => ∅
  | .universal => whole
  | .complement s => whole \ s.meaning whole named
  | .binary op a b => op.meaning (a.meaning whole named) (b.meaning whole named)

/-- Named sets inside the universal set stay inside it under every operator. -/
theorem meaning_subset {whole : Finset α} {named : String → Finset α}
    (h : ∀ x, named x ⊆ whole) (s : Signature) : s.meaning whole named ⊆ whole := by
  induction s with
  | set x => exact h x
  | empty => exact Finset.empty_subset whole
  | universal => exact Finset.Subset.refl whole
  | complement s _ => exact Finset.sdiff_subset
  | binary op a b iha ihb =>
    cases op with
    | union => exact Finset.union_subset iha ihb
    | intersection => exact Finset.inter_subset_left.trans iha
    | difference => exact Finset.sdiff_subset.trans iha

end Signature
end SetLaws
