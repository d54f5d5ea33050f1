import SetLaws.Proofs.Law.Transform
import SetLaws.Proofs.Signature.Meaning

/-!
# The laws keep the meaning

Two laws take the universal set to be all there is: the double complement and the
union with a complement.  They keep the meaning inside the universal set.  All others
keep it wherever the named sets lie.
-/

namespace SetLaws

variable {α : Type*} [DecidableEq α] {whole : Finset α} {named : String → Finset α}

namespace BinaryOp

theorem meaning_self {op : BinaryOp} (hop : op.isSymmetric = true) (a : Finset α) :
    op.meaning a a = a := by
  cases op with
  | union => exact Finset.union_self a
  | intersection => exact Finset.inter_self a
  | difference => exact absurd hop Bool.false_ne_true

theorem meaning_comm {op : BinaryOp} (hop : op.isSymmetric = true) (a b : Finset α) :
    op.meaning a b = op.meaning b a := by
  cases op with
  | union => exact Finset.union_comm a b
  | intersection => exact Finset.inter_comm a b
  | difference => exact absurd hop Bool.false_ne_true

theorem meaning_assoc {op : BinaryOp} (hop : op.isSymmetric = true) (a b c : Finset α) :
    op.meaning (op.meaning a b) c = op.meaning a (op.meaning b c) := by
  cases op with
  | union => exact Finset.union_assoc a b c
  | intersection => exact Finset.inter_assoc a b c
  | difference => exact absurd hop Bool.false_ne_true

theorem isSymmetric_of_isDual {outer inner : BinaryOp} (h : outer.isDual inner = true) :
    outer.isSymmetric = true := by
  cases outer with
  | union => rfl
  | intersection => rfl
  | difference => exact absurd h Bool.false_ne_true

/-- A set absorbs what the dual operator makes of it and another set. -/
theorem meaning_absorb {outer inner : BinaryOp} (h : outer.isDual inner = true)
    (a b : Finset α) : outer.meaning a (inner.meaning a b) = a := by
  cases outer with
  | union =>
    cases inner with
    | intersection => exact Finset.union_eq_left.mpr Finset.inter_subset_left
    | union | difference => exact absurd h Bool.false_ne_true
  | intersection =>
    cases inner with
    | union => exact Finset.inter_eq_left.mpr Finset.subset_union_left
    | intersection | difference => exact absurd h Bool.false_ne_true
  | difference => exact absurd h Bool.false_ne_true

end BinaryOp

namespace Signature

theorem sameWithin_complement_complement (whole a : Finset α) :
    SameWithin whole a (whole \ (whole \ a)) := by
  intro x hx
  rw [Finset.mem_sdiff, Finset.mem_sdiff]
  exact ⟨fun ha => ⟨hx, fun hn => hn.2 ha⟩, fun h => by_contra fun ha => h.2 ⟨hx, ha⟩⟩

theorem sameWithin_union_complement (whole a : Finset α) :
    SameWithin whole whole (a ∪ (whole \ a)) := by
  intro x hx
  rw [Finset.mem_union, Finset.mem_sdiff]
  by_cases ha : x ∈ a
  · exact iff_of_true hx (Or.inl ha)
  · exact iff_of_true hx (Or.inr ⟨hx, ha⟩)

/-- An operand that a transformation leaves as it is keeps its meaning too. -/
theorem sameWithin_getD {s : Signature} {changed : Option Signature}
    (h : ∀ {t}, changed = some t →
      SameWithin whole (t.meaning whole named) (s.meaning whole named)) :
    SameWithin whole ((changed.getD s).meaning whole named) (s.meaning whole named) := by
  cases changed with
  | none => exact .refl whole _
  | some t => exact h rfl

theorem sameWithin_dropDoubleComplements {s t : Signature}
    (h : s.dropDoubleComplements = some t) :
    SameWithin whole (t.meaning whole named) (s.meaning whole named) := by
  fun_induction dropDoubleComplements s generalizing t with
  | case1 x =>
    obtain rfl := Option.some.inj h
    exact sameWithin_complement_complement whole (named x)
  | case2 s _ ih =>
    obtain ⟨s', hs', rfl⟩ := Option.map_eq_some_iff.mp h
    exact (ih hs').complement
  | case3 => exact absurd h (Option.some_ne_none t).symm
  | case4 op a b _ iha ihb =>
    obtain rfl := Option.some.inj h
    exact .binary op (sameWithin_getD iha) (sameWithin_getD ihb)
  | case5 => exact absurd h (Option.some_ne_none t).symm

end Signature

namespace Law

open Signature

/-- The laws that do not refer to the universal set keep the meaning of their shapes. -/
theorem Shape.transform_meaning {law : Law} {s t : Signature} (hs : law.Shape s)
    (ht : law.transform s = some t) (hd : law ≠ .doubleComplement)
    (hu : law ≠ .universalComplement) :
    t.meaning whole named = s.meaning whole named := by
  cases hs with
  | doubleComplement => exact absurd rfl hd
  | universalComplement => exact absurd rfl hu
  | emptyComplement x =>
    obtain rfl := Option.some.inj ht
    exact (Finset.inter_sdiff_self (named x) whole).symm
  | emptyDoubleComplement x =>
    obtain rfl := Option.some.inj ht
    exact (Finset.sdiff_inter_self (whole \ named x) whole).symm
  | @idempotence op hop x =>
    obtain rfl := Option.some.inj ((keepFirst_binary hop _ _).symm.trans ht)
    exact (BinaryOp.meaning_self hop (named x)).symm
  | @idempotenceComplement op hop x =>
    obtain rfl := Option.some.inj ((keepFirst_binary hop _ _).symm.trans ht)
    exact (BinaryOp.meaning_self hop (whole \ named x)).symm
  | selfDifference x =>
    obtain rfl := Option.some.inj ht
    exact (Finset.sdiff_self (named x)).symm
  | @absorptionLeft outer inner hop x y =>
    obtain rfl := Option.some.inj ht
    show named x = outer.meaning (inner.meaning (named x) (named y)) (named x)
    rw [BinaryOp.meaning_comm (BinaryOp.isSymmetric_of_isDual hop), BinaryOp.meaning_absorb hop]
  | @absorptionRight outer inner hop x y =>
    obtain rfl := Option.some.inj ((absorb_right outer inner x y).symm.trans ht)
    exact (BinaryOp.meaning_absorb hop (named x) (named y)).symm
  | @deMorgan op hop x y =>
    cases op with
    | union =>
      obtain rfl := Option.some.inj ht
      exact (Finset.sdiff_union_distrib whole (named x) (named y)).symm
    | intersection =>
      obtain rfl := Option.some.inj ht
      exact (Finset.sdiff_inter_distrib_right whole (named x) (named y)).symm
    | difference => exact absurd hop Bool.false_ne_true
  | deMorganDone hop x y =>
    obtain rfl := Option.some.inj ht
    rfl
  | distribute x y z =>
    obtain rfl := Option.some.inj ht
    exact (Finset.union_inter_distrib_left (named x) (named y) (named z)).symm
  | distributeDone x y z =>
    obtain rfl := Option.some.inj ht
    rfl
  | distributeMixed x y z =>
    obtain rfl := Option.some.inj ht
    show (named z ∩ named y) ∪ named x = ((named x ∪ named y) ∩ named z) ∪ named x
    ext e
    simp only [Finset.mem_union, Finset.mem_inter]
    by_cases hx : e ∈ named x
    · simp only [hx, or_true]
    · simp only [hx, false_or, or_false, and_comm]
  | factor x y z =>
    obtain rfl := Option.some.inj ht
    exact Finset.union_inter_distrib_left (named x) (named y) (named z)
  | @associativeRight op hop x y z =>
    obtain rfl := Option.some.inj ((regroup_right op _ _ _).symm.trans ht)
    exact BinaryOp.meaning_assoc hop (named x) (named y) (named z)
  | @associativeLeft op hop x y z =>
    obtain rfl := Option.some.inj ((regroup_left op _ _ z).symm.trans ht)
    exact (BinaryOp.meaning_assoc hop (named x) (named y) (named z)).symm
  | @commutative op hop x y hxy =>
    obtain rfl := Option.some.inj ht
    exact BinaryOp.meaning_comm hop (named y) (named x)

/-- Every law keeps the meaning inside the universal set. -/
theorem Shape.transform_sameWithin {law : Law} {s t : Signature} (hs : law.Shape s)
    (ht : law.transform s = some t) :
    SameWithin whole (t.meaning whole named) (s.meaning whole named) := by
  by_cases hd : law = .doubleComplement
  · subst hd
    exact sameWithin_dropDoubleComplements ht
  · by_cases hu : law = .universalComplement
    · subst hu
      cases hs with
      | universalComplement x =>
        obtain rfl := Option.some.inj ht
        exact sameWithin_union_complement whole (named x)
    · exact .of_eq (hs.transform_meaning ht hd hu)

end Law
end SetLaws
