import SetLaws.Proofs.Law.Transform
import SetLaws.Proofs.Simplification.Derivation

/-!
# What a law turns a signature into

Each shape of a law is listed with what the law makes of it.  The shapes that it leaves as they are
do not occur here.  Whatever holds of every turn holds along every derivation.
-/

namespace SetLaws
namespace Law

open Signature

/-- The law turns one signature into another.  `x`, `y` and `z` are any names, and may be the same
name unless two operands are swapped. -/
inductive Turns : Law → Signature → Signature → Prop where
  | dropped {s t : Signature} (h : s.dropDoubleComplements = some t) : Turns .doubleComplement s t
  | emptied (x : String) : Turns .emptyComplement
      (.binary .intersection (.set x) (.complement (.set x))) .empty
  | emptiedDouble (x : String) : Turns .emptyComplement
      (.binary .intersection (.complement (.complement (.set x))) (.complement (.set x))) .empty
  | filled (x : String) : Turns .universalComplement
      (.binary .union (.set x) (.complement (.set x))) .universal
  | merged {op : BinaryOp} (hop : op.isSymmetric = true) (x : String) :
      Turns .idempotence (.binary op (.set x) (.set x)) (.set x)
  | mergedComplement {op : BinaryOp} (hop : op.isSymmetric = true) (x : String) :
      Turns .idempotence (.binary op (.complement (.set x)) (.complement (.set x)))
        (.complement (.set x))
  | cancelled (x : String) : Turns .selfDifference (.binary .difference (.set x) (.set x)) .empty
  | absorbedLeft {outer inner : BinaryOp} (hop : outer.isDual inner = true) (x y : String) :
      Turns .absorption (.binary outer (.binary inner (.set x) (.set y)) (.set x)) (.set x)
  | absorbedRight {outer inner : BinaryOp} (hop : outer.isDual inner = true) (x y : String) :
      Turns .absorption (.binary outer (.set x) (.binary inner (.set x) (.set y))) (.set x)
  | pushed {op op' : BinaryOp} (hop : op.isDual op' = true) (x y : String) :
      Turns .deMorgan (.complement (.binary op (.set x) (.set y)))
        (.binary op' (.complement (.set x)) (.complement (.set y)))
  | distributed (x y z : String) : Turns .distributive
      (.binary .union (.set x) (.binary .intersection (.set y) (.set z)))
      (.binary .intersection (.binary .union (.set x) (.set y)) (.binary .union (.set x) (.set z)))
  | reversed (x y z : String) : Turns .distributive
      (.binary .union (.binary .intersection (.binary .union (.set x) (.set y)) (.set z))
        (.set x))
      (.binary .union (.binary .intersection (.set z) (.set y)) (.set x))
  | factored (x y z : String) : Turns .distributive
      (.binary .intersection (.binary .union (.set x) (.set y)) (.binary .union (.set x) (.set z)))
      (.binary .union (.set x) (.binary .intersection (.set y) (.set z)))
  | groupedLeft {op : BinaryOp} (hop : op.isSymmetric = true) (x y z : String) :
      Turns .associative (.binary op (.set x) (.binary op (.set y) (.set z)))
        (.binary op (.binary op (.set x) (.set y)) (.set z))
  | groupedRight {op : BinaryOp} (hop : op.isSymmetric = true) (x y z : String) :
      Turns .associative (.binary op (.binary op (.set x) (.set y)) (.set z))
        (.binary op (.set x) (.binary op (.set y) (.set z)))
  | swapped {op : BinaryOp} (hop : op.isSymmetric = true) {x y : String} (hxy : x ≠ y) :
      Turns .commutative (.binary op (.set x) (.set y)) (.binary op (.set y) (.set x))

variable {law : Law} {s t : Signature}

/-- A law turns each of its shapes into what it makes of it, unless that is the same. -/
theorem Shape.turns (h : law.Shape s) (ht : law.transform s = some t) (hne : t ≠ s) :
    law.Turns s t := by
  have heq : ∀ {u : Signature}, law.transform s = some u → u = t := fun hu =>
    Option.some.inj (hu.symm.trans ht)
  cases h with
  | doubleComplement => exact .dropped ht
  | emptyComplement x => exact heq rfl ▸ .emptied x
  | emptyDoubleComplement x => exact heq rfl ▸ .emptiedDouble x
  | universalComplement x => exact heq rfl ▸ .filled x
  | idempotence hop x => exact heq (keepFirst_binary hop _ _) ▸ .merged hop x
  | idempotenceComplement hop x => exact heq (keepFirst_binary hop _ _) ▸ .mergedComplement hop x
  | selfDifference x => exact heq rfl ▸ .cancelled x
  | absorptionLeft hop x y => exact heq rfl ▸ .absorbedLeft hop x y
  | @absorptionRight outer inner hop x y =>
    exact heq (absorb_right outer inner x y) ▸ .absorbedRight hop x y
  | @deMorgan op hop x y =>
    cases op with
    | union => exact heq rfl ▸ .pushed rfl x y
    | intersection => exact heq rfl ▸ .pushed rfl x y
    | difference => exact absurd hop Bool.false_ne_true
  | @deMorganDone op hop x y =>
    cases op with
    | union | intersection => exact absurd (heq rfl).symm hne
    | difference => exact absurd hop Bool.false_ne_true
  | distribute x y z => exact heq rfl ▸ .distributed x y z
  | distributeDone => exact absurd (heq rfl).symm hne
  | distributeMixed x y z => exact heq rfl ▸ .reversed x y z
  | factor x y z => exact heq rfl ▸ .factored x y z
  | @associativeRight op hop x y z => exact heq (regroup_right op _ _ _) ▸ .groupedLeft hop x y z
  | @associativeLeft op hop x y z => exact heq (regroup_left op _ _ z) ▸ .groupedRight hop x y z
  | commutative hop hxy => exact heq rfl ▸ .swapped hop hxy

theorem Rewrites.turns (h : law.Rewrites s t) : law.Turns s t :=
  h.shape.turns h.transformed h.changed

namespace Turns

theorem transform_eq (h : law.Turns s t) : law.transform s = some t := by
  cases h with
  | dropped h => exact h
  | emptied | emptiedDouble | filled | cancelled | absorbedLeft => rfl
  | merged hop x => exact keepFirst_binary hop _ _
  | mergedComplement hop x => exact keepFirst_binary hop _ _
  | @absorbedRight outer inner hop x y => exact absorb_right outer inner x y
  | pushed hop x y =>
    obtain ⟨rfl, rfl⟩ | ⟨rfl, rfl⟩ := eq_of_isDual hop
    · rfl
    · rfl
  | distributed | reversed | factored | swapped => rfl
  | @groupedLeft op hop x y z => exact regroup_right op _ _ _
  | @groupedRight op hop x y z => exact regroup_left op _ _ z

theorem ne (h : law.Turns s t) : t ≠ s := by
  cases h with
  | dropped h =>
    rintro rfl
    exact absurd (tokenCount_lt_of_dropDoubleComplements h) (Nat.lt_irrefl _)
  | swapped hop hxy =>
    intro h
    exact hxy (Signature.set.inj (Signature.binary.inj h).2.1).symm
  | _ => nofun

end Turns

/-- A law rewrites a signature when it is the detected one and turns it into another. -/
theorem rewrites_iff : law.Rewrites s t ↔ detect s = some law ∧ law.Turns s t :=
  ⟨fun h => ⟨h.detected, h.turns⟩, fun h => ⟨h.1, h.2.transform_eq, h.2.ne⟩⟩

end Law

namespace Signature

/-- Complements do not count among the names. -/
theorem operands_of_dropDoubleComplements {s t : Signature}
    (h : s.dropDoubleComplements = some t) : t.operands = s.operands := by
  fun_induction dropDoubleComplements s generalizing t with
  | case1 x =>
    obtain rfl := Option.some.inj h
    rw [operands_complement, operands_complement]
  | case2 s _ ih =>
    obtain ⟨s', hs', rfl⟩ := Option.map_eq_some_iff.mp h
    rw [operands_complement, operands_complement, ih hs']
  | case3 => cases h
  | case4 op a b hnone iha ihb =>
    obtain rfl := Option.some.inj h
    have hgetD : ∀ {s : Signature}, (∀ {t}, s.dropDoubleComplements = some t →
        t.operands = s.operands) → (s.dropDoubleComplements.getD s).operands = s.operands := by
      intro s hs
      cases hdrop : s.dropDoubleComplements with
      | none => rfl
      | some t => exact hs hdrop
    rw [operands_binary, operands_binary, hgetD iha, hgetD ihb]
  | case5 => cases h

end Signature

namespace Law

open Signature

/-- A turn moves, drops and repeats names, and invents none. -/
theorem Turns.operands_subset {law : Law} {s t : Signature} (h : law.Turns s t) :
    ∀ x ∈ t.operands, x ∈ s.operands := by
  cases h with
  | dropped h =>
    rw [operands_of_dropDoubleComplements h]
    exact fun x hx => hx
  | _ =>
    simp only [operands_set, operands_empty, operands_universal, operands_complement,
      operands_binary, List.mem_append, List.mem_singleton, List.not_mem_nil]
    grind

end Law
end SetLaws
