import SetLaws.Law.Transform
import SetLaws.Proofs.Law.Shape
import SetLaws.Proofs.Signature.Operands

/-!
# What the laws make of their shapes

The transformations look at the operator and at the operands that they need.  On the
shapes of their laws they come down to the equations below; on all other shapes the
definitions say it already.  Only the double complement goes through all of a signature.
-/

namespace SetLaws
namespace Signature

theorem keepFirst_binary {op : BinaryOp} (hop : op.isSymmetric = true) (a b : Signature) :
    keepFirst (binary op a b) = some a := by
  cases op with
  | union => rfl
  | intersection => rfl
  | difference => exact absurd hop Bool.false_ne_true

/-- The set on the left is kept when the group on the right starts with it. -/
theorem absorb_right (outer inner : BinaryOp) (x y : String) :
    absorb (binary outer (set x) (binary inner (set x) (set y))) = some (set x) := by
  have hhead : (binary inner (set x) (set y)).operands.head? = some x := by
    rw [operands_binary, operands_set, operands_set, List.singleton_append, List.head?_cons]
  exact if_pos hhead

theorem regroup_right (op : BinaryOp) (a b c : Signature) :
    regroup (binary op a (binary op b c)) = some (binary op (binary op a b) c) := by
  simp only [regroup, group?, if_true]

theorem regroup_left (op : BinaryOp) (a b : Signature) (x : String) :
    regroup (binary op (binary op a b) (set x)) = some (binary op a (binary op b (set x))) := by
  simp only [regroup, group?, if_true, Option.map_some]

/-! ### Double complements -/

theorem isDoubleComplement_complement_eq_false {s : Signature}
    (h : ∀ x, s ≠ .complement (.set x)) : (complement s).isDoubleComplement = false := by
  rw [Bool.eq_false_iff]
  intro hdouble
  obtain ⟨x, hx⟩ := isDoubleComplement_iff.mp hdouble
  exact h x (complement.inj hx)

theorem dropDoubleComplements_complement {s : Signature} (h : ∀ x, s ≠ complement (set x)) :
    (complement s).dropDoubleComplements = s.dropDoubleComplements.map complement := by
  rw [dropDoubleComplements]
  exact fun x hx => h x hx

/-- Double complements can be dropped exactly where one stands. -/
theorem isSome_dropDoubleComplements_iff (s : Signature) :
    s.dropDoubleComplements.isSome = true ↔ s.Doubled := by
  fun_induction dropDoubleComplements s with
  | case1 x => exact iff_of_true rfl ⟨x, .self⟩
  | case2 s hs ih =>
    rw [Option.isSome_map, ih, doubled_complement_iff,
      isDoubleComplement_complement_eq_false fun x hx => hs x hx]
    simp only [Bool.false_eq_true, false_or]
  | case3 op a b ha hb iha ihb =>
    rw [doubled_binary_iff, ← iha, ← ihb, ha, hb]
    simp only [Option.isSome_none, Bool.false_eq_true, or_self]
  | case4 op a b hnone iha ihb =>
    rw [doubled_binary_iff, ← iha, ← ihb, ← Bool.or_eq_true]
    cases ha : a.dropDoubleComplements with
    | some a' => rfl
    | none =>
      cases hb : b.dropDoubleComplements with
      | some b' => rfl
      | none => exact absurd hb (hnone ha)
  | case5 s _ hcomplement hbinary =>
    cases s with
    | set x => exact iff_of_false Bool.false_ne_true (not_doubled_set x)
    | empty => exact iff_of_false Bool.false_ne_true not_doubled_empty
    | universal => exact iff_of_false Bool.false_ne_true not_doubled_universal
    | complement s => exact absurd rfl (hcomplement s)
    | binary op a b => exact absurd rfl (hbinary op a b)

theorem tokenCount_getD_le {s : Signature} {changed : Option Signature}
    (h : ∀ {t}, changed = some t → t.tokenCount + 2 ≤ s.tokenCount) :
    (changed.getD s).tokenCount ≤ s.tokenCount := by
  cases changed with
  | none => exact Nat.le_refl _
  | some t => exact Nat.le_of_add_right_le (h rfl)

/-- A signature without its double complements is shorter by at least one of them. -/
theorem tokenCount_add_two_le_of_dropDoubleComplements {s t : Signature}
    (h : s.dropDoubleComplements = some t) : t.tokenCount + 2 ≤ s.tokenCount := by
  fun_induction dropDoubleComplements s generalizing t with
  | case1 x =>
    obtain rfl := Option.some.inj h
    simp only [tokenCount]
    omega
  | case2 s _ ih =>
    obtain ⟨s', hs', rfl⟩ := Option.map_eq_some_iff.mp h
    have := ih hs'
    simp only [tokenCount]
    omega
  | case3 => exact absurd h (Option.some_ne_none t).symm
  | case4 op a b hnone iha ihb =>
    obtain rfl := Option.some.inj h
    have ha := tokenCount_getD_le iha
    have hb := tokenCount_getD_le ihb
    simp only [tokenCount]
    -- One of the operands changes and is shorter than before.
    cases hachanged : a.dropDoubleComplements with
    | some a' =>
      have := iha hachanged
      rw [Option.getD_some]
      omega
    | none =>
      cases hbchanged : b.dropDoubleComplements with
      | some b' =>
        have := ihb hbchanged
        rw [Option.getD_none, Option.getD_some]
        omega
      | none => exact absurd hbchanged (hnone hachanged)
  | case5 => exact absurd h (Option.some_ne_none t).symm

theorem tokenCount_lt_of_dropDoubleComplements {s t : Signature}
    (h : s.dropDoubleComplements = some t) : t.tokenCount < s.tokenCount :=
  Nat.lt_of_succ_le (Nat.le_of_succ_le (tokenCount_add_two_le_of_dropDoubleComplements h))

end Signature
end SetLaws
