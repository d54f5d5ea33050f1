import SetLaws.Law.Shape

/-!
# The shapes of the laws, one by one

The matcher decides by nested tests whether a law fits a signature.  Here every law
has a list of shapes instead, and the two agree.  A proof about what a law makes of
the signatures that it fits goes through the shapes.
-/

namespace SetLaws
namespace Signature

/-- A signature stands somewhere in another one, or is all of it. -/
inductive PartOf (part : Signature) : Signature → Prop where
  | self : PartOf part part
  | operand {s : Signature} (h : PartOf part s) : PartOf part (.complement s)
  | lhs {op : BinaryOp} {a b : Signature} (h : PartOf part a) : PartOf part (.binary op a b)
  | rhs {op : BinaryOp} {a b : Signature} (h : PartOf part b) : PartOf part (.binary op a b)

/-- `^^{X}` stands somewhere in the signature, for some name. -/
def Doubled (s : Signature) : Prop :=
  ∃ x, PartOf (.complement (.complement (.set x))) s

end Signature

namespace Law

open Signature

/-- The shapes of each law.  `x`, `y` and `z` are any names, and may be the same name
except in the shape of the commutative law. -/
inductive Shape : Law → Signature → Prop where
  | doubleComplement {s : Signature} (h : s.Doubled) : Shape .doubleComplement s
  | emptyComplement (x : String) : Shape .emptyComplement
      (.binary .intersection (.set x) (.complement (.set x)))
  | emptyDoubleComplement (x : String) : Shape .emptyComplement
      (.binary .intersection (.complement (.complement (.set x))) (.complement (.set x)))
  | universalComplement (x : String) : Shape .universalComplement
      (.binary .union (.set x) (.complement (.set x)))
  | idempotence {op : BinaryOp} (hop : op.isSymmetric = true) (x : String) :
      Shape .idempotence (.binary op (.set x) (.set x))
  | idempotenceComplement {op : BinaryOp} (hop : op.isSymmetric = true) (x : String) :
      Shape .idempotence (.binary op (.complement (.set x)) (.complement (.set x)))
  | selfDifference (x : String) : Shape .selfDifference (.binary .difference (.set x) (.set x))
  | absorptionLeft {outer inner : BinaryOp} (hop : outer.isDual inner = true) (x y : String) :
      Shape .absorption (.binary outer (.binary inner (.set x) (.set y)) (.set x))
  | absorptionRight {outer inner : BinaryOp} (hop : outer.isDual inner = true) (x y : String) :
      Shape .absorption (.binary outer (.set x) (.binary inner (.set x) (.set y)))
  | deMorgan {op : BinaryOp} (hop : op.isSymmetric = true) (x y : String) :
      Shape .deMorgan (.complement (.binary op (.set x) (.set y)))
  | deMorganDone {op : BinaryOp} (hop : op.isSymmetric = true) (x y : String) :
      Shape .deMorgan (.binary op (.complement (.set x)) (.complement (.set y)))
  | distribute (x y z : String) : Shape .distributive
      (.binary .union (.set x) (.binary .intersection (.set y) (.set z)))
  | distributeDone (x y z : String) : Shape .distributive
      (.binary .union (.binary .intersection (.set x) (.set y)) (.set z))
  | distributeMixed (x y z : String) : Shape .distributive
      (.binary .union (.binary .intersection (.binary .union (.set x) (.set y)) (.set z))
        (.set x))
  | factor (x y z : String) : Shape .distributive
      (.binary .intersection (.binary .union (.set x) (.set y))
        (.binary .union (.set x) (.set z)))
  | associativeRight {op : BinaryOp} (hop : op.isSymmetric = true) (x y z : String) :
      Shape .associative (.binary op (.set x) (.binary op (.set y) (.set z)))
  | associativeLeft {op : BinaryOp} (hop : op.isSymmetric = true) (x y z : String) :
      Shape .associative (.binary op (.binary op (.set x) (.set y)) (.set z))
  | commutative {op : BinaryOp} (hop : op.isSymmetric = true) {x y : String} (hxy : x ≠ y) :
      Shape .commutative (.binary op (.set x) (.set y))

end Law

namespace Signature

theorem isDoubleComplement_iff {s : Signature} :
    s.isDoubleComplement = true ↔ ∃ x, s = .complement (.complement (.set x)) := by
  constructor
  · intro h
    unfold isDoubleComplement at h
    split at h
    · next x => exact ⟨x, rfl⟩
    · exact absurd h Bool.false_ne_true
  · intro h
    obtain ⟨x, rfl⟩ := h
    rfl

theorem not_doubled_set (x : String) : ¬ Doubled (.set x) := by
  intro h
  obtain ⟨y, h⟩ := h
  cases h

theorem not_doubled_empty : ¬ Doubled .empty := by
  intro h
  obtain ⟨y, h⟩ := h
  cases h

theorem not_doubled_universal : ¬ Doubled .universal := by
  intro h
  obtain ⟨y, h⟩ := h
  cases h

theorem doubled_complement_iff {s : Signature} :
    Doubled (.complement s) ↔ (complement s).isDoubleComplement = true ∨ s.Doubled := by
  rw [isDoubleComplement_iff]
  constructor
  · intro h
    obtain ⟨x, h⟩ := h
    cases h with
    | self => exact Or.inl ⟨x, rfl⟩
    | operand h => exact Or.inr ⟨x, h⟩
  · intro h
    rcases h with ⟨x, h⟩ | ⟨x, h⟩
    · exact ⟨x, h ▸ .self⟩
    · exact ⟨x, .operand h⟩

theorem doubled_binary_iff {op : BinaryOp} {a b : Signature} :
    Doubled (.binary op a b) ↔ a.Doubled ∨ b.Doubled := by
  constructor
  · intro h
    obtain ⟨x, h⟩ := h
    cases h with
    | lhs h => exact Or.inl ⟨x, h⟩
    | rhs h => exact Or.inr ⟨x, h⟩
  · intro h
    rcases h with ⟨x, h⟩ | ⟨x, h⟩
    · exact ⟨x, .lhs h⟩
    · exact ⟨x, .rhs h⟩

/-- The search finds `^^{X}` exactly when it stands in a signature that is still to be
visited. -/
theorem findsDoubleComplement_iff (pending : List Signature) :
    findsDoubleComplement pending = true ↔ ∃ s ∈ pending, s.Doubled := by
  fun_induction findsDoubleComplement pending with
  | case1 => simp only [Bool.false_eq_true, List.not_mem_nil, false_and, exists_false]
  | case2 s rest hs =>
    obtain ⟨x, rfl⟩ := isDoubleComplement_iff.mp hs
    exact iff_of_true rfl ⟨_, List.mem_cons_self, x, .self⟩
  | case3 rest x _ ih =>
    simp only [ih, List.mem_cons, exists_eq_or_imp, not_doubled_set, false_or]
  | case4 rest _ ih =>
    simp only [ih, List.mem_cons, exists_eq_or_imp, not_doubled_empty, false_or]
  | case5 rest _ ih =>
    simp only [ih, List.mem_cons, exists_eq_or_imp, not_doubled_universal, false_or]
  | case6 rest s hs ih =>
    simp only [ih, List.mem_cons, exists_eq_or_imp, doubled_complement_iff,
      iff_false_intro hs, false_or]
  | case7 rest op a b _ ih =>
    simp only [ih, List.mem_cons, exists_eq_or_imp, doubled_binary_iff, or_assoc]

theorem hasDoubleComplement_iff {s : Signature} :
    s.hasDoubleComplement = true ↔ s.Doubled := by
  rw [hasDoubleComplement, findsDoubleComplement_iff]
  simp only [List.mem_singleton, exists_eq_left]

end Signature

namespace Law

open Signature

/-- Two symmetric operators are the union and the intersection. -/
theorem eq_of_isSymmetric {op : BinaryOp} (h : op.isSymmetric = true) :
    op = .union ∨ op = .intersection := by
  cases op with
  | union => exact Or.inl rfl
  | intersection => exact Or.inr rfl
  | difference => exact absurd h Bool.false_ne_true

theorem eq_of_isDual {outer inner : BinaryOp} (h : outer.isDual inner = true) :
    outer = .union ∧ inner = .intersection ∨ outer = .intersection ∧ inner = .union := by
  revert h
  cases outer <;> cases inner <;> decide

theorem emptyComplement_iff {s : Signature} :
    s.isEmptyComplement = true ↔ Shape .emptyComplement s := by
  constructor
  · intro h
    unfold isEmptyComplement at h
    split at h
    · obtain rfl := of_decide_eq_true h
      exact .emptyComplement _
    · obtain rfl := of_decide_eq_true h
      exact .emptyDoubleComplement _
    · exact absurd h Bool.false_ne_true
  · intro h
    cases h <;> exact decide_eq_true rfl

theorem universalComplement_iff {s : Signature} :
    s.isUniversalComplement = true ↔ Shape .universalComplement s := by
  constructor
  · intro h
    unfold isUniversalComplement at h
    split at h
    · obtain rfl := of_decide_eq_true h
      exact .universalComplement _
    · exact absurd h Bool.false_ne_true
  · intro h
    cases h
    exact decide_eq_true rfl

theorem idempotence_iff {s : Signature} :
    s.isIdempotence = true ↔ Shape .idempotence s := by
  constructor
  · intro h
    unfold isIdempotence at h
    split at h
    · obtain ⟨hop, hx⟩ := Bool.and_eq_true_iff.mp h
      obtain rfl := of_decide_eq_true hx
      exact .idempotence hop _
    · obtain ⟨hop, hx⟩ := Bool.and_eq_true_iff.mp h
      obtain rfl := of_decide_eq_true hx
      exact .idempotenceComplement hop _
    · exact absurd h Bool.false_ne_true
  · intro h
    cases h with
    | idempotence hop x => simp only [isIdempotence, hop, decide_true, Bool.and_self]
    | idempotenceComplement hop x => simp only [isIdempotence, hop, decide_true, Bool.and_self]

theorem selfDifference_iff {s : Signature} :
    s.isSelfDifference = true ↔ Shape .selfDifference s := by
  constructor
  · intro h
    unfold isSelfDifference at h
    split at h
    · obtain rfl := of_decide_eq_true h
      exact .selfDifference _
    · exact absurd h Bool.false_ne_true
  · intro h
    cases h
    exact decide_eq_true rfl

theorem absorption_iff {s : Signature} :
    s.isAbsorption = true ↔ Shape .absorption s := by
  constructor
  · intro h
    unfold isAbsorption at h
    split at h
    · obtain ⟨hop, hx⟩ := Bool.and_eq_true_iff.mp h
      obtain rfl := of_decide_eq_true hx
      exact .absorptionLeft hop _ _
    · obtain ⟨hop, hx⟩ := Bool.and_eq_true_iff.mp h
      obtain rfl := of_decide_eq_true hx
      exact .absorptionRight hop _ _
    · exact absurd h Bool.false_ne_true
  · intro h
    cases h with
    | absorptionLeft hop x y => simp only [isAbsorption, hop, decide_true, Bool.and_self]
    | absorptionRight hop x y => simp only [isAbsorption, hop, decide_true, Bool.and_self]

theorem deMorgan_iff {s : Signature} : s.isDeMorgan = true ↔ Shape .deMorgan s := by
  constructor
  · intro h
    unfold isDeMorgan at h
    split at h
    · exact .deMorgan h _ _
    · exact .deMorganDone h _ _
    · exact absurd h Bool.false_ne_true
  · intro h
    cases h with
    | deMorgan hop x y => exact hop
    | deMorganDone hop x y => exact hop

theorem distributive_iff {s : Signature} :
    s.isDistributive = true ↔ Shape .distributive s := by
  constructor
  · intro h
    unfold isDistributive at h
    split at h
    · exact .distribute _ _ _
    · exact .distributeDone _ _ _
    · obtain rfl := of_decide_eq_true h
      exact .distributeMixed _ _ _
    · obtain rfl := of_decide_eq_true h
      exact .factor _ _ _
    · exact absurd h Bool.false_ne_true
  · intro h
    cases h with
    | distribute x y z => rfl
    | distributeDone x y z => rfl
    | distributeMixed x y z => exact decide_eq_true rfl
    | factor x y z => exact decide_eq_true rfl

theorem associative_iff {s : Signature} :
    s.isAssociative = true ↔ Shape .associative s := by
  constructor
  · intro h
    unfold isAssociative at h
    split at h
    · obtain ⟨hop, hx⟩ := Bool.and_eq_true_iff.mp h
      obtain rfl := of_decide_eq_true hx
      exact .associativeRight hop _ _ _
    · obtain ⟨hop, hx⟩ := Bool.and_eq_true_iff.mp h
      obtain rfl := of_decide_eq_true hx
      exact .associativeLeft hop _ _ _
    · exact absurd h Bool.false_ne_true
  · intro h
    cases h with
    | associativeRight hop x y z => simp only [isAssociative, hop, decide_true, Bool.and_self]
    | associativeLeft hop x y z => simp only [isAssociative, hop, decide_true, Bool.and_self]

theorem commutative_iff {s : Signature} :
    s.isCommutative = true ↔ Shape .commutative s := by
  constructor
  · intro h
    unfold isCommutative at h
    split at h
    · obtain ⟨hop, hx⟩ := Bool.and_eq_true_iff.mp h
      exact .commutative hop (of_decide_eq_true hx)
    · exact absurd h Bool.false_ne_true
  · intro h
    cases h with
    | commutative hop hxy => simp only [isCommutative, hop, decide_eq_true hxy, Bool.and_self]

/-- The matcher accepts exactly the shapes. -/
theorem fits_iff (law : Law) (s : Signature) : law.fits s = true ↔ Shape law s := by
  cases law with
  | doubleComplement =>
    refine hasDoubleComplement_iff.trans ⟨.doubleComplement, fun h => ?_⟩
    cases h with
    | doubleComplement h => exact h
  | emptyComplement => exact emptyComplement_iff
  | universalComplement => exact universalComplement_iff
  | idempotence => exact idempotence_iff
  | selfDifference => exact selfDifference_iff
  | absorption => exact absorption_iff
  | deMorgan => exact deMorgan_iff
  | distributive => exact distributive_iff
  | associative => exact associative_iff
  | commutative => exact commutative_iff

theorem shape_of_detect {law : Law} {s : Signature} (h : detect s = some law) : law.Shape s := by
  rw [detect] at h
  have hfits := List.find?_some (p := fun law : Law => law.fits s) h
  exact (fits_iff law s).mp hfits

theorem mem_all (law : Law) : law ∈ all := by
  cases law <;> decide

/-- Where some law has a shape, one is detected. -/
theorem exists_detect_of_shape {law : Law} {s : Signature} (h : law.Shape s) :
    ∃ first, detect s = some first ∧ first.Shape s := by
  cases hdetect : detect s with
  | none =>
    have hnone := List.find?_eq_none.mp hdetect law (mem_all law)
    exact absurd ((fits_iff law s).mpr h) hnone
  | some first => exact ⟨first, rfl, shape_of_detect hdetect⟩

-- A law that is about any part of a signature comes before those about the whole.
example : detect (.binary .union (.set "A") (.complement (.complement (.set "A")))) =
    some .doubleComplement := by
  decide +kernel

end Law
end SetLaws
