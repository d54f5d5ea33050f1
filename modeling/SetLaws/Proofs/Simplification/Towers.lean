import SetLaws.Proofs.Simplification.Sequences

/-!
# Towers of complements

A pass that drops double complements takes the two innermost complements off every tower over a
named set.  The guard against circles lets two such passes through and no third one, so what is
left of a tower is what stands above its four innermost complements.
-/

namespace SetLaws
namespace Signature

/-- A named set under a number of complements. -/
def tower : Nat → String → Signature
  | 0, x => .set x
  | n + 1, x => .complement (tower n x)

/-- The signature without its double complements, if there are any. -/
def dropped (s : Signature) : Signature :=
  s.dropDoubleComplements.getD s

section

variable {p q s : Signature} {op : BinaryOp} {a b : Signature} {m n : Nat} {x : String}

theorem tokenCount_tower (n : Nat) (x : String) : (tower n x).tokenCount = n + 1 := by
  induction n with
  | zero => rfl
  | succ n ih =>
    rw [tower, tokenCount, ih]
    omega

theorem PartOf.tokenCount_le (h : PartOf p s) : p.tokenCount ≤ s.tokenCount := by
  induction h with
  | self => exact Nat.le_refl _
  | operand _ ih | lhs _ ih | rhs _ ih =>
    simp only [tokenCount]
    omega

theorem not_partOf_tower (h : s.tokenCount ≤ n) : ¬ PartOf (tower n x) s := by
  intro hpart
  have := hpart.tokenCount_le
  rw [tokenCount_tower] at this
  omega

theorem PartOf.trans (hpq : PartOf p q) (hqs : PartOf q s) : PartOf p s := by
  induction hqs with
  | self => exact hpq
  | operand _ ih => exact .operand ih
  | lhs _ ih => exact .lhs ih
  | rhs _ ih => exact .rhs ih

theorem partOf_tower_of_le (x : String) (h : m ≤ n) : PartOf (tower m x) (tower n x) := by
  induction h with
  | refl => exact .self
  | step _ ih => exact .operand ih

theorem PartOf.doubled (h : PartOf (tower n x) s) (hn : 2 ≤ n) : s.Doubled :=
  ⟨x, (partOf_tower_of_le x hn).trans h⟩

theorem partOf_tower_complement_iff :
    PartOf (tower (n + 1) x) (complement s) ↔ tower n x = s ∨ PartOf (tower (n + 1) x) s := by
  constructor
  · intro h
    -- A tower is no constructor term, so the cases are split over a variable in its place.
    generalize htop : tower (n + 1) x = top at h ⊢
    cases h with
    | self => exact Or.inl (complement.inj htop)
    | operand h => exact Or.inr h
  · rintro (rfl | h)
    · exact .self
    · exact .operand h

theorem partOf_tower_binary_iff :
    PartOf (tower n x) (binary op a b) ↔ PartOf (tower n x) a ∨ PartOf (tower n x) b := by
  constructor
  · intro h
    generalize htop : tower n x = top at h ⊢
    cases h with
    | self => cases n <;> cases htop
    | lhs h => exact Or.inl h
    | rhs h => exact Or.inr h
  · rintro (h | h)
    · exact .lhs h
    · exact .rhs h

/-! ### One pass -/

theorem dropped_complement (h : ∀ x, s ≠ complement (set x)) :
    (complement s).dropped = complement s.dropped := by
  rw [dropped, dropped, dropDoubleComplements_complement h]
  cases s.dropDoubleComplements <;> rfl

theorem dropped_binary (op : BinaryOp) (a b : Signature) :
    (binary op a b).dropped = binary op a.dropped b.dropped := by
  rw [dropped, dropped, dropped, dropDoubleComplements]
  cases a.dropDoubleComplements <;> cases b.dropDoubleComplements <;> rfl

/-- A pass makes a tower of a tower that is higher by two, and leaves those alone that have one
complement or none. -/
theorem dropped_eq_tower_iff :
    s.dropped = tower n x ↔ s = tower (n + 2) x ∨ n ≤ 1 ∧ s = tower n x := by
  induction s generalizing n with
  | set y => cases n <;> simp [dropped, dropDoubleComplements, tower]
  | empty | universal => cases n <;> simp [dropped, dropDoubleComplements, tower]
  | binary op a b => cases n <;> simp [dropped_binary, tower]
  | complement s ih =>
    by_cases hs : ∃ y, s = complement (set y)
    · obtain ⟨y, rfl⟩ := hs
      rcases n with _ | _ | n <;> simp [dropped, dropDoubleComplements, tower]
    · have hne : s ≠ complement (set x) := not_exists.mp hs x
      rw [dropped_complement (not_exists.mp hs)]
      -- A single complement over `{x}` would be left alone, but it is excluded here.
      rcases n with _ | n
      · simp [tower, hne]
      · simp only [tower, complement.injEq, ih]
        refine or_congr_right ⟨?_, fun h => ⟨by omega, h.2⟩⟩
        rintro ⟨hn, rfl⟩
        have : n ≠ 1 := fun h => hne (h ▸ rfl)
        exact ⟨by omega, rfl⟩

/-- A pass lowers every tower of at least four complements by two. -/
theorem partOf_tower_dropped_iff (hn : 2 ≤ n) :
    PartOf (tower n x) s.dropped ↔ PartOf (tower (n + 2) x) s := by
  induction s with
  | set | empty | universal =>
    have hone : 1 ≤ n := by omega
    exact iff_of_false (not_partOf_tower hone) (not_partOf_tower (Nat.le_add_right_of_le hone))
  | binary op a b iha ihb =>
    rw [dropped_binary, partOf_tower_binary_iff, partOf_tower_binary_iff]
    exact or_congr iha ihb
  | complement s ih =>
    obtain ⟨n, rfl⟩ : ∃ m, n = m + 1 := ⟨n - 1, by omega⟩
    by_cases hs : ∃ y, s = complement (set y)
    · obtain ⟨y, rfl⟩ := hs
      have hthree : 3 ≤ n + 1 + 2 := by omega
      have hone : (set y).tokenCount ≤ n + 1 := Nat.le_add_left 1 n
      exact iff_of_false (not_partOf_tower hone) (not_partOf_tower hthree)
    · rw [dropped_complement (not_exists.mp hs), partOf_tower_complement_iff,
        partOf_tower_complement_iff]
      refine or_congr ?_ ih
      rw [eq_comm, dropped_eq_tower_iff, eq_comm (b := s)]
      refine ⟨fun h => h.resolve_right ?_, Or.inl⟩
      rintro ⟨hle, rfl⟩
      obtain rfl : n = 1 := by omega
      exact hs ⟨x, rfl⟩

end

/-! ### All passes -/

theorem rewrites_dropped {s : Signature} (hs : s.Doubled) :
    Law.doubleComplement.Rewrites s s.dropped := by
  obtain ⟨t, ht⟩ := Option.isSome_iff_exists.mp ((isSome_dropDoubleComplements_iff s).mpr hs)
  have hshorter := tokenCount_lt_of_dropDoubleComplements ht
  have hdropped : s.dropped = t := by rw [dropped, ht, Option.getD_some]
  rw [hdropped]
  refine ⟨detect_of_doubled hs, ht, ?_⟩
  rintro rfl
  omega

end Signature

open Signature

/-- No law makes a double complement where there is none. -/
theorem Law.Rewrites.not_doubled {law : Law} {s t : Signature} (h : law.Rewrites s t)
    (hs : ¬ s.Doubled) : ¬ t.Doubled := by
  cases h.turns with
  | dropped hdrop =>
    have hdoubled :=
      (isSome_dropDoubleComplements_iff s).mp (Option.isSome_iff_exists.mpr ⟨t, hdrop⟩)
    exact absurd hdoubled hs
  | _ =>
    simp only [doubled_binary_iff, not_doubled_set, not_doubled_empty, not_doubled_universal,
      not_doubled_complement_set, or_self, not_false_eq_true]

namespace Signature

section

variable {laws : List Law} {previous : Option Law} {s t : Signature} {n : Nat} {x : String}

theorem Settles.not_doubled (h : Settles previous s laws t) (hs : ¬ s.Doubled) : ¬ t.Doubled := by
  induction h with
  | settled => exact hs
  | circling first => exact first.not_doubled hs
  | step first _ _ ih => exact ih (first.not_doubled hs)

/-- The third pass would be the third in a row by one law, and the guard does not let it begin. -/
theorem Settles.partOf_tower_iff (h : Settles none s laws t) (hn : 2 ≤ n) :
    PartOf (tower n x) t ↔ PartOf (tower (n + 4) x) s := by
  have hlowered : PartOf (tower n x) s.dropped.dropped ↔ PartOf (tower (n + 4) x) s := by
    rw [partOf_tower_dropped_iff hn, partOf_tower_dropped_iff (by omega)]
  have hnone : ∀ {u : Signature} {m : Nat}, 2 ≤ m → ¬ u.Doubled → ¬ PartOf (tower m x) u :=
    fun hm hu hpart => hu (hpart.doubled hm)
  by_cases hs : s.Doubled
  · cases h with
    | settled hsettled => exact absurd (rewrites_dropped hs) (hsettled _ _)
    | circling first hrepeats =>
      obtain rfl := eq_doubleComplement_of_rewrites first hs
      cases hrepeats
    | @step _ _ _ u _ _ first _ rest =>
      obtain rfl := eq_doubleComplement_of_rewrites first hs
      obtain rfl : u = s.dropped := first.eq (rewrites_dropped hs).transformed
      by_cases hd : s.dropped.Doubled
      · cases rest with
        | settled hsettled => exact absurd (rewrites_dropped hd) (hsettled _ _)
        | circling second =>
          obtain rfl := eq_doubleComplement_of_rewrites second hd
          rw [second.eq (rewrites_dropped hd).transformed]
          exact hlowered
        | step second hrepeats =>
          obtain rfl := eq_doubleComplement_of_rewrites second hd
          cases hrepeats
      · refine iff_of_false (hnone hn (rest.not_doubled hd)) fun hpart => ?_
        rw [← partOf_tower_dropped_iff (by omega)] at hpart
        exact hnone (by omega) hd hpart
  · exact iff_of_false (hnone hn (h.not_doubled hs)) (hnone (by omega) hs)

theorem three_le_tokenCount_of_shape {law : Law} (h : law.Shape s) : 3 ≤ s.tokenCount := by
  cases h with
  | doubleComplement h =>
    obtain ⟨x, h⟩ := h
    exact h.tokenCount_le
  | _ => simp [tokenCount]

/-- There are no more passes than there are tokens. -/
theorem exists_settles_within (s : Signature) :
    ∃ laws t, Settles none s laws t ∧ laws.length ≤ s.tokenCount := by
  by_cases hthree : 3 ≤ s.tokenCount
  · obtain ⟨laws, t, hsettles, hlaws⟩ := exists_settles s
    refine ⟨laws, t, hsettles, Nat.le_trans ?_ hthree⟩
    rcases hlaws with rfl | ⟨rest, hrest, rfl | rfl⟩
    · decide
    · exact Nat.le_succ_of_le (Law.length_le_of_mem_sequences _ hrest)
    · exact Nat.succ_le_succ (Law.length_le_of_mem_sequences _ hrest)
  · refine ⟨[], s, .settled ?_, Nat.zero_le _⟩
    exact isSettled_of_forall_not_shape fun law h => hthree (three_le_tokenCount_of_shape h)

end

/-- With as many passes allowed as there are tokens, a double complement over a name is left
exactly where six complements stand over that name. -/
theorem simplify_doubled_iff (s : Signature) (passes : Nat) (journal : List Law)
    (h : s.tokenCount ≤ passes) (x : String) :
    PartOf (complement (complement (set x))) (s.simplify passes journal).1.simplified ↔
      PartOf (tower 6 x) s := by
  obtain ⟨laws, t, hsettles, hlength⟩ := exists_settles_within s
  rw [hsettles.simplify_eq (Nat.le_trans hlength h)]
  exact hsettles.partOf_tower_iff (n := 2) (Nat.le_refl 2)

/-- Of seven complements three are left, and of five a single one. -/
theorem simplify_doubled_iff_union :
    let high := binary .union (set "B") (tower 7 "A")
    let low := binary .union (set "B") (tower 5 "A")
    high.tokenCount ≤ 10 ∧ low.tokenCount ≤ 10 ∧
      PartOf (complement (complement (set "A"))) (high.simplify 10 []).1.simplified ∧
      ¬ PartOf (complement (complement (set "A"))) (low.simplify 10 []).1.simplified := by
  intro high low
  have hhigh : high.tokenCount ≤ 10 := by decide
  have hlow : low.tokenCount ≤ 10 := by decide
  refine ⟨hhigh, hlow, (simplify_doubled_iff high 10 [] hhigh "A").mpr (.rhs (.operand .self)), ?_⟩
  rw [simplify_doubled_iff low 10 [] hlow "A", partOf_tower_binary_iff]
  exact not_or.mpr ⟨not_partOf_tower (by decide), not_partOf_tower (by decide)⟩

/-- The guard stops the passes before the third pair of complements is dropped. -/
theorem not_forall_simplify_not_doubled :
    ¬ ∀ (s : Signature) (passes : Nat), s.tokenCount ≤ passes →
      ¬ (s.simplify passes []).1.simplified.Doubled := by
  intro h
  have hleft : ((tower 6 "A").simplify 7 []).1.simplified = tower 2 "A" := by decide +kernel
  refine h (tower 6 "A") 7 (by decide) ?_
  rw [hleft]
  exact ⟨"A", .self⟩

end Signature
end SetLaws
