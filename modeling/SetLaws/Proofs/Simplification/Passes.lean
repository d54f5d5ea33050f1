import SetLaws.Simplification

/-!
# The passes of a simplification

The passes record their laws one after the other, and look at all that are recorded to tell
whether they go in circles.  They do so exactly when a law is applied twice in a row or a swap is
made.  So the laws of the passes that follow do not depend on those recorded before, and can be
listed by a recursion on the passes alone.
-/

namespace SetLaws

/-- Whether a law is applied for a second time in a row, or would be in the next pass. -/
def Law.repeats (law : Law) (previous : Option Law) : Bool :=
  law = .commutative || previous = some law

/-- After a pass some law is recorded, so two laws in a row are more than one. -/
theorem Law.circles_eq_repeats (law : Law) {previous : Option Law} {laws : List Law}
    (h : previous = none ∨ laws ≠ []) :
    law.circles previous (laws ++ [law]) = law.repeats previous := by
  rw [circles, repeats]
  by_cases hsame : previous = some law
  · have hlaws : laws ≠ [] := h.resolve_left (hsame ▸ Option.some_ne_none law)
    have hlength : 1 < (laws ++ [law]).length := by
      have hpositive := List.length_pos_iff.mpr hlaws
      rw [List.length_append, List.length_singleton]
      omega
    simp only [hsame, hlength, decide_true, Bool.and_true, Bool.or_true, ite_self]
  · simp only [hsame, decide_false, Bool.false_and, Bool.or_false]
    cases law <;> rfl

namespace Signature

/-- At most the given number of passes: the signature they lead to, the laws
applied, and the journal to which each law was added when it was applied. -/
def runPasses : Nat → Option Law → Signature → List Law → Signature × List Law × List Law
  | 0, _, s, journal => (s, [], journal)
  | passes + 1, previous, s, journal =>
    match Law.detect s with
    | none => (s, [], journal)
    | some law =>
      match law.apply s journal with
      | (none, journal) => (s, [], journal)
      | (some t, journal) =>
        if law.repeats previous then (t, [law], journal)
        else
          let (u, laws, journal) := runPasses passes (some law) t journal
          (u, law :: laws, journal)

/-- The laws of further passes come behind those that are recorded. -/
theorem applyLaws_eq (passes : Nat) (previous : Option Law) (laws : List Law) (s : Signature)
    (journal : List Law) (h : previous = none ∨ laws ≠ []) :
    let result := runPasses passes previous s journal
    applyLaws passes previous laws s journal = (result.1, laws ++ result.2.1, result.2.2) := by
  induction passes generalizing previous laws s journal with
  | zero => simp only [applyLaws, runPasses, List.append_nil]
  | succ passes ih =>
    rw [applyLaws, runPasses]
    cases Law.detect s with
    | none => simp only [List.append_nil]
    | some law =>
      dsimp only
      cases law.apply s journal with
      | mk changed after =>
        cases changed with
        | none => simp only [List.append_nil]
        | some t =>
          have hrest := ih (some law) (laws ++ [law]) t after
            (.inr (List.append_ne_nil_of_right_ne_nil laws (List.cons_ne_nil law [])))
          dsimp only at hrest ⊢
          rw [law.circles_eq_repeats h, hrest]
          cases law.repeats previous with
          | true => rfl
          | false => simp

theorem simplify_eq_runPasses (s : Signature) (passes : Nat) (journal : List Law) :
    let result := runPasses passes none s journal
    s.simplify passes journal = (⟨s, result.1, result.2.1⟩, result.2.2) := by
  have hrun := applyLaws_eq passes none [] s journal (.inl rfl)
  dsimp only at hrun ⊢
  rw [simplify, hrun, List.nil_append]

end Signature
end SetLaws
