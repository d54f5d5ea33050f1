import SetLaws.Proofs.Simplification.Derivation

/-!
# Passes without a bound

What a simplification would come to if the number of its passes had no bound.  With a bound
the passes are the first ones of these, and a bound that is not reached makes no difference.
-/

namespace SetLaws

theorem Law.Rewrites.eq {law : Law} {s t u : Signature} (h : law.Rewrites s t)
    (hu : law.transform s = some u) : t = u :=
  Option.some.inj (h.transformed.symm.trans hu)

namespace Signature

/-- No law changes the signature. -/
def IsSettled (s : Signature) : Prop :=
  ∀ (law : Law) (t : Signature), ¬ law.Rewrites s t

theorem isSettled_or_exists_rewrites (s : Signature) :
    s.IsSettled ∨ ∃ (law : Law) (t : Signature), law.Rewrites s t := by
  by_cases h : ∃ (law : Law) (t : Signature), law.Rewrites s t
  · exact Or.inr h
  · exact Or.inl fun law t hrewrites => h ⟨law, t, hrewrites⟩

/-- The passes lead from one signature to another, and then no law changes it or the passes
go in circles.  `previous` is the law of the pass before them. -/
inductive Settles : Option Law → Signature → List Law → Signature → Prop where
  | settled {previous : Option Law} {s : Signature} (h : s.IsSettled) : Settles previous s [] s
  | circling {previous : Option Law} {law : Law} {s t : Signature} (first : law.Rewrites s t)
      (h : law.repeats previous = true) : Settles previous s [law] t
  | step {previous : Option Law} {law : Law} {s t u : Signature} {laws : List Law}
      (first : law.Rewrites s t) (h : law.repeats previous = false)
      (rest : Settles (some law) t laws u) : Settles previous s (law :: laws) u

section

variable {previous : Option Law} {law : Law} {s t u : Signature} {laws : List Law}

theorem runPasses_of_isSettled (h : s.IsSettled) (passes : Nat) (journal : List Law) :
    runPasses passes previous s journal = (s, [], journal) := by
  obtain ⟨hderives, hjournal⟩ := runPasses_derives passes previous s journal
  generalize runPasses passes previous s journal = result at hderives hjournal
  obtain ⟨t, laws, after⟩ := result
  cases hderives with
  | done => rw [show after = journal from hjournal.trans (List.append_nil journal)]
  | step first => exact absurd first (h _ _)

theorem runPasses_of_rewrites (h : law.Rewrites s t) (passes : Nat) (journal : List Law) :
    runPasses (passes + 1) previous s journal =
      if law.repeats previous then (t, [law], journal ++ [law])
      else
        let (u, laws, journal) := runPasses passes (some law) t (journal ++ [law])
        (u, law :: laws, journal) := by
  have happly : law.apply s journal = (some t, journal ++ [law]) :=
    Law.apply_eq_some_iff.mpr ⟨h.transformed, h.changed, rfl⟩
  rw [runPasses, h.detected]
  simp only [happly]

/-- A bound cuts the passes off. -/
theorem Settles.laws_eq_take (h : Settles previous s laws t) (passes : Nat)
    (journal : List Law) : (runPasses passes previous s journal).2.1 = laws.take passes := by
  induction h generalizing passes journal with
  -- No pass is made, whatever the bound.
  | settled h => rw [runPasses_of_isSettled h, List.take_nil]
  | circling first h =>
    cases passes with
    | zero => rfl
    | succ passes => rw [runPasses_of_rewrites first, if_pos h, List.take_succ_cons, List.take_nil]
  | @step previous law s t u laws first h _ ih =>
    cases passes with
    | zero => rfl
    | succ passes =>
      rw [runPasses_of_rewrites first, if_neg (by simp [h]), List.take_succ_cons, ← ih]

/-- A bound that is not reached makes no difference. -/
theorem Settles.runPasses_eq (h : Settles previous s laws t) {passes : Nat}
    (hpasses : laws.length ≤ passes) (journal : List Law) :
    runPasses passes previous s journal = (t, laws, journal ++ laws) := by
  induction h generalizing passes journal with
  | settled h => rw [runPasses_of_isSettled h, List.append_nil]
  | circling first h =>
    obtain ⟨passes, rfl⟩ : ∃ n, passes = n + 1 := ⟨passes - 1, by simp at hpasses; omega⟩
    rw [runPasses_of_rewrites first, if_pos h]
  | @step previous law s t u laws first h _ ih =>
    rw [List.length_cons] at hpasses
    obtain ⟨passes, rfl⟩ : ∃ n, passes = n + 1 := ⟨passes - 1, by omega⟩
    rw [runPasses_of_rewrites first, if_neg (by simp [h]), ih (by omega), List.append_assoc,
      List.singleton_append]

theorem Settles.laws_simplify (h : Settles none s laws t) (passes : Nat) (journal : List Law) :
    (s.simplify passes journal).1.laws = laws.take passes := by
  rw [simplify_eq_runPasses]
  exact h.laws_eq_take passes journal

theorem Settles.simplify_eq (h : Settles none s laws t) {passes : Nat}
    (hpasses : laws.length ≤ passes) (journal : List Law) :
    s.simplify passes journal = (⟨s, t, laws⟩, journal ++ laws) := by
  rw [simplify_eq_runPasses, h.runPasses_eq hpasses]

end

end Signature
end SetLaws
