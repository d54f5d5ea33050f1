import SetLaws.Proofs.Law.Shape
import SetLaws.Proofs.Simplification.Passes

/-!
# Derivations

The passes of a simplification as a derivation: each step transforms by the law that
is detected.  When the passes stop is left out, so what holds for every derivation
holds whatever the bound on the passes and the guard against circles are.
-/

namespace SetLaws
namespace Law

/-- The law is the detected one, and it transforms the signature into another. -/
structure Rewrites (law : Law) (s t : Signature) : Prop where
  detected : detect s = some law
  transformed : law.transform s = some t
  changed : t ≠ s

/-- A law that rewrites a signature fits it. -/
theorem Rewrites.shape {law : Law} {s t : Signature} (h : law.Rewrites s t) : law.Shape s :=
  shape_of_detect h.detected

/-- An application succeeds when the law changes the signature, and then the law is
noted. -/
theorem apply_eq_some_iff {law : Law} {s t : Signature} {journal after : List Law} :
    law.apply s journal = (some t, after) ↔
      law.transform s = some t ∧ t ≠ s ∧ after = journal ++ [law] := by
  unfold apply
  cases htransform : law.transform s with
  | none => simp only [Prod.mk.injEq, reduceCtorEq, false_and]
  | some u =>
    by_cases hus : u = s
    · simp only [hus, if_true, Prod.mk.injEq, Option.some.injEq, reduceCtorEq, false_and, false_iff]
      intro h
      obtain ⟨rfl, hne, _⟩ := h
      exact hne rfl
    · simp only [hus, if_false, Prod.mk.injEq, Option.some.injEq]
      constructor
      · intro h
        obtain ⟨rfl, rfl⟩ := h
        exact ⟨rfl, hus, rfl⟩
      · intro h
        obtain ⟨rfl, _, rfl⟩ := h
        exact ⟨rfl, rfl⟩

/-- An application that fails notes nothing. -/
theorem apply_eq_none {law : Law} {s : Signature} {journal after : List Law}
    (h : law.apply s journal = (none, after)) : after = journal := by
  unfold apply at h
  cases htransform : law.transform s with
  | none =>
    rw [htransform] at h
    exact (Prod.mk.inj h).2.symm
  | some u =>
    rw [htransform] at h
    dsimp only at h
    split at h
    · exact (Prod.mk.inj h).2.symm
    · exact absurd (Prod.mk.inj h).1 (Option.some_ne_none u)

/-- What the journal holds already has no influence on an application. -/
theorem apply_append (law : Law) (s : Signature) (journal more : List Law) :
    law.apply s (more ++ journal) =
      ((law.apply s journal).1, more ++ (law.apply s journal).2) := by
  unfold apply
  cases law.transform s with
  | none => rfl
  | some t =>
    by_cases hts : t = s
    · simp only [hts, if_true]
    · simp only [hts, if_false, List.append_assoc]

end Law

namespace Signature

/-- The laws lead from one signature to another, each detected where it is applied. -/
inductive Derives : Signature → List Law → Signature → Prop where
  | done (s : Signature) : Derives s [] s
  | step {law : Law} {s t u : Signature} {laws : List Law} (first : law.Rewrites s t)
      (rest : Derives t laws u) : Derives s (law :: laws) u

/-- Passes follow a derivation, and add its laws to the journal. -/
theorem runPasses_derives (passes : Nat) (previous : Option Law) (s : Signature)
    (journal : List Law) :
    let result := runPasses passes previous s journal
    s.Derives result.2.1 result.1 ∧ result.2.2 = journal ++ result.2.1 := by
  fun_induction runPasses passes previous s journal with
  | case1 => exact ⟨.done _, (List.append_nil _).symm⟩
  | case2 => exact ⟨.done _, (List.append_nil _).symm⟩
  | case3 passes previous s journal law hdetect after happly =>
    obtain rfl := Law.apply_eq_none happly
    exact ⟨.done s, (List.append_nil _).symm⟩
  | case4 passes previous s journal law hdetect t after happly hrepeats =>
    obtain ⟨htransform, hchanged, rfl⟩ := Law.apply_eq_some_iff.mp happly
    exact ⟨.step ⟨hdetect, htransform, hchanged⟩ (.done t), rfl⟩
  | case5 passes previous s journal law hdetect t after happly hrepeats u laws last hrun ih =>
    obtain ⟨htransform, hchanged, rfl⟩ := Law.apply_eq_some_iff.mp happly
    rw [hrun] at ih
    obtain ⟨hderives, hlast⟩ := ih
    exact ⟨.step ⟨hdetect, htransform, hchanged⟩ hderives, by
      rw [hlast, List.append_assoc, List.singleton_append]⟩

/-- What the journal holds already has no influence on the passes. -/
theorem runPasses_append (passes : Nat) (previous : Option Law) (s : Signature)
    (journal more : List Law) :
    let result := runPasses passes previous s journal
    runPasses passes previous s (more ++ journal) = (result.1, result.2.1, more ++ result.2.2) := by
  induction passes generalizing previous s journal with
  | zero => rfl
  | succ passes ih =>
    dsimp only at ih ⊢
    rw [runPasses, runPasses]
    cases Law.detect s with
    | none => rfl
    | some law =>
      simp only [Law.apply_append]
      cases law.apply s journal with
      | mk changed after =>
        cases changed with
        | none => rfl
        | some t =>
          simp only [ih]
          split <;> rfl

theorem simplify_append (s : Signature) (passes : Nat) (journal more : List Law) :
    s.simplify passes (more ++ journal) =
      ((s.simplify passes journal).1, more ++ (s.simplify passes journal).2) := by
  simp only [simplify_eq_runPasses, runPasses_append]

/-- A simplification records a derivation from the signature that it was given. -/
theorem simplify_derives (s : Signature) (passes : Nat) (journal : List Law) :
    s.Derives (s.simplify passes journal).1.laws (s.simplify passes journal).1.simplified := by
  rw [simplify_eq_runPasses]
  exact (runPasses_derives passes none s journal).1

/-- The journal is continued with the laws of the simplification. -/
theorem simplify_eq (s : Signature) (passes : Nat) (journal : List Law) :
    s.simplify passes journal =
      ((s.simplify passes []).1, journal ++ (s.simplify passes []).1.laws) := by
  have hlaws : (s.simplify passes []).2 = (s.simplify passes []).1.laws := by
    rw [simplify_eq_runPasses]
    exact (runPasses_derives passes none s []).2
  have happend := simplify_append s passes [] journal
  rw [List.append_nil] at happend
  rw [happend, hlaws]

end Signature
end SetLaws
