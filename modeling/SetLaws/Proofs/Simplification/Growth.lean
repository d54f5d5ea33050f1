import SetLaws.Proofs.Simplification.Sequences

/-!
# How far a signature grows

Two laws make a signature longer: one by a complement, the other by a repeated operand.  Of two
turns in a row the second takes back what the first has added, so only a single turn can leave the
signature longer.  No turn invents a name.
-/

namespace SetLaws
namespace Law

open Signature

/-- The number of tokens by which a law can make a signature longer. -/
def growth : Law → Nat
  | .deMorgan => 1
  | .distributive => 2
  | _ => 0

theorem growth_le (law : Law) : law.growth ≤ 2 := by
  cases law <;> decide

variable {law next : Law} {s t u : Signature}

theorem Turns.tokenCount_le (h : law.Turns s t) : t.tokenCount ≤ s.tokenCount + law.growth := by
  cases h with
  | dropped h => exact Nat.le_of_lt (tokenCount_lt_of_dropDoubleComplements h)
  | _ => simp [tokenCount, growth]

/-- The second of two turns takes away what the first one adds. -/
theorem Turns.tokenCount_le_of_turns (h : law.Turns s t) (hnext : next.Turns t u) :
    u.tokenCount ≤ s.tokenCount := by
  cases h with
  | dropped h =>
    -- Nothing is known of what is left, but two tokens less are enough for any law that follows.
    have hshorter := tokenCount_add_two_le_of_dropDoubleComplements h
    have hlonger := hnext.tokenCount_le
    have hgrowth := next.growth_le
    omega
  | _ =>
    cases hnext with
    | dropped h => cases h
    | _ => simp [tokenCount]

theorem rewrites_factored (x y z : String) : Law.distributive.Rewrites
    (binary .intersection (binary .union (set x) (set y)) (binary .union (set x) (set z)))
    (binary .union (set x) (binary .intersection (set y) (set z))) := by
  obtain ⟨law, hdetect, hshape⟩ := exists_detect_of_shape (.factor x y z)
  cases hshape with
  | doubleComplement h => simp [doubled_binary_iff, not_doubled_set] at h
  | factor => exact rewrites_iff.mpr ⟨hdetect, .factored x y z⟩

/-- A turn on its own can only add a complement, as no distribution is left on its own. -/
theorem Turns.tokenCount_le_of_isSettled (h : law.Turns s t)
    (ht : law = .distributive → t.IsSettled) :
    t.tokenCount ≤ s.tokenCount + 1 ∧
      (t.tokenCount = s.tokenCount + 1 ↔ law = .deMorgan) := by
  cases h with
  | dropped h =>
    have hshorter := tokenCount_lt_of_dropDoubleComplements h
    exact ⟨by omega, iff_of_false (by omega) (by decide)⟩
  | distributed x y z => exact absurd (rewrites_factored x y z) (ht rfl _ _)
  | _ => simp [tokenCount]

end Law

namespace Signature

open Law

section

variable {s t : Signature} {laws : List Law}

theorem Derives.operands_subset (h : s.Derives laws t) : ∀ x ∈ t.operands, x ∈ s.operands := by
  induction h with
  | done => exact fun x hx => hx
  | step first _ ih => exact fun x hx => first.turns.operands_subset x (ih x hx)

theorem Derives.operands_eq (h : s.Derives laws t) (hlaws : ∀ law ∈ laws, law = .doubleComplement) :
    t.operands = s.operands := by
  induction h with
  | done => rfl
  | step first _ ih =>
    rw [List.forall_mem_cons] at hlaws
    obtain ⟨rfl, hrest⟩ := hlaws
    rw [ih hrest, operands_of_dropDoubleComplements first.transformed]

/-- Turns are taken two by two, so one is left at most. -/
theorem Derives.tokenCount_le_add_two : {s t : Signature} → {laws : List Law} →
    s.Derives laws t → t.tokenCount ≤ s.tokenCount + 2
  | s, _, _, .done _ => Nat.le_add_right s.tokenCount 2
  | s, t, [law], .step first (.done _) => by
    have hle := first.turns.tokenCount_le
    have hgrowth := law.growth_le
    omega
  | s, t, _, .step first (.step second rest) => by
    have hle := first.turns.tokenCount_le_of_turns second.turns
    have hrest := rest.tokenCount_le_add_two
    omega

/-- Three laws are applied only when the first one drops double complements. -/
theorem exists_settles_of_length (s : Signature) : ∃ laws t, Settles none s laws t ∧
    (laws.length ≤ 2 ∨ ∃ rest, laws = .doubleComplement :: rest ∧ rest.length ≤ 2) := by
  obtain ⟨laws, t, hsettles, hlaws⟩ := exists_settles s
  refine ⟨laws, t, hsettles, ?_⟩
  rcases hlaws with rfl | ⟨rest, hrest, rfl | rfl⟩
  · exact Or.inl (by decide)
  · exact Or.inl (length_le_of_mem_sequences _ hrest)
  · exact Or.inr ⟨rest, rfl, length_le_of_mem_sequences _ hrest⟩

/-- Where a second pass was allowed and not made, no law changes the signature any more. -/
theorem isSettled_of_runPasses_singleton {law : Law} {passes : Nat} {journal after : List Law}
    (hpasses : 2 ≤ passes) (hrepeats : law.repeats none = false)
    (h : runPasses passes none s journal = (t, [law], after)) : t.IsSettled := by
  obtain ⟨laws, u, hsettles, -⟩ := exists_settles s
  have htake := hsettles.laws_eq_take passes journal
  have hlength : laws.length ≤ passes := by
    rw [h] at htake
    have hone := congrArg List.length htake
    rw [List.length_take, List.length_singleton] at hone
    omega
  rw [hsettles.runPasses_eq hlength] at h
  cases h
  cases hsettles with
  | circling _ hrepeats' => exact absurd (hrepeats'.symm.trans hrepeats) (by decide)
  | step _ _ rest =>
    cases rest with
    | settled ht => exact ht

theorem eq_doubleComplement_of_runPasses {first second third : Law} {rest : List Law}
    {passes : Nat} {journal : List Law}
    (h : (runPasses passes none s journal).2.1 = first :: second :: third :: rest) :
    first = .doubleComplement ∧ rest = [] := by
  obtain ⟨laws, u, hsettles, hlaws⟩ := exists_settles_of_length s
  rw [hsettles.laws_eq_take passes journal] at h
  have hlength := congrArg List.length h
  rw [List.length_take] at hlength
  simp only [List.length_cons] at hlength
  rcases hlaws with hlaws | ⟨more, rfl, hmore⟩
  · omega
  · rw [List.length_cons] at hlength
    have hpositive : 0 < passes := by omega
    rw [List.take_cons hpositive] at h
    exact ⟨(List.cons.inj h).1.symm, List.length_eq_zero_iff.mp (by omega)⟩

end

/-- With two passes or more a signature grows by no more than one token, and only when a complement
has been pushed inwards and nothing else done.  With any number of passes it grows by no more than
two.  All names in it have been there before, and they stand as they did if only double complements
have been dropped. -/
theorem simplify_growth (s : Signature) (passes : Nat) (journal : List Law) :
    let result := (s.simplify passes journal).1
    (2 ≤ passes → result.simplified.tokenCount ≤ s.tokenCount + 1 ∧
      (result.simplified.tokenCount = s.tokenCount + 1 ↔ result.laws = [.deMorgan])) ∧
    result.simplified.tokenCount ≤ s.tokenCount + 2 ∧
    (∀ x ∈ result.simplified.operands, x ∈ s.operands) ∧
    ((∀ law ∈ result.laws, law = .doubleComplement) →
      result.simplified.operands = s.operands) := by
  intro result
  have hderives : s.Derives result.laws result.simplified := simplify_derives s passes journal
  refine ⟨fun hpasses => ?_, hderives.tokenCount_le_add_two, hderives.operands_subset,
    hderives.operands_eq⟩
  have hrun : runPasses passes none s journal =
      (result.simplified, result.laws, (s.simplify passes journal).2) := by
    dsimp only [result]
    rw [simplify_eq_runPasses]
  generalize result.simplified = t, result.laws = laws at hderives hrun
  cases hderives with
  | done => exact ⟨Nat.le_add_right _ 1, iff_of_false (by omega) (by decide)⟩
  | @step law _ _ _ _ first rest =>
    cases rest with
    | done =>
      rw [List.singleton_inj]
      refine first.turns.tokenCount_le_of_isSettled ?_
      rintro rfl
      exact isSettled_of_runPasses_singleton hpasses rfl hrun
    | step second rest =>
      have htwo := first.turns.tokenCount_le_of_turns second.turns
      suffices hle : t.tokenCount ≤ s.tokenCount from ⟨by omega, iff_of_false (by omega) (by simp)⟩
      cases rest with
      | done => exact htwo
      | step third rest =>
        obtain ⟨rfl, rfl⟩ := eq_doubleComplement_of_runPasses (congrArg (·.2.1) hrun)
        cases rest
        have hshorter := tokenCount_lt_of_dropDoubleComplements first.transformed
        have hlast := second.turns.tokenCount_le_of_turns third.turns
        omega

/-- A complement pushed inwards is added, and a distributed operand is so for one pass only. -/
theorem simplify_growth_distributive :
    let deMorgan := complement (binary .union (set "A") (set "B"))
    let union := binary .union (set "A") (binary .intersection (set "B") (set "C"))
    let difference := binary .difference (complement (complement (set "B")))
      (complement (complement (set "A")))
    (deMorgan.simplify 2 []).1.simplified.tokenCount = deMorgan.tokenCount + 1 ∧
      (union.simplify 1 []).1.simplified.tokenCount = union.tokenCount + 2 ∧
      (union.simplify 2 []).1.simplified.tokenCount ≤ union.tokenCount + 1 ∧
      (union.simplify 2 []).1.simplified.tokenCount ≠ union.tokenCount + 1 ∧
      (difference.simplify 10 []).1.simplified.operands = ["B", "A"] := by
  intro deMorgan union difference
  have hdeMorgan : (deMorgan.simplify 2 []).1.laws = [.deMorgan] := by decide +kernel
  have hunion : (union.simplify 2 []).1.laws = [.distributive, .distributive] := by decide +kernel
  have hdifference : (difference.simplify 10 []).1.laws = [.doubleComplement] := by decide +kernel
  obtain ⟨hle, hgrows⟩ := (simplify_growth union 2 []).1 (Nat.le_refl 2)
  refine ⟨((simplify_growth deMorgan 2 []).1 (Nat.le_refl 2)).2.mpr hdeMorgan, by decide +kernel,
    hle, fun h => ?_, ?_⟩
  · rw [hunion] at hgrows
    exact absurd (hgrows.mp h) (by decide)
  · rw [(simplify_growth difference 10 []).2.2.2 (by rw [hdifference]; decide)]
    simp [difference, operands_binary, operands_complement, operands_set]

end Signature
end SetLaws
