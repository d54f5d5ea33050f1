import SetLaws.Proofs.Law.Meaning
import SetLaws.Proofs.Simplification.Derivation

/-!
# Simplification keeps the meaning

A derivation keeps the meaning inside the universal set, as each of its steps does.
Outside, only the two laws that refer to the universal set can lose or gain members.
-/

namespace SetLaws
namespace Signature

variable {α : Type*} [DecidableEq α] {whole : Finset α} {named : String → Finset α}

theorem Derives.sameWithin {s t : Signature} {laws : List Law} (h : s.Derives laws t) :
    SameWithin whole (t.meaning whole named) (s.meaning whole named) := by
  induction h with
  | done s => exact .refl whole _
  | step first _ ih => exact ih.trans (first.shape.transform_sameWithin first.transformed)

theorem Derives.meaning_eq {s t : Signature} {laws : List Law} (h : s.Derives laws t)
    (hd : .doubleComplement ∉ laws) (hu : .universalComplement ∉ laws) :
    t.meaning whole named = s.meaning whole named := by
  induction h with
  | done s => rfl
  | step first _ ih =>
    rw [List.mem_cons, not_or] at hd hu
    rw [ih hd.2 hu.2]
    exact first.shape.transform_meaning first.transformed (Ne.symm hd.1) (Ne.symm hu.1)

/-- A simplified signature means the same as the given one: inside the universal set
always, and altogether when all named sets lie in it or when neither the double
complement nor the union with a complement was simplified. -/
theorem simplify_meaning (s : Signature) (passes : Nat) (journal : List Law)
    (whole : Finset α) (named : String → Finset α) :
    let result := (s.simplify passes journal).1
    (∀ x ∈ whole, x ∈ result.simplified.meaning whole named ↔ x ∈ s.meaning whole named) ∧
      ((∀ x, named x ⊆ whole) →
        result.simplified.meaning whole named = s.meaning whole named) ∧
      (.doubleComplement ∉ result.laws → .universalComplement ∉ result.laws →
        result.simplified.meaning whole named = s.meaning whole named) := by
  intro result
  have hderives : s.Derives result.laws result.simplified := simplify_derives s passes journal
  have hsame : SameWithin whole (result.simplified.meaning whole named) (s.meaning whole named) :=
    hderives.sameWithin
  refine ⟨hsame, fun hnamed => ?_, fun hd hu => hderives.meaning_eq hd hu⟩
  exact hsame.eq_of_subset (meaning_subset hnamed _) (meaning_subset hnamed s)

/-- Named sets outside the universal set do no harm to a law that does not refer to it,
and a union with a complement is the universal set where the named sets lie in it. -/
theorem simplify_meaning_deMorgan_union :
    let deMorgan := complement (binary .intersection (set "A") (set "B"))
    let union := binary .union (set "A") (complement (set "A"))
    let outside : String → Finset Nat := fun x => if x = "A" then {1, 5} else {2, 7}
    let inside : String → Finset Nat := fun x => if x = "A" then {1, 2} else {2}
    (deMorgan.simplify 10 []).1.laws = [.deMorgan] ∧
      (deMorgan.simplify 10 []).1.simplified.meaning {1, 2, 3} outside =
        deMorgan.meaning {1, 2, 3} outside ∧
      (union.simplify 10 []).1.simplified = universal ∧
      (union.simplify 10 []).1.simplified.meaning {1, 2, 3} inside =
        union.meaning {1, 2, 3} inside := by
  intro deMorgan union outside inside
  have hlaws : (deMorgan.simplify 10 []).1.laws = [.deMorgan] := by decide +kernel
  have hinside : ∀ x, inside x ⊆ {1, 2, 3} := by
    intro x
    dsimp only [inside]
    split <;> decide
  refine ⟨hlaws, ?_, by decide +kernel, ?_⟩
  · refine (simplify_meaning deMorgan 10 [] {1, 2, 3} outside).2.2 ?_ ?_
    · rw [hlaws]
      decide
    · rw [hlaws]
      decide
  · exact (simplify_meaning union 10 [] {1, 2, 3} inside).2.1 hinside

end Signature
end SetLaws
