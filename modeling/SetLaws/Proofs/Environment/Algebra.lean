import SetLaws.Environment
import SetLaws.Proofs.ElementSet.Same

/-!
# The algebra of sets in an environment

The operations of an environment are those of sets, in whatever way the members are spelled
and whatever the universal set is.  They change nothing but the count.
-/

namespace SetLaws
namespace Environment

variable (env : Environment) (a b : ElementSet)

/-- The complement of the complement. -/
def twiceComplement : ElementSet :=
  ((env.complement a).2.complement (env.complement a).1).1

variable {env a}

theorem has_complement {x : Element} :
    (env.complement a).1.Has x ↔ env.universal.Has x ∧ ¬ a.Has x :=
  ElementSet.has_diff

theorem has_twiceComplement {x : Element} :
    (env.twiceComplement a).Has x ↔ a.Has x ∧ env.universal.Has x := by
  rw [twiceComplement, has_complement, has_complement]
  show env.universal.Has x ∧ ¬ (env.universal.Has x ∧ ¬ a.Has x) ↔ _
  rw [not_and_not_right, and_comm]
  exact and_congr_left fun hx => imp_iff_right hx

/-- The complement of the complement is the part of the set inside the universal set. -/
theorem same_twiceComplement_inter :
    (env.twiceComplement a).Same (env.apply .intersection a env.universal).1 :=
  ElementSet.same_iff_has.mpr fun _ => has_twiceComplement.trans ElementSet.has_inter.symm

theorem same_twiceComplement_iff :
    (env.twiceComplement a).Same a ↔ ∀ x, a.Has x → env.universal.Has x := by
  rw [ElementSet.same_iff_has]
  refine forall_congr' fun x => ?_
  rw [has_twiceComplement, and_iff_left_iff_imp]

/-- The operations lead to the sets of those elements that are in one set or the other, in both,
in the first alone, and in the universal set alone, each element once and in order.  Two
complements restrict a set to the universal set, so they restore the sets inside it and no
others.  An operation is counted, and nothing else is changed by it. -/
theorem operations_collect (env : Environment) (a b : ElementSet) :
    (env.apply .union a b).1.Collects (fun x => a.Has x ∨ b.Has x) ∧
    (env.apply .intersection a b).1.Collects (fun x => a.Has x ∧ b.Has x) ∧
    (env.apply .difference a b).1.Collects (fun x => a.Has x ∧ ¬ b.Has x) ∧
    (env.complement a).1.Collects (fun x => env.universal.Has x ∧ ¬ a.Has x) ∧
    (env.twiceComplement a).Same (env.apply .intersection a env.universal).1 ∧
    ((env.twiceComplement a).Same a ↔ ∀ x, a.Has x → env.universal.Has x) ∧
    (∀ op, (env.apply op a b).2 = { env with operationCount := env.operationCount + 1 }) ∧
    (env.complement a).2 = { env with operationCount := env.operationCount + 1 } := by
  refine ⟨?_, ?_, ?_, ?_, same_twiceComplement_inter, same_twiceComplement_iff, fun _ => rfl, rfl⟩
  · exact ElementSet.collects_of_has_iff fun _ => ElementSet.has_union
  · exact ElementSet.collects_of_has_iff fun _ => ElementSet.has_inter
  · exact ElementSet.collects_of_has_iff fun _ => ElementSet.has_diff
  · exact ElementSet.collects_of_has_iff fun _ => has_complement

/-- An integer outside the universal set is lost in two complements, until the universal set is
extended by it in another spelling. -/
theorem operations_collect_extended :
    let a : ElementSet := .ofList [.text "500", .int 3]
    let env := Environment.initial.extendUniversal [.text "+500"]
    ¬ (Environment.initial.twiceComplement a).Same a ∧ (env.twiceComplement a).Same a := by
  intro a env
  obtain ⟨_, _, _, _, _, hinitial, _⟩ := operations_collect .initial a a
  obtain ⟨_, _, _, _, _, hextended, _⟩ := operations_collect env a a
  constructor
  · intro h
    have hall := ElementSet.forall_has_iff.mp (hinitial.mp h)
    exact absurd hall (by decide +kernel)
  · exact hextended.mpr (ElementSet.forall_has_iff.mpr (by decide +kernel))

end Environment
end SetLaws
