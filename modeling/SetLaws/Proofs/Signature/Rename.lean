import Mathlib.Data.Set.Function
import SetLaws.Proofs.Law.Turns

/-!
# Renaming the sets in a signature

A renaming that keeps different names of a signature apart can be undone on it.  So whatever is
kept by every such renaming is also reflected by it.
-/

namespace SetLaws
namespace Signature

/-- The signature with other names for its sets. -/
def rename (r : String → String) : Signature → Signature
  | .set name => .set (r name)
  | .empty => .empty
  | .universal => .universal
  | .complement operand => .complement (operand.rename r)
  | .binary op lhs rhs => .binary op (lhs.rename r) (rhs.rename r)

/-- Different names in the signature stay different. -/
def KeptApart (r : String → String) (s : Signature) : Prop :=
  Set.InjOn r {x | x ∈ s.operands}

variable {r l : String → String} {s t part : Signature}

theorem operands_rename (r : String → String) (s : Signature) :
    (s.rename r).operands = s.operands.map r := by
  induction s with
  | set name => rw [rename, operands_set, operands_set, List.map_singleton]
  | empty => rw [rename, operands_empty, List.map_nil]
  | universal => rw [rename, operands_universal, List.map_nil]
  | complement operand ih => rw [rename, operands_complement, operands_complement, ih]
  | binary op lhs rhs ihl ihr =>
    rw [rename, operands_binary, operands_binary, List.map_append, ihl, ihr]

theorem rename_rename_eq (h : ∀ x ∈ s.operands, l (r x) = x) : (s.rename r).rename l = s := by
  induction s with
  | set name =>
    rw [operands_set, List.forall_mem_singleton] at h
    rw [rename, rename, h]
  | empty | universal => rfl
  | complement operand ih =>
    rw [operands_complement] at h
    rw [rename, rename, ih h]
  | binary op lhs rhs ihl ihr =>
    rw [operands_binary, List.forall_mem_append] at h
    rw [rename, rename, ihl h.1, ihr h.2]

theorem KeptApart.mono (h : s.KeptApart r) (hst : ∀ x ∈ t.operands, x ∈ s.operands) :
    t.KeptApart r :=
  Set.InjOn.mono hst h

/-- What keeps the names apart can be undone, and the names are kept apart in that as well. -/
theorem KeptApart.exists_inverse (h : s.KeptApart r) :
    ∃ l, (s.rename r).rename l = s ∧ (s.rename r).KeptApart l := by
  refine ⟨Function.invFunOn r {x | x ∈ s.operands}, ?_, ?_⟩
  · exact rename_rename_eq h.leftInvOn_invFunOn
  · have himage : {x | x ∈ (s.rename r).operands} = r '' {x | x ∈ s.operands} := by
      ext y
      rw [operands_rename, Set.mem_ofPred_eq, List.mem_map]
      rfl
    rw [KeptApart, himage]
    exact Function.invFunOn_injOn_image r _

theorem PartOf.rename (h : PartOf part s) (r : String → String) :
    PartOf (part.rename r) (s.rename r) := by
  induction h with
  | self => exact .self
  | operand _ ih => exact .operand ih
  | lhs _ ih => exact .lhs ih
  | rhs _ ih => exact .rhs ih

theorem ne_complement_set_of_rename (hs : ∀ x, s ≠ .complement (.set x)) (x : String) :
    s.rename r ≠ .complement (.set x) := by
  intro h
  cases s with
  | set | empty | universal | binary => cases h
  | complement operand =>
    cases operand with
    | set y => exact hs y rfl
    | empty | universal | complement | binary => cases h

/-- Double complements stand in the same places, whatever the names are. -/
theorem dropDoubleComplements_rename (r : String → String) (s : Signature) :
    (s.rename r).dropDoubleComplements = s.dropDoubleComplements.map (rename r) := by
  induction s with
  | set | empty | universal => rfl
  | complement s ih =>
    by_cases hs : ∃ x, s = complement (set x)
    · obtain ⟨x, rfl⟩ := hs
      rfl
    · rw [rename, dropDoubleComplements_complement (not_exists.mp hs),
        dropDoubleComplements_complement (ne_complement_set_of_rename (not_exists.mp hs)), ih,
        Option.map_map, Option.map_map]
      rfl
  | binary op a b iha ihb =>
    rw [rename, dropDoubleComplements, dropDoubleComplements, iha, ihb]
    cases a.dropDoubleComplements <;> cases b.dropDoubleComplements <;> rfl

end Signature
end SetLaws
