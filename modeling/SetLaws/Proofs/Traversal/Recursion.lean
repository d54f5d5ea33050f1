import SetLaws.Proofs.Expr.References
import SetLaws.Proofs.Law.Shape
import SetLaws.Proofs.Signature.Operands
import SetLaws.Proofs.Traversal.Loop

/-!
# The traversals of signatures and expressions

The names in a signature, a double complement in it, and the references in an expression are looked
for by loops over a stack.  The loops end on every signature and on every expression, and find what
the recursion on the signature or expression finds, in the same order.
-/

namespace SetLaws

namespace Signature

/-- The operands of the outermost operator. -/
def parts : Signature → List Signature
  | .set _ => []
  | .empty => []
  | .universal => []
  | .complement operand => [operand]
  | .binary _ lhs rhs => [lhs, rhs]

theorem sum_tokenCount_parts_lt (s : Signature) : (s.parts.map tokenCount).sum < s.tokenCount := by
  cases s <;> simp [parts, tokenCount]

end Signature

namespace Expr

/-- The expressions of which an expression is made. -/
def parts : Expr → List Expr
  | .primitive _ _ _ => []
  | .range first last _ => [first, last]
  | .reference _ _ => []
  | .list elements _ => elements
  | .operation _ lhs none _ => [lhs]
  | .operation _ lhs (some rhs) _ => [lhs, rhs]

theorem sizes_eq_sum (es : List Expr) : sizes es = (es.map Expr.size).sum := by
  induction es with
  | nil => rfl
  | cons e es ih => rw [sizes, ih, List.map_cons, List.sum_cons]

theorem sum_size_parts_lt (e : Expr) : (e.parts.map Expr.size).sum < e.size := by
  cases e with
  | primitive | range | reference => simp [parts, Expr.size]
  | list elements =>
    rw [parts, Expr.size, sizes_eq_sum]
    omega
  | operation op lhs rhs => cases rhs <;> simp [parts, Expr.size]

end Expr

namespace Traversal

open Signature (operandsOf findsDoubleComplement PartOf)

/-- Collects the names of sets. -/
def ofOperands : Traversal Signature (List String) (List String) where
  visit
    | found, .set name => .inr (found ++ [name])
    | found, _ => .inr found
  parts := Signature.parts
  finish := id

/-- Ends at the first `^^{X}`. -/
def ofDoubleComplement : Traversal Signature Unit Bool where
  visit _ s := if s.isDoubleComplement then .inl true else .inr ()
  parts := Signature.parts
  finish _ := false

/-- Collects the references to sets. -/
def ofReferences : Traversal Expr (List Reference) (List Reference) where
  visit
    | found, .reference name span => .inr (found ++ [⟨name, span⟩])
    | found, _ => .inr found
  parts := Expr.parts
  finish := id

theorem solves_ofOperands : ofOperands.Solves fun stack found => found ++ operandsOf stack where
  nil found := by
    rw [operandsOf, List.append_nil]
    rfl
  cons s stack found := by
    cases s with
    | set name =>
      rw [operandsOf, List.append_cons]
      rfl
    | empty | universal | complement | binary =>
      rw [operandsOf]
      rfl

theorem solves_ofDoubleComplement :
    ofDoubleComplement.Solves fun stack _ => findsDoubleComplement stack where
  nil _ := by
    rw [findsDoubleComplement]
    rfl
  cons s stack _ := by
    rw [findsDoubleComplement.eq_def, ofDoubleComplement]
    by_cases hs : s.isDoubleComplement = true
    · simp only [hs, if_true, Sum.elim_inl, id]
    · simp only [hs, if_false, Sum.elim_inr, Bool.false_eq_true]
      cases s <;> rfl

theorem solves_ofReferences :
    ofReferences.Solves fun stack found => found ++ Expr.referencesOf stack where
  nil found := by
    rw [Expr.referencesOf, List.append_nil]
    rfl
  cons e stack found := by
    cases e with
    | reference name span =>
      rw [Expr.referencesOf, List.append_cons]
      rfl
    | primitive | range | list =>
      rw [Expr.referencesOf]
      rfl
    | operation op lhs rhs =>
      cases rhs with
      | none | some =>
        rw [Expr.referencesOf]
        rfl

/-- The loop that collects the names in a signature ends and gives those that the recursion lists;
the search for a double complement ends and finds one exactly when some part of the signature is
`^^{X}`; and the loop that collects the references in an expression ends and gives those that the
recursion lists.  No loop goes round more often than there are nodes. -/
theorem traversals_recurse :
    (∀ s : Signature, s.operands = s.names ∧
      ofOperands.Returns ⟨[s], []⟩ s.tokenCount s.names) ∧
    (∀ s : Signature,
      (s.hasDoubleComplement = true ↔ ∃ x, PartOf (.complement (.complement (.set x))) s) ∧
      ofDoubleComplement.Returns ⟨[s], ()⟩ s.tokenCount s.hasDoubleComplement) ∧
    ∀ e : Expr, e.references = e.mentioned ∧
      ofReferences.Returns ⟨[e], []⟩ e.size e.mentioned := by
  refine ⟨fun s => ⟨s.operands_eq_names, ?_⟩, fun s => ⟨Signature.hasDoubleComplement_iff, ?_⟩,
    fun e => ⟨e.references_eq_mentioned, ?_⟩⟩
  · rw [← Signature.operands_eq_names]
    exact solves_ofOperands.returns Signature.sum_tokenCount_parts_lt ⟨[s], []⟩
  · exact solves_ofDoubleComplement.returns Signature.sum_tokenCount_parts_lt ⟨[s], ()⟩
  · rw [← Expr.references_eq_mentioned]
    exact solves_ofReferences.returns Expr.sum_size_parts_lt ⟨[e], []⟩

end Traversal
end SetLaws
