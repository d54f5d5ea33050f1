import SetLaws.Expr

/-!
# The references in an expression

The references are collected with a list of expressions that are still to be visited.
Here are the equations that the recursion on the expression itself would have, and that recursion.
-/

namespace SetLaws
namespace Expr

theorem referencesOf_append (pending rest : List Expr) :
    referencesOf (pending ++ rest) = referencesOf pending ++ referencesOf rest := by
  fun_induction referencesOf pending with
  | case1 => rfl
  | case2 rest' value kind span ih => rw [List.cons_append, referencesOf, ih]
  | case3 rest' name span ih => rw [List.cons_append, referencesOf, ih, List.cons_append]
  | case4 rest' first last span ih =>
    rw [List.cons_append, referencesOf]
    exact ih
  | case5 rest' elements span ih =>
    rw [List.cons_append, referencesOf, ← List.append_assoc]
    exact ih
  | case6 rest' op lhs span ih =>
    rw [List.cons_append, referencesOf]
    exact ih
  | case7 rest' op lhs rhs span ih =>
    rw [List.cons_append, referencesOf]
    exact ih

-- What is in the list on top comes before what is below it.
example : referencesOf [.list [.reference "A" .nowhere, .reference "B" .nowhere] .nowhere,
    .reference "A" .nowhere] = [⟨"A", .nowhere⟩, ⟨"B", .nowhere⟩, ⟨"A", .nowhere⟩] := by
  decide +kernel

/-- A list of expressions is visited from left to right. -/
theorem referencesOf_eq_flatMap (pending : List Expr) :
    referencesOf pending = pending.flatMap references := by
  induction pending with
  | nil => rw [referencesOf, List.flatMap_nil]
  | cons e rest ih =>
    rw [List.flatMap_cons, ← ih, references]
    exact referencesOf_append [e] rest

theorem references_primitive (value : String) (kind : LiteralKind) (span : Span) :
    (primitive value kind span).references = [] := by
  rw [references, referencesOf, referencesOf]

theorem references_reference (name : String) (span : Span) :
    (reference name span).references = [⟨name, span⟩] := by
  rw [references, referencesOf, referencesOf]

theorem references_range (first last : Expr) (span : Span) :
    (range first last span).references = first.references ++ last.references := by
  rw [references, referencesOf]
  exact referencesOf_append [first] [last]

theorem references_list (elements : List Expr) (span : Span) :
    (list elements span).references = elements.flatMap references := by
  rw [references, referencesOf, List.append_nil, referencesOf_eq_flatMap]

theorem references_operation_none (op : Operator) (lhs : Expr) (span : Span) :
    (operation op lhs none span).references = lhs.references := by
  rw [references, referencesOf, references]

theorem references_operation_some (op : Operator) (lhs rhs : Expr) (span : Span) :
    (operation op lhs (some rhs) span).references = lhs.references ++ rhs.references := by
  rw [references, referencesOf]
  exact referencesOf_append [lhs] [rhs]

mutual

/-- The references in an expression from left to right: those of the start of a range and then of
its end, of the members of a list in order, of the left operand and then of the right one. -/
def mentioned : Expr → List Reference
  | .primitive _ _ _ => []
  | .range first last _ => first.mentioned ++ last.mentioned
  | .reference name span => [⟨name, span⟩]
  | .list elements _ => mentionedInAll elements
  | .operation _ lhs none _ => lhs.mentioned
  | .operation _ lhs (some rhs) _ => lhs.mentioned ++ rhs.mentioned

def mentionedInAll : List Expr → List Reference
  | [] => []
  | e :: es => e.mentioned ++ mentionedInAll es

end

mutual

theorem references_eq_mentioned : (e : Expr) → e.references = e.mentioned
  | .primitive value kind span => by rw [references_primitive, mentioned]
  | .range first last span => by
    rw [references_range, mentioned, references_eq_mentioned first, references_eq_mentioned last]
  | .reference name span => by rw [references_reference, mentioned]
  | .list elements span => by
    rw [references_list, mentioned, flatMap_references_eq_mentionedInAll elements]
  | .operation op lhs none span => by
    rw [references_operation_none, mentioned, references_eq_mentioned lhs]
  | .operation op lhs (some rhs) span => by
    rw [references_operation_some, mentioned, references_eq_mentioned lhs,
      references_eq_mentioned rhs]

theorem flatMap_references_eq_mentionedInAll : (es : List Expr) →
    es.flatMap references = mentionedInAll es
  | [] => by rw [List.flatMap_nil, mentionedInAll]
  | e :: es => by
    rw [List.flatMap_cons, mentionedInAll, references_eq_mentioned e,
      flatMap_references_eq_mentionedInAll es]

end

end Expr
end SetLaws
