import SetLaws.Evaluation
import SetLaws.Proofs.Expr.References

/-!
# Expressions without unused operands

A complement does not use its right operand.  An expression can be pruned of such operands, at
any depth, without a change to what it evaluates to.
-/

namespace SetLaws
namespace Expr

mutual

/-- The second expression is the first without the right operands of some complements, all of
which satisfy a condition. -/
inductive Prunes (p : Expr → Prop) : Expr → Expr → Prop where
  | primitive (value : String) (kind : LiteralKind) (span : Span) :
      Prunes p (.primitive value kind span) (.primitive value kind span)
  | range {first last first' last' : Expr} (span : Span) (hf : Prunes p first first')
      (hl : Prunes p last last') : Prunes p (.range first last span) (.range first' last' span)
  | reference (name : String) (span : Span) :
      Prunes p (.reference name span) (.reference name span)
  | list {elements elements' : List Expr} (span : Span) (h : PrunesAll p elements elements') :
      Prunes p (.list elements span) (.list elements' span)
  | one (op : Operator) {lhs lhs' : Expr} (span : Span) (h : Prunes p lhs lhs') :
      Prunes p (.operation op lhs none span) (.operation op lhs' none span)
  | both (op : Operator) {lhs rhs lhs' rhs' : Expr} (span : Span) (hl : Prunes p lhs lhs')
      (hr : Prunes p rhs rhs') :
      Prunes p (.operation op lhs (some rhs) span) (.operation op lhs' (some rhs') span)
  | pruned {lhs rhs lhs' : Expr} (span : Span) (hp : p rhs) (h : Prunes p lhs lhs') :
      Prunes p (.operation .complement lhs (some rhs) span) (.operation .complement lhs' none span)

/-- Every expression of the second list is one of the first, pruned. -/
inductive PrunesAll (p : Expr → Prop) : List Expr → List Expr → Prop where
  | nil : PrunesAll p [] []
  | cons {e e' : Expr} {es es' : List Expr} (h : Prunes p e e') (hs : PrunesAll p es es') :
      PrunesAll p (e :: es) (e' :: es')

end

variable {p : Expr → Prop}

theorem Prunes.span_eq {e e' : Expr} (h : Prunes p e e') : e.span = e'.span := by
  cases h <;> rfl

mutual

/-- What has been pruned is never evaluated. -/
theorem Prunes.evaluate_eq : {e e' : Expr} → Prunes p e e' → e.evaluate = e'.evaluate
  | _, _, .primitive _ _ _ => rfl
  | _, _, .range span hf hl => by
    rw [evaluate, evaluate, hf.evaluate_eq, hl.evaluate_eq, hf.span_eq, hl.span_eq]
  | _, _, .reference _ _ => rfl
  | _, _, .list span h => by rw [evaluate, evaluate, h.evaluateAll_eq]
  | _, _, .one op span h => by
    cases op <;> rw [evaluate, evaluate, h.evaluate_eq, h.span_eq]
  | _, _, .both op span hl hr => by
    cases op with
    | complement => rw [evaluate, evaluate, hl.evaluate_eq, hl.span_eq]
    | binary op =>
      rw [evaluate, evaluate, hl.evaluate_eq, hl.span_eq, hr.evaluate_eq, hr.span_eq]
  | _, _, .pruned span _ h => by rw [evaluate, evaluate, h.evaluate_eq, h.span_eq]

theorem PrunesAll.evaluateAll_eq : {es es' : List Expr} → PrunesAll p es es' →
    evaluateAll es = evaluateAll es'
  | _, _, .nil => rfl
  | _, _, .cons h hs => by rw [evaluateAll, evaluateAll, h.evaluate_eq, hs.evaluateAll_eq]

end

mutual

/-- Pruning adds no reference and keeps the order of those that are left. -/
theorem Prunes.references_sublist : {e e' : Expr} → Prunes p e e' →
    e'.references.Sublist e.references
  | _, _, .primitive _ _ _ => .refl _
  | _, _, .range span hf hl => by
    rw [references_range, references_range]
    exact hf.references_sublist.append hl.references_sublist
  | _, _, .reference _ _ => .refl _
  | _, _, .list span h => by
    rw [references_list, references_list]
    exact h.references_sublist
  | _, _, .one op span h => by
    rw [references_operation_none, references_operation_none]
    exact h.references_sublist
  | _, _, .both op span hl hr => by
    rw [references_operation_some, references_operation_some]
    exact hl.references_sublist.append hr.references_sublist
  | _, _, .pruned span _ h => by
    rw [references_operation_some, references_operation_none]
    exact h.references_sublist.trans (List.sublist_append_left _ _)

theorem PrunesAll.references_sublist : {es es' : List Expr} → PrunesAll p es es' →
    (es'.flatMap references).Sublist (es.flatMap references)
  | _, _, .nil => .refl _
  | _, _, .cons h hs => by
    rw [List.flatMap_cons, List.flatMap_cons]
    exact h.references_sublist.append hs.references_sublist

end

variable {q : Reference → Bool}

theorem filter_references_eq_nil (hq : ∀ rhs, p rhs → ∀ r ∈ rhs.references, q r = false)
    {rhs : Expr} (hp : p rhs) : rhs.references.filter q = [] := by
  refine List.filter_eq_nil_iff.mpr fun r hr => ?_
  rw [hq rhs hp r hr]
  exact Bool.false_ne_true

mutual

/-- References that no pruned operand has are all left. -/
theorem Prunes.filter_references (hq : ∀ rhs, p rhs → ∀ r ∈ rhs.references, q r = false) :
    {e e' : Expr} → Prunes p e e' → e.references.filter q = e'.references.filter q
  | _, _, .primitive _ _ _ => rfl
  | _, _, .range span hf hl => by
    rw [references_range, references_range, List.filter_append, List.filter_append,
      hf.filter_references hq, hl.filter_references hq]
  | _, _, .reference _ _ => rfl
  | _, _, .list span h => by
    rw [references_list, references_list]
    exact h.filter_references hq
  | _, _, .one op span h => by
    rw [references_operation_none, references_operation_none]
    exact h.filter_references hq
  | _, _, .both op span hl hr => by
    rw [references_operation_some, references_operation_some, List.filter_append,
      List.filter_append, hl.filter_references hq, hr.filter_references hq]
  | _, _, .pruned span hp h => by
    rw [references_operation_some, references_operation_none, List.filter_append,
      filter_references_eq_nil hq hp, List.append_nil, h.filter_references hq]

theorem PrunesAll.filter_references (hq : ∀ rhs, p rhs → ∀ r ∈ rhs.references, q r = false) :
    {es es' : List Expr} → PrunesAll p es es' →
    (es.flatMap references).filter q = (es'.flatMap references).filter q
  | _, _, .nil => rfl
  | _, _, .cons h hs => by
    rw [List.flatMap_cons, List.flatMap_cons, List.filter_append, List.filter_append,
      h.filter_references hq, hs.filter_references hq]

end
end Expr
end SetLaws
