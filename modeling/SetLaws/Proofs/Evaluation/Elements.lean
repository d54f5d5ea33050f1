import Mathlib.Data.List.Forall2
import SetLaws.Proofs.Evaluation.Applied
import SetLaws.Proofs.Evaluation.Faults

/-!
# The elements an expression lists

A value is taken apart into its elements in order: the members of a set or range as they are
stored, and what is written in a list one after the other, with what is repeated there.
-/

namespace SetLaws
namespace Expr

open Evaluator

/-- The expression lists these elements in this order. -/
inductive Lists (env : Environment) : Expr → List Element → Prop where
  | primitive {value : String} {kind : LiteralKind} (span : Span) :
      Lists env (.primitive value kind span) [kind.element value]
  | range {first last : Expr} {members : ElementSet} (span : Span)
      (h : EndsAsRange env first last (.ok (.range members))) :
      Lists env (.range first last span) members.toList
  /-- A named set or the result of an operation. -/
  | set {e : Expr} {members : ElementSet} {signature : Signature}
      (h : e.Yields env members signature) : Lists env e members.toList
  | list {es : List Expr} {parts : List (List Element)} (span : Span)
      (h : List.Forall₂ (Lists env) es parts) : Lists env (.list es span) parts.flatten

section

variable {env : Environment} {e : Expr} {v : Value}

theorem lists_of_isOperand (he : e.IsOperand) (h : e.value? env = some v) :
    e.Lists env v.elements := by
  obtain ⟨t, h⟩ := result?_eq_some_iff.mp h
  obtain ⟨set, signature, rfl⟩ := (isOperand_iff_of_ok h).mp he
  exact .set (yields_of_evaluate e h).1

end

mutual

/-- An expression lists the elements of its value. -/
theorem lists_elements {env : Environment} : (e : Expr) → {v : Value} → e.value? env = some v →
    e.Lists env v.elements
  | .primitive value kind span, v, h => by
    rw [value?, evaluate] at h
    cases h
    exact .primitive span
  | .range first last span, v, h => by
    have hends := (evaluate_range_ok_iff env first last .empty span v).mp (result?_eq_some_iff.mp h)
    obtain ⟨members, rfl⟩ : ∃ members, v = .range members := by
      cases hends
      exact ⟨_, rfl⟩
    exact .range span hends
  | .reference name span, v, h => lists_of_isOperand trivial h
  | .list elements span, v, h => by
    rw [value?, evaluate, result?_bind (uniform_evaluateAll env elements) fun _ => .pure _,
      Option.bind_eq_some_iff] at h
    obtain ⟨xs, hxs, h⟩ := h
    cases h
    obtain ⟨parts, hparts, rfl⟩ := lists_evaluateAll elements hxs
    exact .list span hparts
  | .operation op lhs rhs span, v, h => lists_of_isOperand trivial h

theorem lists_evaluateAll {env : Environment} : (es : List Expr) → {xs : List Element} →
    (evaluateAll es).result? env = some xs →
    ∃ parts, List.Forall₂ (Lists env) es parts ∧ xs = parts.flatten
  | [], xs, h => by
    rw [evaluateAll] at h
    cases h
    exact ⟨[], .nil, rfl⟩
  | e :: es, xs, h => by
    have hes := uniform_evaluateAll env es
    have he := uniform_evaluate env e
    rw [evaluateAll, result?_bind he.quietly fun _ => hes.bind fun _ => .pure _,
      Option.bind_eq_some_iff] at h
    obtain ⟨v, hv, h⟩ := h
    rw [result?_bind hes fun _ => .pure _, Option.bind_eq_some_iff] at h
    obtain ⟨rest, hrest, h⟩ := h
    cases h
    rw [result?_quietly he] at hv
    obtain ⟨parts, hparts, rfl⟩ := lists_evaluateAll es hrest
    exact ⟨v.elements :: parts, .cons (lists_elements e hv) hparts, rfl⟩

end

theorem value?_of_yields {env : Environment} {e : Expr} {set : ElementSet} {signature : Signature}
    (h : e.Yields env set signature) : e.value? env = some (.set set signature) := by
  induction h with
  | @reference name a span h =>
    have hlookup : Uniform env False (lookup name span) := .lookup span False.elim
    rw [value?, evaluate, result?_bind hlookup fun _ => .pure _,
      HasEffect.result?_eq (.lookup name span), Environment.lookup, h]
    rfl
  | @complement lhs a s rhs span _ ih =>
    rw [value?, evaluate, result?_bind (uniform_evaluate env lhs) fun v =>
      (Uniform.operand _ _ _ v).bind fun a => Uniform.of_ok (.complement a.1 a.2)]
    rw [value?] at ih
    rw [ih]
    rfl
  | @binary op lhs rhs a b s t span _ _ ihl ihr =>
    have hright (a : ElementSet × Signature) (w : Value) : Uniform env False
        (operand (.binary op) .right rhs.span w >>= fun b => Evaluator.binary op a b) :=
      (Uniform.operand _ _ _ w).bind fun b => .of_ok (.binary op a b)
    rw [value?] at ihl ihr
    rw [value?, evaluate, result?_bind (uniform_evaluate env lhs) fun v =>
      (Uniform.operand _ _ _ v).bind fun a => (uniform_evaluate env rhs).bind (hright a), ihl]
    show (rhs.evaluate >>= fun w => operand _ _ _ w >>= fun b =>
      Evaluator.binary op (a, s) b).result? env = _
    rw [result?_bind (uniform_evaluate env rhs) (hright (a, s)), ihr]
    rfl

mutual

/-- An expression that lists elements has a value with these elements. -/
theorem exists_value_of_lists {env : Environment} : (e : Expr) → {xs : List Element} →
    e.Lists env xs → ∃ v, e.value? env = some v ∧ v.elements = xs
  | .primitive value kind span, xs, h => by
    cases h with
    | primitive => exact ⟨.element _, rfl, rfl⟩
    | set h => cases h
  | .range first last span, xs, h => by
    cases h with
    | range _ h =>
      have hok := (evaluate_range_ok_iff env first last .empty span _).mpr h
      exact ⟨_, result?_eq_some_iff.mpr hok, rfl⟩
    | set h => cases h
  | .reference name span, xs, h => by
    cases h with
    | set h => exact ⟨_, value?_of_yields h, rfl⟩
  | .list elements span, xs, h => by
    cases h with
    | set h => cases h
    | list _ h =>
      have hall := evaluateAll_of_lists elements h
      refine ⟨.list _, ?_, rfl⟩
      rw [value?, evaluate, result?_bind (uniform_evaluateAll env elements) fun _ => .pure _, hall]
      rfl
  | .operation op lhs rhs span, xs, h => by
    cases h with
    | set h => exact ⟨_, value?_of_yields h, rfl⟩

theorem evaluateAll_of_lists {env : Environment} : (es : List Expr) →
    {parts : List (List Element)} → List.Forall₂ (Lists env) es parts →
    (evaluateAll es).result? env = some parts.flatten
  | [], parts, h => by
    cases h
    rfl
  | e :: es, parts, h => by
    cases h with
    | @cons _ xs _ rest he hes =>
      obtain ⟨v, hv, rfl⟩ := exists_value_of_lists e he
      have hrest := evaluateAll_of_lists es hes
      have hall := uniform_evaluateAll env es
      rw [value?] at hv
      rw [evaluateAll, result?_bind (uniform_evaluate env e).quietly fun _ =>
        hall.bind fun _ => .pure _, result?_quietly (uniform_evaluate env e), hv]
      show (evaluateAll es >>= fun rest => pure (v.elements ++ rest)).result? env = _
      rw [result?_bind hall fun _ => .pure _, hrest]
      rfl

end

/-- Exactly those expressions list elements that are evaluated without a fault. -/
theorem fault?_eq_none_iff_lists {env : Environment} {e : Expr} :
    e.fault? env = none ↔ ∃ xs, e.Lists env xs := by
  refine fault?_eq_none_iff.trans ⟨fun h => ?_, fun h => ?_⟩
  · obtain ⟨v, hv⟩ := h
    exact ⟨_, lists_elements e hv⟩
  · obtain ⟨xs, hxs⟩ := h
    obtain ⟨v, hv, -⟩ := exists_value_of_lists e hxs
    exact ⟨v, hv⟩

end Expr
end SetLaws
