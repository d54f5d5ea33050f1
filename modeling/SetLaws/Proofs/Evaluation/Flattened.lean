import SetLaws.Proofs.Expr.References
import SetLaws.Proofs.Evaluation.Effect

/-!
# Lists within lists

A list that stands in a list can be replaced by its members, at any depth.  Evaluation does the
same things in the same order then.
-/

namespace SetLaws
namespace Expr

mutual

/-- What stands for the expression in a list: a list is replaced by its members. -/
def unpacked : Expr → List Expr
  | .list elements _ => flattened elements
  | e => [e]

/-- The members of a list, in which no list is left. -/
def flattened : List Expr → List Expr
  | [] => []
  | e :: es => e.unpacked ++ flattened es

end

mutual

theorem references_unpacked : (e : Expr) → e.unpacked.flatMap references = e.references
  | .list elements span => by
    rw [unpacked, references_list]
    exact references_flattened elements
  | .primitive _ _ _ | .range _ _ _ | .reference _ _ | .operation _ _ _ _ =>
    List.flatMap_singleton _ _

/-- No reference is lost, and their order stays. -/
theorem references_flattened : (es : List Expr) →
    (flattened es).flatMap references = es.flatMap references
  | [] => rfl
  | e :: es => by
    rw [flattened, List.flatMap_append, List.flatMap_cons, references_unpacked e,
      references_flattened es]

end

end Expr

namespace Evaluator

variable {α β : Type}

/-- The computation leaves the trace as it is, whether it has a result or not. -/
structure Quiet (x : Evaluator α) : Prop where
  ok {s t : Evaluation.State} {a : α} (h : x s = .ok a t) : t.trace = s.trace
  error {s t : Evaluation.State} {d : Diagnostic} (h : x s = .error d t) : t.trace = s.trace

namespace Quiet

theorem quietly_eq {x : Evaluator α} (hx : Quiet x) : x.quietly = x := by
  funext s
  rw [Evaluator.quietly]
  cases h : x s with
  | ok a t =>
    show EStateM.Result.ok a { t with trace := s.trace } = _
    rw [← hx.ok h]
  | error d t =>
    show EStateM.Result.error d { t with trace := s.trace } = _
    rw [← hx.error h]

theorem pure (a : α) : Quiet (Pure.pure a) where
  ok h := by
    cases h
    rfl
  error h := by cases h

theorem quietly (x : Evaluator α) : Quiet x.quietly where
  ok h := by
    rw [Evaluator.quietly] at h
    split at h <;> cases h
    rfl
  error h := by
    rw [Evaluator.quietly] at h
    split at h <;> cases h
    rfl

theorem bind {x : Evaluator α} {f : α → Evaluator β} (hx : Quiet x) (hf : ∀ a, Quiet (f a)) :
    Quiet (x >>= f) where
  ok h := by
    obtain ⟨a, u, ha, h⟩ := bind_eq_ok.mp h
    rw [(hf a).ok h, hx.ok ha]
  error h := by
    rcases bind_eq_error.mp h with h | ⟨a, u, ha, h⟩
    · exact hx.error h
    · rw [(hf a).error h, hx.ok ha]

end Quiet
end Evaluator

namespace Expr

open Evaluator

theorem quiet_evaluateAll (es : List Expr) : Quiet (evaluateAll es) := by
  induction es with
  | nil =>
    rw [evaluateAll]
    exact .pure []
  | cons e es ih =>
    rw [evaluateAll]
    exact (Quiet.quietly _).bind fun v => ih.bind fun rest => .pure _

theorem evaluateAll_append (es fs : List Expr) :
    evaluateAll (es ++ fs) = do
      let xs ← evaluateAll es
      let ys ← evaluateAll fs
      return xs ++ ys := by
  induction es with
  | nil => simp [evaluateAll]
  | cons e es ih =>
    simp only [List.cons_append, evaluateAll, ih, bind_assoc, pure_bind, List.append_assoc]

/-- An expression by itself lists the elements of its value. -/
theorem evaluateAll_singleton (e : Expr) :
    evaluateAll [e] = Value.elements <$> e.evaluate.quietly := by
  simp [evaluateAll]

mutual

theorem evaluateAll_unpacked : (e : Expr) →
    evaluateAll e.unpacked = Value.elements <$> e.evaluate.quietly
  | .list elements span => by
    have hquiet : Quiet (evaluateAll elements >>= fun xs => pure (Value.list xs)) :=
      (quiet_evaluateAll elements).bind fun xs => .pure _
    rw [unpacked, evaluateAll_flattened elements, evaluate, hquiet.quietly_eq]
    simp [Value.elements]
  | .primitive _ _ _ | .range _ _ _ | .reference _ _ | .operation _ _ _ _ =>
    evaluateAll_singleton _

/-- Nothing but the nesting is lost. -/
theorem evaluateAll_flattened : (es : List Expr) → evaluateAll (flattened es) = evaluateAll es
  | [] => rfl
  | e :: es => by
    rw [flattened, evaluateAll_append, evaluateAll_unpacked e, evaluateAll_flattened es]
    simp [evaluateAll]

end

/-- Lists with the same members evaluate alike, whatever state they start in. -/
theorem evaluate_list_congr {es fs : List Expr} (span span' : Span)
    (h : flattened fs = flattened es) : (list fs span').evaluate = (list es span).evaluate := by
  rw [evaluate, evaluate, ← evaluateAll_flattened fs, h, evaluateAll_flattened]

end Expr
end SetLaws
