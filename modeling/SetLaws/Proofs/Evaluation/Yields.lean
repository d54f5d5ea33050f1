import SetLaws.Proofs.Evaluation.Effect

/-!
# Expressions that yield a set

Only references and operations evaluate to a set with a signature.  The relation says
which set and which signature, without the counter and the trace; evaluation agrees
with it and records every application of an operator in the signature.
-/

namespace SetLaws

/-- The applications of operators in a signature, innermost and leftmost first. -/
def Signature.applications : Signature → List Application
  | .set _ => []
  | .empty => []
  | .universal => []
  | .complement s =>
    s.applications ++ [⟨.complement, (complement s).operands, .complement s⟩]
  | .binary op a b =>
    a.applications ++ b.applications ++
      [⟨.binary op, (binary op a b).operands, .binary op a b⟩]

/-- The expression is a stored set or is built from such by operators; the right operand
of a complement does not matter. -/
inductive Expr.Yields (env : Environment) : Expr → ElementSet → Signature → Prop where
  | reference {name : String} {a : ElementSet} (span : Span)
      (h : env.sets.find? name = some a) : Yields env (.reference name span) a (.set name)
  | complement {lhs : Expr} {a : ElementSet} {s : Signature} (rhs : Option Expr) (span : Span)
      (h : Yields env lhs a s) :
      Yields env (.operation .complement lhs rhs span) (env.complement a).1 (.complement s)
  | binary {op : BinaryOp} {lhs rhs : Expr} {a b : ElementSet} {s t : Signature} (span : Span)
      (hl : Yields env lhs a s) (hr : Yields env rhs b t) :
      Yields env (.operation (.binary op) lhs (some rhs) span) (env.apply op a b).1
        (.binary op s t)

/-- The number of operations counted before does not matter. -/
theorem Expr.Yields.of_countedBy {env : Environment} {n : Nat} {e : Expr} {a : ElementSet}
    {s : Signature} (h : Yields (env.countedBy n) e a s) : Yields env e a s := by
  induction h with
  | reference span h => exact .reference span h
  | complement rhs span _ ih => exact .complement rhs span ih
  | binary span _ _ ihl ihr => exact .binary span ihl ihr

namespace Evaluator

theorem lookup_eq_ok {name : String} {span : Span} {s t : Evaluation.State} {a : ElementSet} :
    lookup name span s = .ok a t ↔ s.env.sets.find? name = some a ∧ t = s := by
  unfold lookup Environment.lookup
  cases s.env.sets.find? name with
  | some found =>
    constructor
    · intro h
      cases h
      exact ⟨rfl, rfl⟩
    · intro h
      obtain ⟨h, rfl⟩ := h
      cases h
      rfl
  | none =>
    constructor
    · intro h
      cases h
    · intro h
      obtain ⟨h, _⟩ := h
      cases h

/-- An operand is taken as it is when it is a set. -/
theorem operand_eq_ok {op : Operator} {side : Side} {span : Span} {v : Value}
    {s t : Evaluation.State} {a : ElementSet × Signature} :
    operand op side span v s = .ok a t ↔ v = .set a.1 a.2 ∧ t = s := by
  cases v with
  | set members signature =>
    constructor
    · intro h
      cases h
      exact ⟨rfl, rfl⟩
    · intro h
      obtain ⟨h, rfl⟩ := h
      cases h
      rfl
  | element | range | list =>
    constructor
    · intro h
      cases h
    · intro h
      obtain ⟨h, _⟩ := h
      cases h

/-- What is evaluated as an operand has to be a set. -/
theorem bind_operand_eq_ok {β : Type} {x : Evaluator Value} {op : Operator} {side : Side}
    {span : Span} {f : ElementSet × Signature → Evaluator β} {s t : Evaluation.State} {b : β} :
    (x >>= fun v => operand op side span v >>= f) s = .ok b t ↔
      ∃ a u, x s = .ok (.set a.1 a.2) u ∧ f a u = .ok b t := by
  rw [bind_eq_ok]
  constructor
  · intro h
    obtain ⟨v, u, hv, h⟩ := h
    rw [bind_eq_ok] at h
    obtain ⟨a, u', ha, h⟩ := h
    obtain ⟨rfl, rfl⟩ := operand_eq_ok.mp ha
    exact ⟨a, u', hv, h⟩
  · intro h
    obtain ⟨a, u, hv, h⟩ := h
    exact ⟨_, u, hv, bind_eq_ok.mpr ⟨a, u, operand_eq_ok.mpr ⟨rfl, rfl⟩, h⟩⟩

end Evaluator

namespace Expr

open Evaluator

/-- Evaluation to a set: what is yielded, what is counted and what is recorded. -/
theorem yields_of_evaluate : (e : Expr) → {s t : Evaluation.State} → {a : ElementSet} →
    {signature : Signature} → e.evaluate s = .ok (.set a signature) t →
    e.Yields s.env a signature ∧
      t = ⟨s.env.countedBy signature.applications.length,
        ⟨s.trace.records ++ signature.applications⟩⟩
  | .primitive value kind _, s, t, a, signature, h => by
    rw [evaluate] at h
    cases h
  | .range first last _, s, t, a, signature, h => by
    rw [evaluate, bind_eq_ok] at h
    obtain ⟨_, _, _, h⟩ := h
    rw [bind_eq_ok] at h
    obtain ⟨first, _, _, h⟩ := h
    rw [bind_eq_ok] at h
    obtain ⟨_, _, _, h⟩ := h
    rw [bind_eq_ok] at h
    obtain ⟨last, _, _, h⟩ := h
    split at h <;> cases h
  | .reference name span, s, t, a, signature, h => by
    rw [evaluate, bind_eq_ok] at h
    obtain ⟨found, u, hfound, h⟩ := h
    obtain ⟨hfound, rfl⟩ := lookup_eq_ok.mp hfound
    cases h
    refine ⟨.reference span hfound, ?_⟩
    rw [Signature.applications, List.append_nil]
    rfl
  | .list elements _, s, t, a, signature, h => by
    rw [evaluate, bind_eq_ok] at h
    obtain ⟨values, u, _, h⟩ := h
    cases h
  | .operation .complement lhs rhs span, s, t, a, signature, h => by
    rw [evaluate, bind_operand_eq_ok] at h
    obtain ⟨p, u, hlhs, h⟩ := h
    obtain ⟨hyields, rfl⟩ := yields_of_evaluate lhs hlhs
    cases h
    refine ⟨.complement rhs span hyields, ?_⟩
    rw [Signature.applications, List.length_append, ← List.append_assoc]
    rfl
  | .operation (.binary op) lhs none span, s, t, a, signature, h => by
    rw [evaluate, bind_operand_eq_ok] at h
    obtain ⟨p, u, _, h⟩ := h
    cases h
  | .operation (.binary op) lhs (some rhs) span, s, t, a, signature, h => by
    rw [evaluate, bind_operand_eq_ok] at h
    obtain ⟨p, u, hlhs, h⟩ := h
    rw [bind_operand_eq_ok] at h
    obtain ⟨q, u', hrhs, h⟩ := h
    obtain ⟨hl, rfl⟩ := yields_of_evaluate lhs hlhs
    -- The second operand is evaluated where the operations of the first are counted already.
    obtain ⟨hr, rfl⟩ := yields_of_evaluate rhs hrhs
    cases h
    refine ⟨.binary span hl hr.of_countedBy, ?_⟩
    rw [Signature.applications, List.length_append, List.length_append,
      ← Environment.countedBy_countedBy, ← Environment.countedBy_countedBy, ← List.append_assoc,
      ← List.append_assoc]
    rfl

end Expr
end SetLaws
