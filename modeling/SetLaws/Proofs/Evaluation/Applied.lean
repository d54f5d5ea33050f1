import SetLaws.Proofs.Evaluation.Range
import SetLaws.Proofs.Evaluation.Trace

/-!
# Operations that are applied

Operands are evaluated from left to right, and the first one that does not fit ends the
evaluation.  Counted are the operations whose operands are sets, which are all operations in the
expression if it has a value.
-/

namespace SetLaws

/-- The value is a single element that has a code. -/
def Value.hasCode : Value → Bool
  | .element e => e.ordinal.isSome
  | _ => false

namespace Evaluator

variable {α β : Type}

/-- The result of a computation, if it has one. -/
def result? (env : Environment) (x : Evaluator α) : Option α :=
  match x.start env with
  | .ok a _ => some a
  | .error _ _ => none

/-- What is wrong with a computation that has no result. -/
def fault? (env : Environment) (x : Evaluator α) : Option Diagnostic :=
  match x.start env with
  | .ok _ _ => none
  | .error d _ => some d

section

variable {env : Environment} {stored : Prop} {x : Evaluator α} {f : α → Evaluator β}

theorem result?_eq_some_iff {a : α} :
    x.result? env = some a ↔ ∃ t, x.start env = .ok a t := by
  rw [result?]
  cases x.start env with
  | ok b t => simp
  | error d t => simp

theorem fault?_eq_some_iff {d : Diagnostic} :
    x.fault? env = some d ↔ ∃ t, x.start env = .error d t := by
  rw [fault?]
  cases x.start env with
  | ok a t => simp
  | error d' t => simp

theorem HasEffect.result?_eq {r : Evaluation.Effect α} (h : HasEffect env x r) :
    x.result? env = r.ending.toOption := by
  have hstart : x.start env = _ := h.eq_on .empty
  rw [result?, hstart, Evaluation.Effect.on]
  cases r.ending <;> rfl

theorem HasEffect.fault?_eq {d : Diagnostic} {n : Nat} {records : List Application}
    (h : HasEffect env x ⟨.error d, n, records⟩) : x.fault? env = some d :=
  fault?_eq_some_iff.mpr ⟨_, h.eq_on .empty⟩

/-- Either there is a result or something is wrong. -/
theorem fault?_eq_none_iff : x.fault? env = none ↔ ∃ a, x.result? env = some a := by
  rw [fault?, result?]
  cases x.start env with
  | ok a t => exact iff_of_true rfl ⟨a, rfl⟩
  | error d t =>
    refine iff_of_false (Option.some_ne_none d) ?_
    rintro ⟨a, h⟩
    cases h

theorem result?_quietly (hx : Uniform env stored x) : x.quietly.result? env = x.result? env := by
  obtain ⟨r, hr, -⟩ := hx
  rw [hr.quietly.result?_eq, hr.result?_eq]

theorem result?_bind (hx : Uniform env stored x) (hf : ∀ a, Uniform env stored (f a)) :
    (x >>= f).result? env = (x.result? env).bind fun a => (f a).result? env := by
  obtain ⟨⟨ending, m, records⟩, hr, -⟩ := hx
  rw [hr.result?_eq]
  cases ending with
  | ok a =>
    obtain ⟨r, hfa, -⟩ := hf a
    rw [(hr.bind hfa).result?_eq]
    exact hfa.result?_eq.symm
  | error d => exact (hr.bind_error (f := f)).result?_eq

theorem isSome_of_isSome_bind (hx : Uniform env stored x) (hf : ∀ a, Uniform env stored (f a))
    (h : ((x >>= f).result? env).isSome = true) :
    (x.result? env).isSome = true ∧ ∃ a, ((f a).result? env).isSome = true := by
  rw [result?_bind hx hf] at h
  cases hresult : x.result? env with
  | none =>
    rw [hresult] at h
    cases h
  | some a =>
    rw [hresult] at h
    exact ⟨rfl, a, h⟩

end

/-- The computation counts this number of operations, whether it has a result or not. -/
def Counts (env : Environment) (x : Evaluator α) (n : Nat) : Prop :=
  ∃ r, HasEffect env x r ∧ r.count = n

/-- The check lets pass exactly the values with a property, and counts nothing. -/
structure Admits (env : Environment) (check : Value → Evaluator α) (p : Value → Bool) : Prop where
  counts (v : Value) : Counts env (check v) 0
  isSome (v : Value) : ((check v).result? env).isSome = p v

section

variable {env : Environment} {x : Evaluator α} {f : α → Evaluator β} {m n : Nat}

namespace Counts

theorem uniform (h : Counts env x n) : Uniform env False x :=
  h.imp fun _ hr => ⟨hr.1, False.elim⟩

theorem of_effect {ending : Except Diagnostic α} {records : List Application}
    (h : HasEffect env x ⟨ending, n, records⟩) : Counts env x n :=
  ⟨_, h, rfl⟩

theorem quietly (h : Counts env x n) : Counts env x.quietly n := by
  obtain ⟨r, hr, rfl⟩ := h
  exact .of_effect hr.quietly

/-- What follows a computation counts only if this has a result. -/
theorem bind (hx : Counts env x m) (hf : ∀ a, Counts env (f a) n) :
    Counts env (x >>= f) (m + if (x.result? env).isSome then n else 0) := by
  obtain ⟨⟨ending, m, records⟩, hr, rfl⟩ := hx
  rw [hr.result?_eq]
  cases ending with
  | ok a =>
    obtain ⟨r, hfa, rfl⟩ := hf a
    exact .of_effect (hr.bind hfa)
  | error d => exact .of_effect hr.bind_error

theorem bind_zero (hx : Counts env x n) (hf : ∀ a, Counts env (f a) 0) :
    Counts env (x >>= f) n := by
  have h := hx.bind hf
  rwa [ite_self, Nat.add_zero] at h

/-- A check after a computation that may end without a value. -/
theorem check {y : Evaluator Value} {check : Value → Evaluator α} {p : Value → Bool}
    (hy : Counts env y n) (h : Admits env check p) :
    Counts env (y >>= check) n ∧ ((y >>= check).result? env).isSome = (y.result? env).any p := by
  refine ⟨hy.bind_zero h.counts, ?_⟩
  rw [result?_bind hy.uniform fun v => (h.counts v).uniform]
  cases y.result? env with
  | none => rfl
  | some v => exact h.isSome v

/-- What follows a check counts only if there is a value that passes. -/
theorem bind_check {y : Evaluator Value} {check : Value → Evaluator α} {p : Value → Bool}
    (hy : Counts env y m) (h : Admits env check p) (hf : ∀ a, Counts env (f a) n) :
    Counts env ((y >>= check) >>= f) (m + if (y.result? env).any p then n else 0) := by
  obtain ⟨hcounts, hpasses⟩ := hy.check h
  rw [← hpasses]
  exact hcounts.bind hf

/-- What follows a check has a result only if there is a value that passes. -/
theorem any_of_isSome_bind {y : Evaluator Value} {check : Value → Evaluator α} {p : Value → Bool}
    (hy : Counts env y m) (h : Admits env check p) (hf : ∀ a, Uniform env False (f a))
    (hsome : (((y >>= check) >>= f).result? env).isSome = true) :
    (y.result? env).any p = true ∧ ∃ a, ((f a).result? env).isSome = true := by
  obtain ⟨hcounts, hpasses⟩ := hy.check h
  rw [← hpasses]
  exact isSome_of_isSome_bind hcounts.uniform hf hsome

end Counts

theorem admits_operand (op : Operator) (side : Side) (span : Span) :
    Admits env (operand op side span) Value.isSet where
  counts v := by
    cases v with
    | set a signature => exact .of_effect (.operand_set op side span a signature)
    | element | range | list => exact .of_effect (.throw _)
  isSome v := by cases v <;> rfl

theorem admits_bound (span : Span) : Admits env (bound span) Value.hasCode where
  counts v := by
    cases v with
    | element e =>
      rw [bound]
      split
      · exact .of_effect (.pure _)
      · exact .of_effect (.throw _)
    | set | range | list => exact .of_effect (.throw _)
  isSome v := by
    cases v with
    | element e =>
      rw [bound, Value.hasCode]
      cases e.ordinal <;> rfl
    | set | range | list => rfl

end
end Evaluator

namespace Expr

open Evaluator

/-- The value of an expression, if it has one. -/
def value? (env : Environment) (e : Expr) : Option Value :=
  e.evaluate.result? env

/-- What is wrong with an expression that has no value. -/
def fault? (env : Environment) (e : Expr) : Option Diagnostic :=
  e.evaluate.fault? env

mutual

/-- The operations in an expression that are applied when it is evaluated, in order: those in the
parts that are reached, and the operation itself if its operands are sets. -/
def applied (env : Environment) : Expr → List Expr
  | .primitive _ _ _ => []
  | .range first last _ =>
    first.applied env ++ if (first.value? env).any Value.hasCode then last.applied env else []
  | .reference _ _ => []
  | .list elements _ => appliedInAll env elements
  | .operation .complement lhs rhs span =>
    lhs.applied env ++
      if (lhs.value? env).any Value.isSet then [.operation .complement lhs rhs span] else []
  | .operation (.binary _) lhs none _ => lhs.applied env
  | .operation (.binary op) lhs (some rhs) span =>
    lhs.applied env ++
      if (lhs.value? env).any Value.isSet then
        rhs.applied env ++
          if (rhs.value? env).any Value.isSet then [.operation (.binary op) lhs (some rhs) span]
          else []
      else []

def appliedInAll (env : Environment) : List Expr → List Expr
  | [] => []
  | e :: es => e.applied env ++ if (e.value? env).isSome then appliedInAll env es else []

end

section

variable (lhs rhs : Expr) (rhs? : Option Expr) (op : BinaryOp) (span : Span)

theorem evaluate_complement_eq :
    (operation .complement lhs rhs? span).evaluate =
      (lhs.evaluate >>= operand .complement .left lhs.span) >>= fun a =>
        Evaluator.complement a.1 a.2 := by
  rw [evaluate, bind_assoc]

theorem evaluate_binary_none_eq :
    (operation (.binary op) lhs none span).evaluate =
      (lhs.evaluate >>= operand (.binary op) .left lhs.span) >>= fun _ =>
        throw (.single span (.missingOperand (.binary op))) := by
  rw [evaluate, bind_assoc]

theorem evaluate_binary_some_eq :
    (operation (.binary op) lhs (some rhs) span).evaluate =
      (lhs.evaluate >>= operand (.binary op) .left lhs.span) >>= fun a =>
        (rhs.evaluate >>= operand (.binary op) .right rhs.span) >>= fun b =>
          Evaluator.binary op a b := by
  rw [evaluate]
  simp only [bind_assoc]

end

section

variable {env : Environment} {first last rhs : Expr} {n : Nat}

theorem counts_inOrder (a b : Int64) : Counts env (inOrder first last a b) 0 := by
  rw [inOrder]
  split
  · exact .of_effect (.throw _)
  · obtain ⟨members, hbetween, -⟩ := exists_between env a b
    exact .of_effect hbetween

theorem counts_last (h : Counts env last.evaluate n) (a : Int64) :
    Counts env ((last.evaluate.quietly >>= bound last.span) >>= inOrder first last a) n :=
  (h.quietly.check (admits_bound last.span)).1.bind_zero (counts_inOrder a)

theorem counts_right (h : Counts env rhs.evaluate n) (op : BinaryOp) (a : ElementSet × Signature) :
    Counts env
      ((rhs.evaluate >>= operand (.binary op) .right rhs.span) >>= fun b =>
        Evaluator.binary op a b)
      (n + if (rhs.value? env).any Value.isSet then 1 else 0) :=
  h.bind_check (admits_operand _ _ _) fun b => .of_effect (.binary op a b)

end

mutual

/-- Exactly the operations that are applied are counted. -/
theorem counts_evaluate (env : Environment) : (e : Expr) →
    Counts env e.evaluate (e.applied env).length
  | .primitive value kind _ => by
    rw [evaluate]
    exact .of_effect (.pure _)
  | .range first last span => by
    have hfirst := counts_evaluate env first
    have hlast := counts_evaluate env last
    rw [evaluate_range_eq, applied, List.length_append, apply_ite List.length, value?,
      ← result?_quietly hfirst.uniform]
    exact hfirst.quietly.bind_check (admits_bound first.span) (counts_last hlast)
  | .reference name span => by
    have hlookup : Counts env (lookup name span) 0 := .of_effect (.lookup name span)
    rw [evaluate]
    exact hlookup.bind_zero fun members => .of_effect (.pure _)
  | .list elements _ => by
    rw [evaluate, applied]
    exact (counts_evaluateAll env elements).bind_zero fun values => .of_effect (.pure _)
  | .operation .complement lhs rhs span => by
    rw [evaluate_complement_eq, applied, List.length_append, apply_ite List.length]
    exact (counts_evaluate env lhs).bind_check (admits_operand _ _ _) fun a =>
      .of_effect (.complement a.1 a.2)
  | .operation (.binary op) lhs none span => by
    rw [evaluate_binary_none_eq, applied]
    have hlhs := (counts_evaluate env lhs).check (admits_operand (.binary op) .left lhs.span)
    exact hlhs.1.bind_zero fun a => .of_effect (.throw _)
  | .operation (.binary op) lhs (some rhs) span => by
    rw [evaluate_binary_some_eq, applied, List.length_append, apply_ite List.length,
      List.length_append, apply_ite List.length]
    exact (counts_evaluate env lhs).bind_check (admits_operand _ _ _)
      (counts_right (counts_evaluate env rhs) op)

theorem counts_evaluateAll (env : Environment) : (es : List Expr) →
    Counts env (evaluateAll es) (appliedInAll env es).length
  | [] => by
    rw [evaluateAll]
    exact .of_effect (.pure [])
  | e :: es => by
    have he := counts_evaluate env e
    rw [evaluateAll, appliedInAll, List.length_append, apply_ite List.length, value?,
      ← result?_quietly he.uniform]
    refine he.quietly.bind fun v => ?_
    exact (counts_evaluateAll env es).bind_zero fun rest => .of_effect (.pure _)

end

mutual

/-- Where an expression has a value, all operations in it are applied. -/
theorem applied_eq_operations {env : Environment} : (e : Expr) → (e.value? env).isSome = true →
    e.applied env = e.operations
  | .primitive _ _ _, _ => rfl
  | .range first last span, h => by
    have hfirst := counts_evaluate env first
    have hlast := counts_evaluate env last
    rw [value?, evaluate_range_eq] at h
    obtain ⟨hcode, a, ha⟩ := hfirst.quietly.any_of_isSome_bind (admits_bound first.span)
      (fun a => (counts_last hlast a).uniform) h
    obtain ⟨hcode', -⟩ := hlast.quietly.any_of_isSome_bind (admits_bound last.span)
      (fun b => (counts_inOrder a b).uniform) ha
    rw [result?_quietly hfirst.uniform] at hcode
    rw [result?_quietly hlast.uniform] at hcode'
    rw [applied, operations, value?, if_pos hcode,
      applied_eq_operations first (Option.isSome_of_any hcode),
      applied_eq_operations last (Option.isSome_of_any hcode')]
  | .reference _ _, _ => rfl
  | .list elements _, h => by
    rw [value?, evaluate] at h
    obtain ⟨hall, -⟩ :=
      isSome_of_isSome_bind (uniform_evaluateAll env elements) (fun _ => .pure _) h
    rw [applied, operations, appliedInAll_eq_operationsOfAll elements hall]
  | .operation .complement lhs rhs span, h => by
    rw [value?, evaluate_complement_eq] at h
    obtain ⟨hset, -⟩ := (counts_evaluate env lhs).any_of_isSome_bind (admits_operand _ _ _)
      (fun a => .of_ok (.complement a.1 a.2)) h
    rw [applied, operations, value?, if_pos hset,
      applied_eq_operations lhs (Option.isSome_of_any hset)]
  | .operation (.binary op) lhs none span, h => by
    rw [value?, evaluate_binary_none_eq] at h
    obtain ⟨-, _, hthrow⟩ := (counts_evaluate env lhs).any_of_isSome_bind (admits_operand _ _ _)
      (fun _ => .throw id) h
    cases hthrow
  | .operation (.binary op) lhs (some rhs) span, h => by
    have hrhs := counts_evaluate env rhs
    rw [value?, evaluate_binary_some_eq] at h
    obtain ⟨hset, a, ha⟩ := (counts_evaluate env lhs).any_of_isSome_bind (admits_operand _ _ _)
      (fun a => (counts_right hrhs op a).uniform) h
    obtain ⟨hset', -⟩ := hrhs.any_of_isSome_bind (admits_operand _ _ _)
      (fun b => .of_ok (.binary op a b)) ha
    rw [applied, operations, value?, value?, if_pos hset, if_pos hset',
      applied_eq_operations lhs (Option.isSome_of_any hset),
      applied_eq_operations rhs (Option.isSome_of_any hset'), List.append_assoc]

theorem appliedInAll_eq_operationsOfAll {env : Environment} : (es : List Expr) →
    ((evaluateAll es).result? env).isSome = true → appliedInAll env es = operationsOfAll es
  | [], _ => rfl
  | e :: es, h => by
    have hes := uniform_evaluateAll env es
    rw [evaluateAll] at h
    obtain ⟨he, v, hv⟩ := isSome_of_isSome_bind (uniform_evaluate env e).quietly
      (fun _ => hes.bind fun _ => .pure _) h
    obtain ⟨hrest, -⟩ := isSome_of_isSome_bind hes (fun _ => .pure _) hv
    rw [result?_quietly (uniform_evaluate env e)] at he
    rw [appliedInAll, operationsOfAll, value?, if_pos he, applied_eq_operations e he,
      appliedInAll_eq_operationsOfAll es hrest]

end

end Expr
end SetLaws
