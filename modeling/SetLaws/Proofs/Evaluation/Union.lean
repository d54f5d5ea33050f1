import SetLaws.Proofs.ElementSet.Same
import SetLaws.Proofs.Evaluation.Elements
import SetLaws.Proofs.Evaluation.Flattened
import SetLaws.Proofs.Evaluation.Normal

/-!
# The union of expressions

A list of expressions with values brings together the elements of their sets.  An operation that
unites the same expressions has these elements too.
-/

namespace SetLaws

theorem Value.has_toSet_iff {v : Value} {x : Element} :
    v.toSet.Has x ↔ ∃ e ∈ v.elements, e.normalized = x.normalized := by
  cases v with
  | element | list => exact ElementSet.has_ofList
  | set | range => exact Iff.rfl

namespace Environment

/-- The expressions name stored sets only, and each of them has a value. -/
structure Evaluates (env : Environment) (es : List Expr) : Prop where
  stored (r : Reference) (hr : r ∈ es.flatMap Expr.references) : env.sets.contains r.name = true
  value (e : Expr) (he : e ∈ es) : ∃ v, e.value? env = some v

/-- The element is in the set of one of the expressions. -/
def Supplies (env : Environment) (es : List Expr) (x : Element) : Prop :=
  ∃ e ∈ es, ∃ v, e.value? env = some v ∧ v.toSet.Has x

/-- The union of the sets that the expressions have as values. -/
def unionOf (env : Environment) (es : List Expr) : ElementSet :=
  .unionAll ((es.filterMap (Expr.value? env)).map Value.toSet)

variable {env : Environment} {es fs : List Expr} {x : Element}

theorem has_unionOf : (env.unionOf es).Has x ↔ env.Supplies es x := by
  rw [unionOf, ElementSet.has_unionAll, Supplies]
  simp only [List.mem_map, List.mem_filterMap]
  constructor
  · rintro ⟨_, ⟨v, ⟨e, he, hv⟩, rfl⟩, hx⟩
    exact ⟨e, he, v, hv, hx⟩
  · rintro ⟨e, he, v, hv, hx⟩
    exact ⟨v.toSet, ⟨v, ⟨e, he, hv⟩, rfl⟩, hx⟩

theorem IsNormal.unionOf (henv : env.IsNormal) (es : List Expr) : (env.unionOf es).IsNormal := by
  refine ElementSet.isNormal_unionAll fun set hset => ?_
  obtain ⟨v, hv, rfl⟩ := List.mem_map.mp hset
  obtain ⟨e, -, hvalue⟩ := List.mem_filterMap.mp hv
  obtain ⟨t, hok⟩ := Evaluator.result?_eq_some_iff.mp hvalue
  exact (Expr.isNormal_of_ok henv hok).toSet

/-- It does not matter how often and in which order the expressions stand. -/
theorem Evaluates.mono (h : env.Evaluates es) (hsub : ∀ e ∈ fs, e ∈ es) : env.Evaluates fs where
  stored r hr := by
    obtain ⟨e, he, hr⟩ := List.mem_flatMap.mp hr
    exact h.stored r (List.mem_flatMap.mpr ⟨e, hsub e he, hr⟩)
  value e he := h.value e (hsub e he)

theorem supplies_congr (h : ∀ e, e ∈ fs ↔ e ∈ es) : env.Supplies fs x ↔ env.Supplies es x :=
  exists_congr fun e => and_congr_left fun _ => h e

end Environment

namespace Expr

open Evaluator

variable {env : Environment} {es : List Expr}

theorem result?_evaluateAll_cons (e : Expr) (es : List Expr) :
    (evaluateAll (e :: es)).result? env =
      (e.value? env).bind fun v => ((evaluateAll es).result? env).map (v.elements ++ ·) := by
  have he := uniform_evaluate env e
  have hes := uniform_evaluateAll env es
  rw [evaluateAll, result?_bind he.quietly fun v => hes.bind fun rest => .pure _,
    result?_quietly he, value?]
  refine congrArg _ (funext fun v => ?_)
  rw [result?_bind hes fun rest => .pure _]
  cases (evaluateAll es).result? env <;> rfl

/-- Members are evaluated together when each has a value, and then their elements are listed. -/
theorem result?_evaluateAll_eq_some_iff {xs : List Element} :
    (evaluateAll es).result? env = some xs ↔
      (∀ e ∈ es, ∃ v, e.value? env = some v) ∧
      xs = (es.filterMap (value? env)).flatMap Value.elements := by
  induction es generalizing xs with
  | nil =>
    rw [evaluateAll]
    show some [] = some xs ↔ _
    simp [eq_comm]
  | cons e es ih =>
    rw [result?_evaluateAll_cons, List.forall_mem_cons]
    cases hv : e.value? env with
    | none => simp
    | some v =>
      rw [Option.bind_some, Option.map_eq_some_iff, List.filterMap_cons_some hv,
        List.flatMap_cons]
      simp only [ih, Option.some.injEq, exists_eq', true_and, and_assoc, exists_and_left,
        exists_eq_left, eq_comm]

/-- The elements of the sets are those that are listed, in any spelling. -/
theorem supplies_iff {xs : List Element} {x : Element}
    (h : (evaluateAll es).result? env = some xs) :
    env.Supplies es x ↔ ∃ y ∈ xs, y.normalized = x.normalized := by
  obtain ⟨-, rfl⟩ := result?_evaluateAll_eq_some_iff.mp h
  simp only [Environment.Supplies, Value.has_toSet_iff, List.mem_flatMap, List.mem_filterMap]
  constructor
  · rintro ⟨e, he, v, hv, y, hy, hyx⟩
    exact ⟨y, ⟨v, ⟨e, he, hv⟩, hy⟩, hyx⟩
  · rintro ⟨y, ⟨v, ⟨e, he, hv⟩, hy⟩, hyx⟩
    exact ⟨e, he, v, hv, y, hy, hyx⟩

/-- The members have values when they can be evaluated together. -/
theorem evaluates_iff :
    env.Evaluates es ↔
      (∀ r ∈ es.flatMap references, env.sets.contains r.name = true) ∧
      ∃ xs, (evaluateAll es).result? env = some xs := by
  constructor
  · intro h
    exact ⟨h.stored, _, result?_evaluateAll_eq_some_iff.mpr ⟨h.value, rfl⟩⟩
  · rintro ⟨hstored, xs, hxs⟩
    exact ⟨hstored, (result?_evaluateAll_eq_some_iff.mp hxs).1⟩

theorem evaluates_flattened_iff : env.Evaluates (flattened es) ↔ env.Evaluates es := by
  rw [evaluates_iff, references_flattened, evaluateAll_flattened, evaluates_iff]

theorem supplies_flattened_iff {x : Element} (h : env.Evaluates es) :
    env.Supplies (flattened es) x ↔ env.Supplies es x := by
  obtain ⟨-, xs, hxs⟩ := evaluates_iff.mp h
  rw [supplies_iff hxs, supplies_iff]
  rw [evaluateAll_flattened, hxs]

/-- The list has a value, and the set of this value is the union of the members. -/
theorem exists_value_list (h : env.Evaluates es) (span : Span) :
    ∃ v, (list es span).value? env = some v ∧ ∀ x, v.toSet.Has x ↔ env.Supplies es x := by
  obtain ⟨-, xs, hxs⟩ := evaluates_iff.mp h
  refine ⟨.list xs, ?_, fun x => ?_⟩
  · rw [value?, evaluate, result?_bind (uniform_evaluateAll env es) fun _ => .pure _, hxs]
    rfl
  · rw [Value.has_toSet_iff, supplies_iff hxs]
    rfl

/-- The operation unites these operands, which stand in it in this order; it does not matter
which of them are united first. -/
inductive Unites : Expr → List Expr → Prop where
  | operand {e : Expr} (h : e.IsOperand) : Unites e [e]
  | union {lhs rhs : Expr} {es fs : List Expr} (span : Span) (hl : Unites lhs es)
      (hr : Unites rhs fs) : Unites (.operation (.binary .union) lhs (some rhs) span) (es ++ fs)

namespace Unites

variable {e : Expr}

theorem isOperand (h : e.Unites es) : e.IsOperand := by
  cases h with
  | operand h => exact h
  | union => trivial

theorem references_eq (h : e.Unites es) : e.references = es.flatMap references := by
  induction h with
  | operand => exact (List.flatMap_singleton _ _).symm
  | union span _ _ ihl ihr => rw [references_operation_some, ihl, ihr, List.flatMap_append]

/-- Where the operands have values, their union is the set of the operation. -/
theorem exists_yields (h : e.Unites es) (hes : ∀ e ∈ es, ∃ v, e.value? env = some v) :
    ∃ set signature, e.Yields env set signature ∧ ∀ x, set.Has x ↔ env.Supplies es x := by
  induction h with
  | @operand e he =>
    obtain ⟨v, hv⟩ := hes e List.mem_cons_self
    obtain ⟨t, hok⟩ := result?_eq_some_iff.mp hv
    obtain ⟨set, signature, rfl⟩ := (isOperand_iff_of_ok hok).mp he
    refine ⟨set, signature, (yields_of_evaluate e hok).1, fun x => ?_⟩
    simp [Environment.Supplies, hv, Value.toSet]
  | union span _ _ ihl ihr =>
    rw [List.forall_mem_append] at hes
    obtain ⟨a, s, hl, ha⟩ := ihl hes.1
    obtain ⟨b, t, hr, hb⟩ := ihr hes.2
    refine ⟨_, _, .binary span hl hr, fun x => ?_⟩
    show (a.union b).Has x ↔ _
    rw [ElementSet.has_union, ha, hb]
    simp only [Environment.Supplies, List.mem_append, or_and_right, exists_or]

end Unites
end Expr
end SetLaws
