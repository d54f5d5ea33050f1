import SetLaws.Evaluation
import SetLaws.Proofs.Environment.Reachable
import SetLaws.Proofs.Expr.References

/-!
# The effect of evaluation

How a computation ends, how many operations it counts and what it records depends on the
universal set and the named sets only, and not on what was counted and recorded before.  Nothing
else in the environment is changed, whether it ends with a value or with a fault.  The fault is
never that a name has no set when all names in the expression have one.
-/

namespace SetLaws

/-- The fault is that a name has no set or that no operation has been stored under it. -/
def Fault.IsUndefined : Fault → Prop
  | .undefinedSet _ _ => True
  | .undefinedOperation _ => True
  | _ => False

namespace Evaluation

/-- What a computation does to the state in which it is started. -/
structure Effect (α : Type) where
  ending : Except Diagnostic α
  /-- The number of operations that are counted. -/
  count : Nat
  records : List Application

namespace Effect

variable {α : Type}

def next (r : Effect α) (s : State) : State :=
  ⟨s.env.countedBy r.count, ⟨s.trace.records ++ r.records⟩⟩

/-- The result of a computation with this effect. -/
def on (r : Effect α) (s : State) : EStateM.Result Diagnostic State α :=
  match r.ending with
  | .ok a => .ok a (r.next s)
  | .error d => .error d (r.next s)

end Effect
end Evaluation

namespace Evaluator

open Evaluation

variable {α β : Type}

theorem bind_eq_ok {x : Evaluator α} {f : α → Evaluator β} {s t : Evaluation.State} {b : β} :
    (x >>= f) s = .ok b t ↔ ∃ a u, x s = .ok a u ∧ f a u = .ok b t := by
  show EStateM.bind x f s = _ ↔ _
  unfold EStateM.bind
  cases x s with
  | ok a u =>
    constructor
    · intro h
      exact ⟨a, u, rfl, h⟩
    · intro h
      obtain ⟨a', u', hx, h⟩ := h
      cases hx
      exact h
  | error d u =>
    constructor
    · intro h
      cases h
    · intro h
      obtain ⟨a', u', hx, h⟩ := h
      cases hx

theorem bind_eq_error {x : Evaluator α} {f : α → Evaluator β} {s t : Evaluation.State}
    {d : Diagnostic} :
    (x >>= f) s = .error d t ↔
      x s = .error d t ∨ ∃ a u, x s = .ok a u ∧ f a u = .error d t := by
  show EStateM.bind x f s = _ ↔ _
  unfold EStateM.bind
  cases x s with
  | ok a u =>
    constructor
    · intro h
      exact Or.inr ⟨a, u, rfl, h⟩
    · intro h
      rcases h with hx | ⟨a', u', hx, h⟩
      · cases hx
      · cases hx
        exact h
  | error d' u =>
    constructor
    · intro h
      cases h
      exact Or.inl rfl
    · intro h
      rcases h with hx | ⟨a', u', hx, h⟩
      · cases hx
        rfl
      · cases hx

/-- The computation has the effect whatever else has been counted in the environment, and
whatever has been recorded. -/
def HasEffect (env : Environment) (x : Evaluator α) (r : Effect α) : Prop :=
  ∀ n trace, x ⟨env.countedBy n, trace⟩ = r.on ⟨env.countedBy n, trace⟩

/-- The computation has an effect, and where all its names are `stored` it does not end for want
of one. -/
def Uniform (env : Environment) (stored : Prop) (x : Evaluator α) : Prop :=
  ∃ r, HasEffect env x r ∧ (stored → ∀ d, r.ending = .error d → ¬ d.fault.IsUndefined)

namespace HasEffect

variable {env : Environment} {x : Evaluator α} {f : α → Evaluator β}

theorem eq_on {r : Effect α} (h : HasEffect env x r) (trace : Trace) :
    x ⟨env, trace⟩ = r.on ⟨env, trace⟩ :=
  h 0 trace

theorem eq_next_of_ok {r : Effect α} (h : HasEffect env x r) {trace : Trace} {a : α} {t : State}
    (hok : x ⟨env, trace⟩ = .ok a t) : t = r.next ⟨env, trace⟩ := by
  rw [h.eq_on, Effect.on] at hok
  split at hok <;> cases hok
  rfl

theorem eq_next_of_error {r : Effect α} (h : HasEffect env x r) {trace : Trace} {d : Diagnostic}
    {t : State} (herror : x ⟨env, trace⟩ = .error d t) : t = r.next ⟨env, trace⟩ := by
  rw [h.eq_on, Effect.on] at herror
  split at herror <;> cases herror
  rfl

theorem ok_iff {r : Effect α} (h : HasEffect env x r) (trace : Trace) (a : α) :
    (∃ t, x ⟨env, trace⟩ = .ok a t) ↔ r.ending = .ok a := by
  rw [h.eq_on trace, Effect.on]
  cases r.ending with
  | ok b => simp
  | error d => simp

theorem error_iff {r : Effect α} (h : HasEffect env x r) (trace : Trace) (d : Diagnostic) :
    (∃ t, x ⟨env, trace⟩ = .error d t) ↔ r.ending = .error d := by
  rw [h.eq_on trace, Effect.on]
  cases r.ending with
  | ok b => simp
  | error d' => simp

theorem pure (a : α) : HasEffect env (Pure.pure a) ⟨.ok a, 0, []⟩ := by
  intro n trace
  rw [Effect.on, Effect.next, List.append_nil]
  rfl

theorem throw (d : Diagnostic) :
    HasEffect env (MonadExcept.throw d : Evaluator α) ⟨.error d, 0, []⟩ := by
  intro n trace
  rw [Effect.on, Effect.next, List.append_nil]
  rfl

theorem bind {a : α} {m : Nat} {records : List Application} {r : Effect β}
    (hx : HasEffect env x ⟨.ok a, m, records⟩) (hf : HasEffect env (f a) r) :
    HasEffect env (x >>= f) ⟨r.ending, m + r.count, records ++ r.records⟩ := by
  intro n trace
  show EStateM.bind x f _ = _
  rw [EStateM.bind, hx n trace]
  show f a ⟨(env.countedBy n).countedBy m, ⟨trace.records ++ records⟩⟩ = _
  rw [Environment.countedBy_countedBy, hf]
  cases hending : r.ending with
  | ok b | error d =>
    simp only [Effect.on, Effect.next, hending, Environment.countedBy_countedBy,
      List.append_assoc, Nat.add_assoc]

theorem bind_error {d : Diagnostic} {m : Nat} {records : List Application}
    (hx : HasEffect env x ⟨.error d, m, records⟩) :
    HasEffect env (x >>= f) ⟨.error d, m, records⟩ := by
  intro n trace
  show EStateM.bind x f _ = _
  rw [EStateM.bind, hx n trace]
  rfl

theorem quietly {r : Effect α} (hx : HasEffect env x r) :
    HasEffect env x.quietly { r with records := [] } := by
  intro n trace
  rw [Evaluator.quietly, hx n trace]
  cases hending : r.ending with
  | ok a | error d => simp only [Effect.on, Effect.next, hending, List.append_nil]

theorem complement (a : ElementSet) (signature : Signature) :
    HasEffect env (Evaluator.complement a signature)
      ⟨.ok (.set (env.universal.diff a) (.complement signature)), 1,
        [⟨.complement, (Signature.complement signature).operands, .complement signature⟩]⟩ :=
  fun _ _ => rfl

theorem binary (op : BinaryOp) (a b : ElementSet × Signature) :
    HasEffect env (Evaluator.binary op a b)
      ⟨.ok (.set (env.apply op a.1 b.1).1 (.binary op a.2 b.2)), 1,
        [⟨.binary op, (Signature.binary op a.2 b.2).operands, .binary op a.2 b.2⟩]⟩ :=
  fun _ _ => rfl

theorem lookup (name : String) (span : Span) :
    HasEffect env (Evaluator.lookup name span)
      ⟨(env.lookup name).mapError (.single span), 0, []⟩ := by
  intro n trace
  have hlookup : (env.countedBy n).lookup name = env.lookup name := rfl
  rw [Evaluator.lookup, hlookup]
  cases env.lookup name with
  | ok a | error fault =>
    rw [Effect.on, Effect.next, List.append_nil]
    rfl

theorem operand_set (op : Operator) (side : Side) (span : Span) (a : ElementSet)
    (signature : Signature) :
    HasEffect env (Evaluator.operand op side span (.set a signature))
      ⟨.ok (a, signature), 0, []⟩ :=
  .pure (a, signature)

theorem operand_other {v : Value} (op : Operator) (side : Side) (span : Span)
    (hv : v.kind ≠ .set) :
    HasEffect env (Evaluator.operand op side span v)
      ⟨.error (.single span (.typeMismatch op v.kind side)), 0, []⟩ := by
  cases v with
  | set => exact absurd rfl hv
  | element | range | list => exact .throw _

end HasEffect

namespace Uniform

variable {env : Environment} {stored : Prop} {x : Evaluator α} {f : α → Evaluator β}

theorem of_ok {a : α} {n : Nat} {records : List Application}
    (h : HasEffect env x ⟨.ok a, n, records⟩) : Uniform env stored x :=
  ⟨_, h, fun _ _ hd => nomatch hd⟩

theorem of_error {d : Diagnostic} {n : Nat} {records : List Application}
    (h : HasEffect env x ⟨.error d, n, records⟩) (hd : stored → ¬ d.fault.IsUndefined) :
    Uniform env stored x := by
  refine ⟨_, h, fun hstored d' hending => ?_⟩
  cases hending
  exact hd hstored

theorem pure (a : α) : Uniform env stored (Pure.pure a) := of_ok (.pure a)

theorem throw {d : Diagnostic} (hd : ¬ d.fault.IsUndefined) :
    Uniform env stored (MonadExcept.throw d : Evaluator α) := of_error (.throw d) fun _ => hd

theorem bind (hx : Uniform env stored x) (hf : ∀ a, Uniform env stored (f a)) :
    Uniform env stored (x >>= f) := by
  obtain ⟨⟨ending, m, records⟩, hx, hd⟩ := hx
  cases ending with
  | ok a =>
    obtain ⟨r, hr, hd⟩ := hf a
    exact ⟨_, hx.bind hr, hd⟩
  | error d => exact of_error hx.bind_error fun hstored => hd hstored d rfl

theorem quietly (hx : Uniform env stored x) : Uniform env stored x.quietly := by
  obtain ⟨r, hr, hd⟩ := hx
  exact ⟨_, hr.quietly, hd⟩

theorem lookup {name : String} (span : Span) (h : stored → env.sets.contains name = true) :
    Uniform env stored (Evaluator.lookup name span) := by
  refine ⟨_, .lookup name span, fun hstored d hd => ?_⟩
  have hname := h hstored
  rw [NamedSets.contains, Option.isSome_iff_exists] at hname
  obtain ⟨set, hset⟩ := hname
  rw [Environment.lookup, hset] at hd
  cases hd

theorem between (first last : Int64) : Uniform env stored (Evaluator.between first last) := by
  obtain ⟨within, hwithin⟩ : ∃ within : Element → Bool, ∀ s,
      Evaluator.between first last s = .ok (.range (s.env.universal.filter within)) s :=
    ⟨_, fun _ => rfl⟩
  have heffect : HasEffect env (Evaluator.between first last)
      ⟨.ok (.range (env.universal.filter within)), 0, []⟩ := by
    intro n trace
    rw [hwithin, Effect.on, Effect.next, List.append_nil]
    rfl
  exact of_ok heffect

theorem operand (op : Operator) (side : Side) (span : Span) (v : Value) :
    Uniform env stored (Evaluator.operand op side span v) := by
  by_cases hv : v.kind = .set
  · cases v with
    | set a signature => exact of_ok (.operand_set op side span a signature)
    | element | range | list => cases hv
  · exact of_error (.operand_other op side span hv) fun _ => id

theorem bound (span : Span) (v : Value) : Uniform env stored (Evaluator.bound span v) := by
  cases v with
  | element e =>
    rw [Evaluator.bound]
    split
    · exact .pure _
    · exact .throw id
  | set | range | list => exact .throw id

end Uniform
end Evaluator

namespace Expr

open Evaluator

section

variable {env : Environment} {stored : Prop}

mutual

/-- Evaluation depends on nothing but the universal set and the named sets, and misses no name
that is stored. -/
theorem uniform_of_stored : (e : Expr) →
    (stored → ∀ r ∈ e.references, env.sets.contains r.name = true) → Uniform env stored e.evaluate
  | .primitive value kind _, _ => by
    rw [evaluate]
    exact .pure _
  | .range first last _, h => by
    rw [references_range, List.forall_mem_append, imp_and] at h
    rw [evaluate]
    refine (uniform_of_stored first h.1).quietly.bind fun v => (Uniform.bound _ v).bind fun a => ?_
    refine (uniform_of_stored last h.2).quietly.bind fun w => (Uniform.bound _ w).bind fun b => ?_
    split
    · exact .throw id
    · exact .between a b
  | .reference name span, h => by
    have hname : stored → env.sets.contains name = true := by
      intro hstored
      exact h hstored ⟨name, span⟩ (by rw [references_reference, List.mem_singleton])
    rw [evaluate]
    exact (Uniform.lookup span hname).bind fun members => .pure _
  | .list elements _, h => by
    rw [references_list] at h
    rw [evaluate]
    exact (uniform_all_of_stored elements h).bind fun values => .pure _
  | .operation .complement lhs rhs _, h => by
    have hlhs : stored → ∀ r ∈ lhs.references, env.sets.contains r.name = true := by
      cases rhs with
      | none =>
        rw [references_operation_none] at h
        exact h
      | some rhs =>
        rw [references_operation_some, List.forall_mem_append, imp_and] at h
        exact h.1
    rw [evaluate]
    refine (uniform_of_stored lhs hlhs).bind fun v => ?_
    exact (Uniform.operand _ _ _ v).bind fun a => .of_ok (.complement a.1 a.2)
  | .operation (.binary op) lhs none _, h => by
    rw [references_operation_none] at h
    rw [evaluate]
    refine (uniform_of_stored lhs h).bind fun v => ?_
    exact (Uniform.operand _ _ _ v).bind fun a => .throw id
  | .operation (.binary op) lhs (some rhs) _, h => by
    rw [references_operation_some, List.forall_mem_append, imp_and] at h
    rw [evaluate]
    refine (uniform_of_stored lhs h.1).bind fun v => (Uniform.operand _ _ _ v).bind fun a => ?_
    refine (uniform_of_stored rhs h.2).bind fun w => (Uniform.operand _ _ _ w).bind fun b => ?_
    exact .of_ok (.binary op a b)

theorem uniform_all_of_stored : (es : List Expr) →
    (stored → ∀ r ∈ es.flatMap references, env.sets.contains r.name = true) →
    Uniform env stored (evaluateAll es)
  | [], _ => by
    rw [evaluateAll]
    exact .pure []
  | e :: es, h => by
    rw [List.flatMap_cons, List.forall_mem_append, imp_and] at h
    rw [evaluateAll]
    refine (uniform_of_stored e h.1).quietly.bind fun v => ?_
    exact (uniform_all_of_stored es h.2).bind fun rest => .pure _

end

end

/-- Whether its names are stored or not, an expression has one effect. -/
theorem uniform_evaluate (env : Environment) (e : Expr) : Uniform env False e.evaluate :=
  uniform_of_stored e False.elim

theorem uniform_evaluateAll (env : Environment) (es : List Expr) :
    Uniform env False (evaluateAll es) :=
  uniform_all_of_stored es False.elim

variable {e : Expr} {env : Environment} {t : Evaluation.State}

/-- A value is found with nothing but operations counted. -/
theorem exists_countedBy_of_ok {v : Value} (h : e.evaluate.start env = .ok v t) :
    ∃ n trace, t = ⟨env.countedBy n, trace⟩ := by
  obtain ⟨r, hr, -⟩ := uniform_evaluate env e
  exact ⟨_, _, hr.eq_next_of_ok h⟩

/-- A fault, too, is found with nothing but operations counted. -/
theorem exists_countedBy_of_error {d : Diagnostic} (h : e.evaluate.start env = .error d t) :
    ∃ n trace, t = ⟨env.countedBy n, trace⟩ := by
  obtain ⟨r, hr, -⟩ := uniform_evaluate env e
  exact ⟨_, _, hr.eq_next_of_error h⟩

/-- Where all names of an expression are stored, its evaluation misses none. -/
theorem not_isUndefined_of_error {d : Diagnostic}
    (hall : ∀ r ∈ e.references, env.sets.contains r.name = true)
    (h : e.evaluate.start env = .error d t) : ¬ d.fault.IsUndefined := by
  obtain ⟨r, hr, hd⟩ := uniform_of_stored e fun _ : True => hall
  exact hd trivial d ((hr.error_iff .empty d).mp ⟨t, h⟩)

end Expr
end SetLaws
