import SetLaws.Proofs.Evaluation.Effect
import SetLaws.Proofs.Evaluation.Meaning

/-!
# The first fault of an operation

An operation goes wrong at an operand that is no stored set and no operation, or where an
operand is missing.  It is evaluated when nothing is wrong with it, and otherwise what is
reported is the first place, in the order of evaluation, where something is.
-/

namespace SetLaws
namespace Evaluation

/-- Where something can be wrong with an operation. -/
inductive Place where
  | operand (op : Operator) (side : Side) (e : Expr)
  /-- Where an operator with two operands, of an operation at the span, has its second one. -/
  | second (op : BinaryOp) (rhs : Option Expr) (span : Span)

end Evaluation

namespace Expr

/-- The places of an operation and of the operations in it, in the order in which they are
evaluated.  The right operand of a complement is not among them. -/
def places : Expr → List Evaluation.Place
  | .operation .complement lhs _ _ => .operand .complement .left lhs :: lhs.places
  | .operation (.binary op) lhs none span =>
    .operand (.binary op) .left lhs :: lhs.places ++ [.second op none span]
  | .operation (.binary op) lhs (some rhs) span =>
    .operand (.binary op) .left lhs :: lhs.places ++
      .second op (some rhs) span :: .operand (.binary op) .right rhs :: rhs.places
  | _ => []

/-- Operands are the names of sets, and operations. -/
def IsOperand : Expr → Prop
  | .reference _ _ => True
  | .operation _ _ _ _ => True
  | _ => False

/-- Operands evaluate to sets, and nothing else does. -/
theorem isOperand_iff_of_ok {e : Expr} {s t : Evaluation.State} {v : Value}
    (h : e.evaluate s = .ok v t) : e.IsOperand ↔ ∃ set signature, v = .set set signature := by
  constructor
  · intro hoperand
    cases e with
    | primitive | range | list => exact absurd hoperand id
    | reference name span =>
      rw [evaluate, Evaluator.bind_eq_ok] at h
      obtain ⟨found, u, -, h⟩ := h
      cases h
      exact ⟨_, _, rfl⟩
    | operation op lhs rhs span => exact exists_set_of_evaluate_operation h
  · rintro ⟨set, signature, rfl⟩
    obtain ⟨hyields, -⟩ := yields_of_evaluate e h
    cases hyields <;> trivial

end Expr

namespace Evaluation

namespace Place

/-- Nothing is wrong at the place; within an operation there are places of their own. -/
def Sound (env : Environment) : Place → Prop
  | .operand _ _ (.reference name _) => env.sets.contains name = true
  | .operand _ _ e => e.IsOperand
  | .second _ rhs _ => rhs.isSome = true

/-- What is wrong at the place. -/
inductive Fails (env : Environment) : Place → Diagnostic → Prop where
  | undefined {op : Operator} {side : Side} {name : String} {span : Span}
      (h : env.sets.contains name = false) :
      Fails env (.operand op side (.reference name span))
        (.single span (.undefinedSet name (env.similarNames name)))
  /-- What is no operand is evaluated all the same. -/
  | evaluation {op : Operator} {side : Side} {e : Expr} {d : Diagnostic} {t : Evaluation.State}
      (hform : ¬ e.IsOperand) (h : e.evaluate.start env = .error d t) :
      Fails env (.operand op side e) d
  | mismatch {op : Operator} {side : Side} {e : Expr} {v : Value} {t : Evaluation.State}
      (hform : ¬ e.IsOperand) (h : e.evaluate.start env = .ok v t) :
      Fails env (.operand op side e) (.single e.span (.typeMismatch op v.kind side))
  | missing {op : BinaryOp} {span : Span} :
      Fails env (.second op none span) (.single span (.missingOperand (.binary op)))

end Place

/-- The diagnostic is that of the first place where something is wrong. -/
inductive FirstFault (env : Environment) : List Place → Diagnostic → Prop where
  | here {p : Place} {ps : List Place} {d : Diagnostic} (h : p.Fails env d) :
      FirstFault env (p :: ps) d
  | later {p : Place} {ps : List Place} {d : Diagnostic} (hp : p.Sound env)
      (h : FirstFault env ps d) : FirstFault env (p :: ps) d

section

variable {env : Environment} {p : Place} {ps qs : List Place} {d d' : Diagnostic}

theorem Place.Fails.not_sound (h : p.Fails env d) : ¬ p.Sound env := by
  cases h with
  | undefined h =>
    intro hsound
    rw [Sound, h] at hsound
    cases hsound
  | @evaluation op side e d t hform _ | @mismatch op side e v t hform _ =>
    cases e with
    | primitive | range | list => exact hform
    | reference | operation => exact absurd trivial hform
  | missing => exact fun hsound => nomatch hsound

theorem Place.Fails.unique (h : p.Fails env d) (h' : p.Fails env d') : d = d' := by
  cases h with
  | undefined h =>
    cases h' with
    | undefined => rfl
    | evaluation hform | mismatch hform => exact absurd trivial hform
  | evaluation hform h =>
    cases h' with
    | undefined => exact absurd trivial hform
    | evaluation _ h' =>
      rw [h] at h'
      cases h'
      rfl
    | mismatch _ h' =>
      rw [h] at h'
      cases h'
  | mismatch hform h =>
    cases h' with
    | undefined => exact absurd trivial hform
    | evaluation _ h' =>
      rw [h] at h'
      cases h'
    | mismatch _ h' =>
      rw [h] at h'
      cases h'
      rfl
  | missing =>
    cases h'
    rfl

namespace FirstFault

theorem append_left (h : FirstFault env ps d) (qs : List Place) :
    FirstFault env (ps ++ qs) d := by
  induction h with
  | here h => exact .here h
  | later hp _ ih => exact .later hp ih

theorem append_right (hps : ∀ p ∈ ps, p.Sound env) (h : FirstFault env qs d) :
    FirstFault env (ps ++ qs) d := by
  induction ps with
  | nil => exact h
  | cons p ps ih =>
    rw [List.forall_mem_cons] at hps
    exact .later hps.1 (ih hps.2)

theorem not_forall_sound (h : FirstFault env ps d) : ¬ ∀ p ∈ ps, p.Sound env := by
  induction h with
  | here h => exact fun hall => h.not_sound (hall _ List.mem_cons_self)
  | later _ _ ih => exact fun hall => ih fun p hp => hall p (List.mem_cons_of_mem _ hp)

theorem unique (h : FirstFault env ps d) (h' : FirstFault env ps d') : d = d' := by
  induction h with
  | here h =>
    cases h' with
    | here h' => exact h.unique h'
    | later hp _ => exact absurd hp h.not_sound
  | later hp _ ih =>
    cases h' with
    | here h' => exact absurd hp h'.not_sound
    | later _ h' => exact ih h'

end FirstFault
end

/-- What the places say about the end of a computation. -/
def Verdict {α : Type} (env : Environment) (ps : List Place) : Except Diagnostic α → Prop
  | .ok _ => ∀ p ∈ ps, p.Sound env
  | .error d => FirstFault env ps d

end Evaluation

namespace Evaluator

open Evaluation

variable {α β : Type} {env : Environment} {ps qs : List Place}

/-- The computation ends as the places say. -/
def Checks (env : Environment) (ps : List Place) (x : Evaluator α) : Prop :=
  ∃ r, HasEffect env x r ∧ Verdict env ps r.ending

/-- Evaluated as an operand, the expression ends as its own place and the places in it say. -/
def ChecksOperand (env : Environment) (op : Operator) (side : Side) (e : Expr) : Prop :=
  Checks env (.operand op side e :: e.places) (e.evaluate >>= operand op side e.span)

namespace Checks

theorem of_ok {x : Evaluator α} {a : α} {m : Nat} {records : List Application}
    (h : HasEffect env x ⟨.ok a, m, records⟩) : Checks env [] x :=
  ⟨_, h, fun _ hp => absurd hp List.not_mem_nil⟩

theorem of_fails {x : Evaluator α} {p : Place} {d : Diagnostic} {m : Nat}
    {records : List Application} (h : HasEffect env x ⟨.error d, m, records⟩)
    (hp : p.Fails env d) (ps : List Place) : Checks env (p :: ps) x :=
  ⟨_, h, .here hp⟩

theorem cons {x : Evaluator α} {p : Place} (hp : p.Sound env) (hx : Checks env ps x) :
    Checks env (p :: ps) x := by
  obtain ⟨⟨ending, m, records⟩, hx, hverdict⟩ := hx
  refine ⟨_, hx, ?_⟩
  cases ending with
  | ok a => exact List.forall_mem_cons.mpr ⟨hp, hverdict⟩
  | error d => exact .later hp hverdict

theorem bind {x : Evaluator α} {f : α → Evaluator β} (hx : Checks env ps x)
    (hf : ∀ a, Checks env qs (f a)) : Checks env (ps ++ qs) (x >>= f) := by
  obtain ⟨⟨ending, m, records⟩, hx, hverdict⟩ := hx
  cases ending with
  | ok a =>
    obtain ⟨r, hr, hverdict'⟩ := hf a
    refine ⟨_, hx.bind hr, ?_⟩
    cases hending : r.ending with rw [hending] at hverdict'
    | ok b => exact List.forall_mem_append.mpr ⟨hverdict, hverdict'⟩
    | error d => exact .append_right hverdict hverdict'
  | error d => exact ⟨_, hx.bind_error, .append_left hverdict qs⟩

theorem operand_reference (op : Operator) (side : Side) (name : String) (span : Span) :
    Checks env [.operand op side (.reference name span)]
      ((Expr.reference name span).evaluate >>= operand op side span) := by
  have hlookup : HasEffect env (lookup name span) _ := .lookup name span
  rw [Environment.lookup] at hlookup
  cases hfound : env.sets.find? name with rw [hfound] at hlookup
  | some a =>
    have hvalue : HasEffect env (Expr.reference name span).evaluate
        ⟨.ok (.set a (.set name)), 0, []⟩ := by
      rw [Expr.evaluate]
      exact hlookup.bind (f := fun a => pure (Value.set a (.set name))) (.pure _)
    refine .cons ?_ (.of_ok (hvalue.bind (.operand_set op side span a (.set name))))
    rw [Place.Sound, NamedSets.contains, hfound, Option.isSome_some]
  | none =>
    rw [Expr.evaluate]
    refine .of_fails hlookup.bind_error.bind_error (.undefined ?_) []
    rw [NamedSets.contains, hfound, Option.isSome_none]

/-- An operation is an operand when it is evaluated at all. -/
theorem operand_operation {op' : Operator} {lhs : Expr} {rhs : Option Expr} {span : Span}
    (op : Operator) (side : Side)
    (h : Checks env ps (Expr.operation op' lhs rhs span).evaluate) :
    Checks env (.operand op side (.operation op' lhs rhs span) :: ps)
      ((Expr.operation op' lhs rhs span).evaluate >>= operand op side span) := by
  obtain ⟨⟨ending, m, records⟩, hx, hverdict⟩ := h
  refine .cons trivial ?_
  cases ending with
  | ok v =>
    obtain ⟨a, signature, rfl⟩ := Expr.exists_set_of_evaluate_operation (hx.eq_on .empty)
    exact ⟨_, hx.bind (.operand_set op side span a signature), hverdict⟩
  | error d => exact ⟨_, hx.bind_error, hverdict⟩

/-- Any other expression is no operand, whatever its evaluation comes to. -/
theorem operand_other {e : Expr} (op : Operator) (side : Side) (hform : ¬ e.IsOperand) :
    Checks env [.operand op side e] (e.evaluate >>= operand op side e.span) := by
  obtain ⟨⟨ending, m, records⟩, hx, -⟩ := e.uniform_evaluate env
  cases ending with
  | ok v =>
    have hv : v.kind ≠ .set := by
      intro hkind
      cases v with
      | set a signature =>
        obtain ⟨hyields, -⟩ := e.yields_of_evaluate (hx.eq_on .empty)
        cases hyields <;> exact hform trivial
      | element | range | list => cases hkind
    exact .of_fails (hx.bind (.operand_other op side e.span hv))
      (.mismatch hform (hx.eq_on .empty)) []
  | error d => exact .of_fails hx.bind_error (.evaluation hform (hx.eq_on .empty)) []

variable {lhs rhs : Expr}

theorem complement (rhs : Option Expr) (span : Span)
    (hl : ChecksOperand env .complement .left lhs) :
    Checks env (Expr.operation .complement lhs rhs span).places
      (Expr.operation .complement lhs rhs span).evaluate := by
  rw [Expr.places, Expr.evaluate, ← List.append_nil (_ :: _), ← bind_assoc]
  exact hl.bind fun a => .of_ok (.complement a.1 a.2)

theorem binary_none (op : BinaryOp) (span : Span)
    (hl : ChecksOperand env (.binary op) .left lhs) :
    Checks env (Expr.operation (.binary op) lhs none span).places
      (Expr.operation (.binary op) lhs none span).evaluate := by
  rw [Expr.places, Expr.evaluate, ← bind_assoc]
  exact hl.bind fun _ => .of_fails (.throw _) .missing []

theorem binary_some (op : BinaryOp) (span : Span)
    (hl : ChecksOperand env (.binary op) .left lhs)
    (hr : ChecksOperand env (.binary op) .right rhs) :
    Checks env (Expr.operation (.binary op) lhs (some rhs) span).places
      (Expr.operation (.binary op) lhs (some rhs) span).evaluate := by
  rw [Expr.places, Expr.evaluate, ← bind_assoc]
  refine hl.bind fun a => .cons rfl ?_
  rw [← List.append_nil (_ :: _), ← bind_assoc]
  exact hr.bind fun b => .of_ok (.binary op a b)

end Checks
end Evaluator

namespace Expr

open Evaluation Evaluator

theorem checks_operand (env : Environment) : (e : Expr) → (op : Operator) → (side : Side) →
    ChecksOperand env op side e
  | .reference name span, op, side => Checks.operand_reference op side name span
  | .primitive _ _ _, op, side => Checks.operand_other op side id
  | .range _ _ _, op, side => Checks.operand_other op side id
  | .list _ _, op, side => Checks.operand_other op side id
  | .operation .complement lhs rhs span, op, side =>
    Checks.operand_operation op side (.complement rhs span (checks_operand env lhs _ _))
  | .operation (.binary op') lhs none span, op, side =>
    Checks.operand_operation op side (.binary_none op' span (checks_operand env lhs _ _))
  | .operation (.binary op') lhs (some rhs) span, op, side =>
    Checks.operand_operation op side
      (.binary_some op' span (checks_operand env lhs _ _) (checks_operand env rhs _ _))

theorem checks_operation (env : Environment) (op : Operator) (lhs : Expr) (rhs : Option Expr)
    (span : Span) :
    Checks env (operation op lhs rhs span).places (operation op lhs rhs span).evaluate := by
  cases op with
  | complement => exact .complement rhs span (checks_operand env lhs _ _)
  | binary op =>
    cases rhs with
    | none => exact .binary_none op span (checks_operand env lhs _ _)
    | some rhs =>
      exact .binary_some op span (checks_operand env lhs _ _) (checks_operand env rhs _ _)

/-- An operation is evaluated when all its places are sound, and otherwise fails with the
diagnostic of the first one that is not. -/
theorem evaluate_operation_fault (env : Environment) (trace : Trace) (op : Operator) (lhs : Expr)
    (rhs : Option Expr) (span : Span) :
    ((∃ v t, (operation op lhs rhs span).evaluate ⟨env, trace⟩ = .ok v t) ↔
      ∀ p ∈ (operation op lhs rhs span).places, p.Sound env) ∧
    ∀ d, (∃ t, (operation op lhs rhs span).evaluate ⟨env, trace⟩ = .error d t) ↔
      FirstFault env (operation op lhs rhs span).places d := by
  obtain ⟨⟨ending, m, records⟩, hx, hverdict⟩ := checks_operation env op lhs rhs span
  rw [hx.eq_on trace]
  cases ending with
  | ok v =>
    refine ⟨⟨fun _ => hverdict, fun _ => ⟨v, _, rfl⟩⟩, fun d => ⟨?_, fun h => ?_⟩⟩
    · rintro ⟨t, h⟩
      cases h
    · exact absurd hverdict h.not_forall_sound
  | error d =>
    refine ⟨⟨?_, fun h => absurd h hverdict.not_forall_sound⟩, fun d' => ⟨?_, fun h => ?_⟩⟩
    · rintro ⟨v, t, h⟩
      cases h
    · rintro ⟨t, h⟩
      cases h
      exact hverdict
    · obtain rfl := hverdict.unique h
      exact ⟨_, rfl⟩

-- The left operand goes wrong at its end, before the right one, which no set has as its name.
example :
    let env := (Environment.initial.define "A" (.ofList [.char 'a'])).2
    let left : Expr := .operation (.binary .intersection) (.reference "A" .nowhere) none ⟨3, 4⟩
    (operation (.binary .union) left (some (.reference "B" ⟨5, 6⟩)) ⟨0, 6⟩).evaluate.start env =
      .error (.single ⟨3, 4⟩ (.missingOperand (.binary .intersection))) ⟨env, .empty⟩ := by
  rfl

end Expr
end SetLaws
