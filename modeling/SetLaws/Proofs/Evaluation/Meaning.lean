import SetLaws.Proofs.Evaluation.Yields
import SetLaws.Proofs.Signature.Meaning
import SetLaws.Proofs.Signature.Operands

/-!
# What the captured signature stands for

The signature that evaluation captures has the shape of the expression, and read among
the named sets it stands for the set that was computed.
-/

namespace SetLaws

/-- The expression without its spans and without the right operands of complements, if it
is built from references by operators. -/
def Expr.erased : Expr → Option Signature
  | .reference name _ => some (.set name)
  | .operation .complement lhs _ _ => lhs.erased.map .complement
  | .operation (.binary op) lhs (some rhs) _ =>
    match lhs.erased, rhs.erased with
    | some s, some t => some (.binary op s t)
    | _, _ => none
  | _ => none

namespace Environment

/-- The members of the set with the given name; none where no set has it. -/
def named (env : Environment) (name : String) : Finset Element :=
  match env.sets.find? name with
  | some a => a.members
  | none => ∅

/-- The elements for which a signature stands among the named sets. -/
def denotation (env : Environment) (s : Signature) : Finset Element :=
  s.meaning env.universal.members env.named

/-- A signature captures an expression and its set: it is the expression, erased, and stands
for the set among the named sets, in which all its names are stored. -/
structure Captures (env : Environment) (e : Expr) (set : ElementSet) (signature : Signature) :
    Prop where
  erased : e.erased = some signature
  stored : ∀ x ∈ signature.operands, env.sets.contains x = true
  members : set.members = env.denotation signature

theorem IsNormal.apply {env : Environment} {a b : ElementSet} (op : BinaryOp)
    (ha : a.IsNormal) (hb : b.IsNormal) : (env.apply op a b).1.IsNormal := by
  cases op with
  | union => exact ha.union hb
  | intersection => exact ha.inter hb
  | difference => exact ha.diff b

theorem members_apply (env : Environment) {a b : ElementSet} (op : BinaryOp)
    (ha : a.IsNormal) (hb : b.IsNormal) :
    (env.apply op a b).1.members = op.meaning a.members b.members := by
  cases op with
  | union => exact ha.members_union hb
  | intersection => exact ha.members_inter hb
  | difference => exact ha.members_diff hb

end Environment

namespace Expr.Yields

variable {env : Environment} {e : Expr} {a : ElementSet} {s : Signature}

theorem erased_eq (h : Yields env e a s) : e.erased = some s := by
  induction h with
  | reference span h => rfl
  | complement rhs span _ ih => rw [Expr.erased, ih, Option.map_some]
  | binary span _ _ ihl ihr => simp only [Expr.erased, ihl, ihr]

/-- Every name in the signature is the name of a stored set. -/
theorem contains_of_mem_operands (h : Yields env e a s) :
    ∀ x ∈ s.operands, env.sets.contains x = true := by
  induction h with
  | @reference name a span h =>
    intro x hx
    rw [Signature.operands_set, List.mem_singleton] at hx
    rw [hx, NamedSets.contains, h, Option.isSome_some]
  | complement rhs span _ ih =>
    rw [Signature.operands_complement]
    exact ih
  | binary span _ _ ihl ihr =>
    intro x hx
    rw [Signature.operands_binary, List.mem_append] at hx
    exact hx.elim (ihl x) (ihr x)

theorem isNormal (h : Yields env e a s) (henv : env.IsNormal) : a.IsNormal := by
  induction h with
  | reference span h => exact henv.sets h
  | complement rhs span _ _ => exact henv.universal.diff _
  | @binary op lhs rhs a b s t span _ _ ihl ihr =>
    exact Environment.IsNormal.apply op ihl ihr

/-- The members of the yielded set are those for which the signature stands. -/
theorem members_eq (h : Yields env e a s) (henv : env.IsNormal) :
    a.members = env.denotation s := by
  induction h with
  | @reference name a span h =>
    show a.members = env.named name
    rw [Environment.named, h]
  | @complement lhs a s rhs span h ih =>
    show (env.universal.diff a).members = env.universal.members \ env.denotation s
    rw [henv.universal.members_diff (h.isNormal henv), ih]
  | @binary op lhs rhs a b s t span hl hr ihl ihr =>
    show _ = op.meaning (env.denotation s) (env.denotation t)
    rw [env.members_apply op (hl.isNormal henv) (hr.isNormal henv), ihl, ihr]

theorem captures (h : Yields env e a s) (henv : env.IsNormal) : env.Captures e a s where
  erased := h.erased_eq
  stored := h.contains_of_mem_operands
  members := h.members_eq henv

end Expr.Yields

namespace Expr

open Evaluator

/-- An operation that evaluates at all evaluates to a set. -/
theorem exists_set_of_evaluate_operation {op : Operator} {lhs : Expr} {rhs : Option Expr}
    {span : Span} {s t : Evaluation.State} {v : Value}
    (h : (operation op lhs rhs span).evaluate s = .ok v t) :
    ∃ a signature, v = .set a signature := by
  cases op with
  | complement =>
    rw [evaluate, bind_operand_eq_ok] at h
    obtain ⟨p, u, _, h⟩ := h
    cases h
    exact ⟨_, _, rfl⟩
  | binary op =>
    cases rhs with
    | none =>
      rw [evaluate, bind_operand_eq_ok] at h
      obtain ⟨p, u, _, h⟩ := h
      cases h
    | some rhs =>
      rw [evaluate, bind_operand_eq_ok] at h
      obtain ⟨p, u, _, h⟩ := h
      rw [bind_operand_eq_ok] at h
      obtain ⟨q, u', _, h⟩ := h
      cases h
      exact ⟨_, _, rfl⟩

end Expr
end SetLaws
