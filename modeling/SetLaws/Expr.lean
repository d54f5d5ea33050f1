import SetLaws.Diagnostic

/-!
# Expressions

What a program writes where a set, an element or a range is meant.  Every part
carries the place in the source from which it comes.
-/

namespace SetLaws

inductive LiteralKind where
  | integer
  | letter
  | symbol
  | text
deriving DecidableEq, Repr

inductive Expr where
  | primitive (value : String) (kind : LiteralKind) (span : Span)
  /-- The elements with codes from that of `first` to that of `last`. -/
  | range (first last : Expr) (span : Span)
  | reference (name : String) (span : Span)
  | list (elements : List Expr) (span : Span)
  /-- An operator and its operands.  The complement ignores the right one. -/
  | operation (op : Operator) (lhs : Expr) (rhs : Option Expr) (span : Span)
deriving Repr

structure Reference where
  name : String
  span : Span
deriving DecidableEq, Repr

namespace Expr

def int (n : Int64) : Expr := .primitive (toString n.toInt) .integer .nowhere

def letter (c : Char) : Expr := .primitive c.toString .letter .nowhere

def span : Expr → Span
  | .primitive _ _ span => span
  | .range _ _ span => span
  | .reference _ span => span
  | .list _ span => span
  | .operation _ _ _ span => span

mutual

/-- The number of expressions in the expression, itself among them. -/
def size : Expr → Nat
  | .primitive _ _ _ => 1
  | .range first last _ => 1 + first.size + last.size
  | .reference _ _ => 1
  | .list elements _ => 1 + sizes elements
  | .operation _ lhs none _ => 1 + lhs.size
  | .operation _ lhs (some rhs) _ => 1 + lhs.size + rhs.size

/-- The number of expressions in a list of expressions. -/
def sizes : List Expr → Nat
  | [] => 0
  | e :: es => e.size + sizes es

end

theorem sizes_append (es fs : List Expr) : sizes (es ++ fs) = sizes es + sizes fs := by
  induction es with
  | nil => simp [sizes]
  | cons e es ih => rw [List.cons_append, sizes, sizes, ih, Nat.add_assoc]

/-- The named sets in a list of expressions that are still to be visited, in the
order of the source. -/
def referencesOf : List Expr → List Reference
  | [] => []
  | .primitive _ _ _ :: rest => referencesOf rest
  | .reference name span :: rest => ⟨name, span⟩ :: referencesOf rest
  | .range first last _ :: rest => referencesOf (first :: last :: rest)
  | .list elements _ :: rest => referencesOf (elements ++ rest)
  | .operation _ lhs none _ :: rest => referencesOf (lhs :: rest)
  | .operation _ lhs (some rhs) _ :: rest => referencesOf (lhs :: rhs :: rest)
termination_by pending => sizes pending
decreasing_by all_goals simp only [sizes, size, sizes_append]; omega

/-- The named sets in the expression, in the order of the source. -/
def references (e : Expr) : List Reference :=
  referencesOf [e]

end Expr
end SetLaws
