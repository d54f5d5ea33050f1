import SetLaws.Environment
import SetLaws.Evaluation.Value
import SetLaws.Expr

/-!
# Evaluation of expressions

Evaluation counts set operations in the environment and records applications in a
trace.  What was counted and recorded before a fault stays.  Operations inside a
list or inside the bounds of a range are counted but not recorded, as they are no
part of the operation around them.
-/

namespace SetLaws
namespace Evaluation

/-- What evaluation changes. -/
structure State where
  env : Environment
  trace : Trace
deriving DecidableEq, Repr

end Evaluation

/-- A computation that counts and records, and can end in a fault. -/
abbrev Evaluator := EStateM Diagnostic Evaluation.State

namespace Evaluator

/-- Runs a computation on an environment, with an empty trace. -/
def start {α : Type} (x : Evaluator α) (env : Environment) :
    EStateM.Result Diagnostic Evaluation.State α :=
  x.run ⟨env, .empty⟩

/-- Runs a computation without recording what it applies. -/
def quietly {α : Type} (x : Evaluator α) : Evaluator α := fun s =>
  match x s with
  | .ok a t => .ok a { t with trace := s.trace }
  | .error d t => .error d { t with trace := s.trace }

def lookup (name : String) (span : Span) : Evaluator ElementSet := fun s =>
  match s.env.lookup name with
  | .ok set => .ok set s
  | .error fault => .error (.single span fault) s

/-- Applies the complement, and records that. -/
def complement (operand : ElementSet) (signature : Signature) : Evaluator Value := fun s =>
  let (result, env) := s.env.complement operand
  let signature := Signature.complement signature
  .ok (.set result signature) ⟨env, s.trace.record .complement signature⟩

/-- Applies an operator to two sets, and records that. -/
def binary (op : BinaryOp) (lhs : ElementSet × Signature) (rhs : ElementSet × Signature) :
    Evaluator Value := fun s =>
  let (result, env) := s.env.apply op lhs.1 rhs.1
  let signature := Signature.binary op lhs.2 rhs.2
  .ok (.set result signature) ⟨env, s.trace.record (.binary op) signature⟩

def operand (op : Operator) (side : Side) (span : Span) :
    Value → Evaluator (ElementSet × Signature)
  | .set members signature => pure (members, signature)
  | v => throw (.single span (.typeMismatch op v.kind side))

/-- The code of a value as a bound of a range, which has to be an element that has
one. -/
def bound (span : Span) : Value → Evaluator Int64
  | .element e =>
    match e.ordinal with
    | some code => pure code
    | none => throw (.single span (.invalidRange (.noCode e)))
  | v => throw (.single span (.invalidRange (.notSingle v.kind)))

/-- The members of the universal set with codes from `first` to `last`. -/
def between (first last : Int64) : Evaluator Value := fun s =>
  let within (e : Element) : Bool :=
    match e.ordinal with
    | some code => first ≤ code && code ≤ last
    | none => false
  .ok (.range (s.env.universal.filter within)) s

end Evaluator

/-- The element that a literal means.  Blanks around an integer are ignored, and
what does not read as an integer is taken as text. -/
def LiteralKind.element (value : String) : LiteralKind → Element
  | .integer =>
    match Text.readInt64 (Text.trim value) with
    | some n => .ofInt n
    | none => .ofText value
  | _ => .ofText value

namespace Expr

mutual

def evaluate : Expr → Evaluator Value
  | .primitive value kind _ => pure (.element (kind.element value))
  | .range first last _ => do
    let a ← Evaluator.bound first.span (← Evaluator.quietly first.evaluate)
    let b ← Evaluator.bound last.span (← Evaluator.quietly last.evaluate)
    if b < a then throw ⟨[first.span, last.span], .invalidRange (.reversed a b)⟩
    else Evaluator.between a b
  | .reference name span => do
    return .set (← Evaluator.lookup name span) (.set name)
  | .list elements _ => do
    return .list (← evaluateAll elements)
  | .operation .complement lhs _ _ => do
    let (a, s) ← Evaluator.operand .complement .left lhs.span (← lhs.evaluate)
    Evaluator.complement a s
  | .operation (.binary op) lhs none span => do
    let _ ← Evaluator.operand (.binary op) .left lhs.span (← lhs.evaluate)
    throw (.single span (.missingOperand (.binary op)))
  | .operation (.binary op) lhs (some rhs) _ => do
    let a ← Evaluator.operand (.binary op) .left lhs.span (← lhs.evaluate)
    let b ← Evaluator.operand (.binary op) .right rhs.span (← rhs.evaluate)
    Evaluator.binary op a b

/-- Evaluates the members of a list: the elements of their values, in order. -/
def evaluateAll : List Expr → Evaluator (List Element)
  | [] => pure []
  | e :: es => do
    let v ← Evaluator.quietly e.evaluate
    let rest ← evaluateAll es
    return v.elements ++ rest

end

end Expr
end SetLaws
