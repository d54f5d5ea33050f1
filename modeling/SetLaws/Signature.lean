/-!
# Operators and signatures

Union, intersection and difference take two operands; the complement takes one.
The signature of an operation is its shape: which operators are applied, in which
order, to which named sets.
-/

namespace SetLaws

inductive BinaryOp where
  | union
  | intersection
  | difference
deriving DecidableEq, Repr

def BinaryOp.symbol : BinaryOp → String
  | .union => "U"
  | .intersection => "&"
  | .difference => "-"

inductive Operator where
  | binary (op : BinaryOp)
  | complement
deriving DecidableEq, Repr

namespace Operator

def symbol : Operator → String
  | .binary op => op.symbol
  | .complement => "^"

def isUnary : Operator → Bool
  | .binary _ => false
  | .complement => true

/-- The operator that takes two operands, if it is one. -/
def binary? : Operator → Option BinaryOp
  | .binary op => some op
  | .complement => none

def all : List Operator :=
  [.binary .union, .binary .intersection, .binary .difference, .complement]

def ofSymbol? (symbol : String) : Option Operator :=
  all.find? (·.symbol = symbol)

end Operator

/-! ## Signatures -/

/-- The shape of a set operation. -/
inductive Signature where
  | set (name : String)
  | empty
  | universal
  | complement (operand : Signature)
  | binary (op : BinaryOp) (lhs rhs : Signature)
deriving DecidableEq, Repr

namespace Signature

def set? : Signature → Option String
  | .set name => some name
  | _ => none

def complement? : Signature → Option Signature
  | .complement operand => some operand
  | _ => none

/-- The name, if the signature is the complement of a named set. -/
def complementedSet? : Signature → Option String
  | .complement (.set name) => some name
  | _ => none

/-- The number of operators, names and atoms in the signature. -/
def tokenCount : Signature → Nat
  | .set _ => 1
  | .empty => 1
  | .universal => 1
  | .complement operand => 1 + operand.tokenCount
  | .binary _ lhs rhs => 1 + lhs.tokenCount + rhs.tokenCount

def tokenTotal : List Signature → Nat
  | [] => 0
  | s :: rest => s.tokenCount + tokenTotal rest

/-- The names of the sets in a list of signatures that are still to be visited,
in the order in which they are written. -/
def operandsOf : List Signature → List String
  | [] => []
  | .set name :: rest => name :: operandsOf rest
  | .empty :: rest => operandsOf rest
  | .universal :: rest => operandsOf rest
  | .complement operand :: rest => operandsOf (operand :: rest)
  | .binary _ lhs rhs :: rest => operandsOf (lhs :: rhs :: rest)
termination_by pending => tokenTotal pending
decreasing_by all_goals simp only [tokenTotal, tokenCount]; omega

/-- The names of the sets in the signature, in the order in which they are
written. -/
def operands (s : Signature) : List String :=
  operandsOf [s]

end Signature

end SetLaws
