import SetLaws.Signature

/-!
# The names in a signature

The names are collected with a list of signatures that are still to be visited.  Here
are the equations that the recursion on the signature itself would have, and that recursion.
-/

namespace SetLaws
namespace Signature

theorem operandsOf_append (pending rest : List Signature) :
    operandsOf (pending ++ rest) = operandsOf pending ++ operandsOf rest := by
  fun_induction operandsOf pending with
  | case1 => rfl
  | case2 rest' x ih => rw [List.cons_append, operandsOf, ih, List.cons_append]
  | case3 rest' ih => rw [List.cons_append, operandsOf, ih]
  | case4 rest' ih => rw [List.cons_append, operandsOf, ih]
  | case5 rest' s ih =>
    rw [List.cons_append, operandsOf]
    exact ih
  | case6 rest' op a b ih =>
    rw [List.cons_append, operandsOf]
    exact ih

-- What is in the signature on top comes before what is below it.
example : operandsOf [binary .union (set "A") (complement (set "B")), set "A"] =
    ["A", "B", "A"] := by
  decide +kernel

theorem operands_set (x : String) : (set x).operands = [x] := by
  rw [operands, operandsOf, operandsOf]

theorem operands_empty : empty.operands = [] := by
  rw [operands, operandsOf, operandsOf]

theorem operands_universal : universal.operands = [] := by
  rw [operands, operandsOf, operandsOf]

theorem operands_complement (s : Signature) : (complement s).operands = s.operands := by
  rw [operands, operandsOf, operands]

theorem operands_binary (op : BinaryOp) (a b : Signature) :
    (binary op a b).operands = a.operands ++ b.operands := by
  rw [operands, operandsOf]
  exact operandsOf_append [a] [b]

/-- The names in a signature from left to right. -/
def names : Signature → List String
  | .set name => [name]
  | .empty => []
  | .universal => []
  | .complement operand => operand.names
  | .binary _ lhs rhs => lhs.names ++ rhs.names

theorem operands_eq_names (s : Signature) : s.operands = s.names := by
  induction s with
  | set name => exact operands_set name
  | empty => exact operands_empty
  | universal => exact operands_universal
  | complement operand ih => rw [operands_complement, ih, names]
  | binary op lhs rhs ihl ihr => rw [operands_binary, ihl, ihr, names]

end Signature
end SetLaws
