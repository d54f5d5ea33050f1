import SetLaws.Law
import SetLaws.Signature

/-!
# Transforming by a law

Each law has a function that transforms a signature of one of its shapes.  It looks
at no more of the signature than it needs, so it also answers for others.
-/

namespace SetLaws
namespace Signature

/-- Replaces every `^^{X}` by `{X}`; there is none to replace when the answer is
`none`. -/
def dropDoubleComplements : Signature → Option Signature
  | .complement (.complement (.set x)) => some (.set x)
  | .complement operand => operand.dropDoubleComplements.map .complement
  | .binary op lhs rhs =>
    match lhs.dropDoubleComplements, rhs.dropDoubleComplements with
    | none, none => none
    | lhs', rhs' => some (.binary op (lhs'.getD lhs) (rhs'.getD rhs))
  | _ => none

/-- An intersection becomes the empty set. -/
def collapseEmpty : Signature → Option Signature
  | .binary .intersection _ _ => some .empty
  | _ => none

/-- A union becomes the universal set. -/
def collapseUniversal : Signature → Option Signature
  | .binary .union _ _ => some .universal
  | _ => none

/-- A union or an intersection becomes its first operand. -/
def keepFirst : Signature → Option Signature
  | .binary .union lhs _ => some lhs
  | .binary .intersection lhs _ => some lhs
  | _ => none

/-- A difference becomes the empty set. -/
def collapseDifference : Signature → Option Signature
  | .binary .difference _ _ => some .empty
  | _ => none

/-- Keeps the named set that the other operand, a group, starts with. -/
def absorb : Signature → Option Signature
  | .binary _ lhs rhs =>
    match lhs.set? with
    | some x => if rhs.operands.head? = some x then some (.set x) else rhs.set?.map .set
    | none => rhs.set?.map .set
  | _ => none

/-- Moves a complement into a union or an intersection.  What is no complement
stays as it is. -/
def pushComplement : Signature → Option Signature
  | .complement (.binary .intersection lhs rhs) =>
    some (.binary .union (.complement lhs) (.complement rhs))
  | .complement (.binary .union lhs rhs) =>
    some (.binary .intersection (.complement lhs) (.complement rhs))
  | .complement _ => none
  | s => some s

/-- Distributes a union over an intersection on its right, takes a common operand
out of an intersection of unions, or turns `U & U {X} {Y} {Z} {X}` into
`U & {Z} {Y} {X}`.  Any other union of an intersection stays as it is. -/
def distribute : Signature → Option Signature
  | .binary .intersection (.binary .union x y) (.binary .union _ z) =>
    some (.binary .union x (.binary .intersection y z))
  | .binary .union lhs (.binary .intersection y z) =>
    some (.binary .intersection (.binary .union lhs y) (.binary .union lhs z))
  | .binary .union (.binary .intersection (.binary .union x y) z) _ =>
    some (.binary .union (.binary .intersection z y) x)
  | .binary .union (.binary .intersection x y) rhs =>
    some (.binary .union (.binary .intersection x y) rhs)
  | _ => none

/-- The two operands, if the signature is an application of the operator. -/
def group? (op : BinaryOp) : Signature → Option (Signature × Signature)
  | .binary op' lhs rhs => if op' = op then some (lhs, rhs) else none
  | _ => none

/-- Groups the other way: a group of the same operator on the right is opened
first, and one on the left otherwise. -/
def regroup : Signature → Option Signature
  | .binary op lhs rhs =>
    match rhs.group? op with
    | some (y, z) => some (.binary op (.binary op lhs y) z)
    | none => (lhs.group? op).map fun (x, y) => .binary op x (.binary op y rhs)
  | _ => none

def swapOperands : Signature → Option Signature
  | .binary op lhs rhs => some (.binary op rhs lhs)
  | _ => none

end Signature

namespace Law

def transform : Law → Signature → Option Signature
  | .doubleComplement => Signature.dropDoubleComplements
  | .emptyComplement => Signature.collapseEmpty
  | .universalComplement => Signature.collapseUniversal
  | .idempotence => Signature.keepFirst
  | .selfDifference => Signature.collapseDifference
  | .absorption => Signature.absorb
  | .deMorgan => Signature.pushComplement
  | .distributive => Signature.distribute
  | .associative => Signature.regroup
  | .commutative => Signature.swapOperands

/-- Transforms by the law, unless that changes nothing, and notes an applied law at
the end of the journal. -/
def apply (law : Law) (s : Signature) (journal : List Law) : Option Signature × List Law :=
  match law.transform s with
  | none => (none, journal)
  | some t => if t = s then (none, journal) else (some t, journal ++ [law])

end Law
end SetLaws
