import SetLaws.Law
import SetLaws.Signature

/-!
# The shapes to which the laws apply

A law applies to signatures of a few shapes, in which the operands are named sets.
One signature can have the shapes of several laws; the first of them is detected.
-/

namespace SetLaws

/-- Whether the operator is a union or an intersection. -/
def BinaryOp.isSymmetric : BinaryOp → Bool
  | .union => true
  | .intersection => true
  | .difference => false

/-- Whether one operator is a union and the other an intersection. -/
def BinaryOp.isDual : BinaryOp → BinaryOp → Bool
  | .union, .intersection => true
  | .intersection, .union => true
  | _, _ => false

namespace Signature

/-- Whether the signature is `^^{X}`. -/
def isDoubleComplement : Signature → Bool
  | .complement (.complement (.set _)) => true
  | _ => false

/-- Whether `^^{X}` is found in one of the signatures that are still to be
visited. -/
def findsDoubleComplement : List Signature → Bool
  | [] => false
  | s :: rest =>
    if s.isDoubleComplement then true
    else match s with
      | .set _ => findsDoubleComplement rest
      | .empty => findsDoubleComplement rest
      | .universal => findsDoubleComplement rest
      | .complement operand => findsDoubleComplement (operand :: rest)
      | .binary _ lhs rhs => findsDoubleComplement (lhs :: rhs :: rest)
termination_by pending => tokenTotal pending
decreasing_by all_goals simp only [tokenTotal, tokenCount]; omega

/-- Whether `^^{X}` stands anywhere in the signature. -/
def hasDoubleComplement (s : Signature) : Bool :=
  findsDoubleComplement [s]

/-- Whether the signature is `& {X} ^{X}` or `& ^^{X} ^{X}`. -/
def isEmptyComplement : Signature → Bool
  | .binary .intersection (.set x) (.complement (.set y)) => x = y
  | .binary .intersection (.complement (.complement (.set x))) (.complement (.set y)) => x = y
  | _ => false

/-- Whether the signature is `U {X} ^{X}`. -/
def isUniversalComplement : Signature → Bool
  | .binary .union (.set x) (.complement (.set y)) => x = y
  | _ => false

/-- Whether the signature is `U {X} {X}`, `& {X} {X}`, `U ^{X} ^{X}` or
`& ^{X} ^{X}`. -/
def isIdempotence : Signature → Bool
  | .binary op (.set x) (.set y) => op.isSymmetric && x = y
  | .binary op (.complement (.set x)) (.complement (.set y)) => op.isSymmetric && x = y
  | _ => false

/-- Whether the signature is `- {X} {X}`. -/
def isSelfDifference : Signature → Bool
  | .binary .difference (.set x) (.set y) => x = y
  | _ => false

/-- Whether the signature is `& U {X} {Y} {X}`, `& {X} U {X} {Y}`,
`U & {X} {Y} {X}` or `U {X} & {X} {Y}`. -/
def isAbsorption : Signature → Bool
  | .binary outer (.binary inner (.set x) (.set _)) (.set z) => outer.isDual inner && x = z
  | .binary outer (.set z) (.binary inner (.set x) (.set _)) => outer.isDual inner && x = z
  | _ => false

/-- Whether the signature is `^ & {X} {Y}`, `^ U {X} {Y}`, `U ^{X} ^{Y}` or
`& ^{X} ^{Y}`. -/
def isDeMorgan : Signature → Bool
  | .complement (.binary op (.set _) (.set _)) => op.isSymmetric
  | .binary op (.complement (.set _)) (.complement (.set _)) => op.isSymmetric
  | _ => false

/-- Whether the signature is `U {X} & {Y} {Z}`, `U & {X} {Y} {Z}`,
`U & U {X} {Y} {Z} {X}` or `& U {X} {Y} U {X} {Z}`. -/
def isDistributive : Signature → Bool
  | .binary .union (.set _) (.binary .intersection (.set _) (.set _)) => true
  | .binary .union (.binary .intersection (.set _) (.set _)) (.set _) => true
  | .binary .union (.binary .intersection (.binary .union (.set x) (.set _)) (.set _)) (.set w) =>
    x = w
  | .binary .intersection (.binary .union (.set x) (.set _)) (.binary .union (.set w) (.set _)) =>
    x = w
  | _ => false

/-- Whether the signature is `U {X} U {Y} {Z}`, `U U {X} {Y} {Z}`,
`& {X} & {Y} {Z}` or `& & {X} {Y} {Z}`. -/
def isAssociative : Signature → Bool
  | .binary op (.set _) (.binary op' (.set _) (.set _)) => op.isSymmetric && op = op'
  | .binary op (.binary op' (.set _) (.set _)) (.set _) => op.isSymmetric && op = op'
  | _ => false

/-- Whether the signature is `U {X} {Y}` or `& {X} {Y}` with two different
names. -/
def isCommutative : Signature → Bool
  | .binary op (.set x) (.set y) => op.isSymmetric && x ≠ y
  | _ => false

end Signature

def Law.fits : Law → Signature → Bool
  | .doubleComplement => Signature.hasDoubleComplement
  | .emptyComplement => Signature.isEmptyComplement
  | .universalComplement => Signature.isUniversalComplement
  | .idempotence => Signature.isIdempotence
  | .selfDifference => Signature.isSelfDifference
  | .absorption => Signature.isAbsorption
  | .deMorgan => Signature.isDeMorgan
  | .distributive => Signature.isDistributive
  | .associative => Signature.isAssociative
  | .commutative => Signature.isCommutative

def Law.detect (s : Signature) : Option Law :=
  Law.all.find? (·.fits s)

end SetLaws
