import SetLaws.Element
import SetLaws.Signature
import SetLaws.Text.Place

/-!
# Faults

What can be wrong with a program's use of sets, and the wording in which a fault
is reported: a message, a label for each place it concerns, and a help text.
-/

namespace SetLaws

inductive ValueKind where
  | element
  | set
  | range
  | list
deriving DecidableEq, Repr

def ValueKind.name : ValueKind → String
  | .element => "element"
  | .set => "set"
  | .range => "range"
  | .list => "list"

/-- The side of an operator on which an operand stands. -/
inductive Side where
  | left
  | right
deriving DecidableEq, Repr

def Side.name : Side → String
  | .left => "left"
  | .right => "right"

inductive RangeFault where
  /-- The bound is an element without a code. -/
  | noCode (bound : Element)
  /-- The bound is no single element. -/
  | notSingle (kind : ValueKind)
  /-- The first code is greater than the last. -/
  | reversed (first last : Int64)
deriving DecidableEq, Repr

def RangeFault.reason : RangeFault → String
  | .noCode bound => "`" ++ bound.display ++ "` cannot be converted to a character code"
  | .notSingle kind => "a range bound must be a single element, found a `" ++ kind.name ++ "`"
  | .reversed first last =>
    "the start (" ++ toString first.toInt ++ ") is greater than the end (" ++
      toString last.toInt ++ ")"

inductive SignatureFault where
  /-- The text ends before the signature does. -/
  | unexpectedEnd
  /-- A pair of braces holds no name. -/
  | blankName (extent : Text.Extent)
  /-- A token stands where an operand should. -/
  | unexpected (lexeme : String) (extent : Text.Extent)
  /-- A token follows the complete signature. -/
  | trailing (lexeme : String) (extent : Text.Extent)
deriving DecidableEq, Repr

def SignatureFault.reason : SignatureFault → String
  | .unexpectedEnd => "unexpected end of signature"
  | .blankName extent => "empty set name at " ++ extent.display
  | .unexpected lexeme extent => "unexpected `" ++ lexeme ++ "` at " ++ extent.display
  | .trailing lexeme extent => "unexpected trailing `" ++ lexeme ++ "` at " ++ extent.display

inductive Fault where
  /-- No set has the name; `suggestions` are the names that are similar to it. -/
  | undefinedSet (name : String) (suggestions : List String)
  /-- No stored operation has the name. -/
  | undefinedOperation (name : String)
  /-- An operand is no set. -/
  | typeMismatch (operator : Operator) (given : ValueKind) (side : Side)
  | invalidRange (cause : RangeFault)
  | unrecognizedOperator (token : String)
  /-- An operator on two sets has only one operand. -/
  | missingOperand (operator : Operator)
  | invalidSignature (cause : SignatureFault)
  /-- An operation was asked for, and the expression is none. -/
  | expectedOperation (given : ValueKind)
deriving DecidableEq, Repr

namespace Fault

def operandKind : ValueKind := .set

def message : Fault → String
  | .undefinedSet name _ => "the set `" ++ name ++ "` is not defined"
  | .undefinedOperation name => "the operation `" ++ name ++ "` is not defined"
  | .typeMismatch op _ _ => "cannot apply the `" ++ op.symbol ++ "` operator to this operand"
  | .invalidRange _ => "invalid range"
  | .unrecognizedOperator token => "unrecognized operator `" ++ token ++ "`"
  | .missingOperand op => "the `" ++ op.symbol ++ "` operator requires two operands"
  | .invalidSignature _ => "invalid operation signature"
  | .expectedOperation _ => "expected a set operation"

/-- The words at the first place that the fault concerns. -/
def label : Fault → String
  | .undefinedSet .. => "this set"
  | .undefinedOperation _ => "this operation"
  | .typeMismatch _ given side =>
    "the " ++ side.name ++ " operand has type `" ++ given.name ++ "`"
  | .invalidRange cause => cause.reason
  | .unrecognizedOperator _ => "this operator"
  | .missingOperand _ => "this operation"
  | .invalidSignature cause => cause.reason
  | .expectedOperation given => "this expression has type `" ++ given.name ++ "`"

def help : Fault → String
  | .undefinedSet name [] => "to define it, type: " ++ name ++ " = \x7b1, 2, 3\x7d"
  | .undefinedSet _ [suggestion] => "did you mean the set `" ++ suggestion ++ "`?"
  | .undefinedSet _ suggestions =>
    "did you mean one of these sets? " ++
      ", ".intercalate (suggestions.map fun s => "`" ++ s ++ "`")
  | .undefinedOperation name =>
    "define the operation first, for example: OPERA : " ++ name ++ " -> U \x7bA\x7d \x7bB\x7d"
  | .typeMismatch .. =>
    "the operand must be a `" ++ operandKind.name ++
      "`, such as a set reference or another operation"
  | .invalidRange _ =>
    "range bounds must be characters or integer codes, with the start not greater than the end"
  | .unrecognizedOperator _ => "the available operators are: U, &, - and ^"
  | .missingOperand _ => "only the complement operator `^` takes a single operand"
  | .invalidSignature _ =>
    "signatures are written in prefix form, for example: U \x7bA\x7d & \x7bB\x7d \x7bC\x7d"
  | .expectedOperation _ =>
    "write the operation in prefix form, for example: U \x7bA\x7d \x7bB\x7d"

end Fault

/-- Reads an operator; blanks around its sign are ignored. -/
def Operator.read (text : String) : Except Fault Operator :=
  let token := Text.trim text
  match ofSymbol? token with
  | some op => .ok op
  | none => .error (.unrecognizedOperator token)

end SetLaws
