import SetLaws.Signature
import SetLaws.Signature.Text
import SetLaws.Fault

/-!
# Reading a signature

The tokens are taken from the left.  Operators that still lack operands wait on a
stack, the innermost first; an operand is given to the innermost, which may
complete it and make it the operand of the next.  Reading ends when no operator
waits, and then no token may be left.
-/

namespace SetLaws
namespace Signature

/-- An operator that waits for an operand. -/
inductive Waiting where
  | complement
  /-- Both operands are missing. -/
  | left (op : BinaryOp)
  /-- The second operand is missing. -/
  | right (op : BinaryOp) (lhs : Signature)
deriving DecidableEq, Repr

/-- Gives an operand to the innermost waiting operator: the operators that wait
afterwards, or the complete signature when none does. -/
def supply : List Waiting → Signature → List Waiting ⊕ Signature
  | [], s => .inr s
  | .complement :: rest, s => supply rest (.complement s)
  | .left op :: rest, s => .inl (.right op s :: rest)
  | .right op lhs :: rest, s => supply rest (.binary op lhs s)

/-- What a token means: an operator, an operand, or nothing. -/
inductive Meaning where
  | operator (waiting : Waiting)
  | operand (s : Signature)
  | fault (cause : SignatureFault)
deriving DecidableEq, Repr

/-- The name inside braces, without the blanks around it. -/
def unbraced (lexeme : String) : String :=
  String.ofList (Text.trimChars (lexeme.toList.drop 1).dropLast)

/-- The meaning of a token where an operand may start. -/
def Token.meaning (token : Token) : Meaning :=
  match token.kind with
  | .union => .operator (.left .union)
  | .intersection => .operator (.left .intersection)
  | .difference => .operator (.left .difference)
  | .complement => .operator .complement
  | .empty => .operand .empty
  | .universal => .operand .universal
  | .name => .operand (.set token.lexeme)
  | .braced =>
    let name := unbraced token.lexeme
    if name.isEmpty then .fault (.blankName token.extent) else .operand (.set name)
  | .blank | .symbol => .fault (.unexpected token.lexeme token.extent)

def readTokens : List Waiting → List Token → Except SignatureFault Signature
  | _, [] => .error .unexpectedEnd
  | waiting, token :: rest =>
    match token.meaning with
    | .fault cause => .error cause
    | .operator w => readTokens (w :: waiting) rest
    | .operand s =>
      match supply waiting s with
      | .inl waiting => readTokens waiting rest
      | .inr s =>
        match rest with
        | [] => .ok s
        | extra :: _ => .error (.trailing extra.lexeme extra.extent)

def read (text : String) : Except Fault Signature :=
  (readTokens [] (tokenize text)).mapError .invalidSignature

end Signature
end SetLaws
