import SetLaws.Expr
import SetLaws.Json

/-!
# Programs

A program is a list of instructions: to define a set, to perform an operation and
store its result, or to test elements for membership in a stored result.  It is written as JSON.
-/

namespace SetLaws

inductive Instruction where
  | define (name : String) (expr : Expr) (span : Span)
  /-- Performs an operation, stores its result under a name, and simplifies its
  signature. -/
  | operate (name : String) (expr : Expr) (span : Span)
  /-- Tests elements for membership in the set stored under a name. -/
  | evaluate (elements : List Expr) (operation : String) (span : Span)
deriving Repr

def Instruction.span : Instruction → Span
  | .define _ _ span => span
  | .operate _ _ span => span
  | .evaluate _ _ span => span

def Instruction.exprs : Instruction → List Expr
  | .define _ expr _ => [expr]
  | .operate _ expr _ => [expr]
  | .evaluate elements _ _ => elements

/-- Instructions in the order in which they are executed, and the source from which
they were read, where it is known. -/
structure Program where
  source : Option String
  instructions : List Instruction
deriving Repr

/-! ## Programs as JSON

Every variant is an object with the name of the variant as its only key, and every
record an object with all its fields in a fixed order. -/

def Span.toJson (s : Span) : Json :=
  .record [("start", .natural s.start.toNat), ("end", .natural s.stop.toNat)]

def LiteralKind.name : LiteralKind → String
  | .integer => "Integer"
  | .letter => "Letter"
  | .symbol => "Symbol"
  | .text => "Text"

def Json.variant (name : String) (fields : List (String × Json)) : Json :=
  .record [(name, .record fields)]

namespace Expr

mutual

def toJson : Expr → Json
  | .primitive value kind span =>
    .variant "Primitive" [("value", .text value), ("kind", .text kind.name), ("span", span.toJson)]
  | .range first last span =>
    .variant "Range" [("start", first.toJson), ("end", last.toJson), ("span", span.toJson)]
  | .reference name span =>
    .variant "Reference" [("name", .text name), ("span", span.toJson)]
  | .list elements span =>
    .variant "List" [("elements", .array (listToJson elements)), ("span", span.toJson)]
  | .operation op lhs none span =>
    .variant "Operation" [("op", .text op.symbol), ("lhs", lhs.toJson), ("rhs", .null),
      ("span", span.toJson)]
  | .operation op lhs (some rhs) span =>
    .variant "Operation" [("op", .text op.symbol), ("lhs", lhs.toJson), ("rhs", rhs.toJson),
      ("span", span.toJson)]

def listToJson : List Expr → List Json
  | [] => []
  | e :: es => e.toJson :: listToJson es

end

end Expr

def Instruction.toJson : Instruction → Json
  | .define name expr span =>
    .variant "DefineSet" [("name", .text name), ("expr", expr.toJson), ("span", span.toJson)]
  | .operate name expr span =>
    .variant "OperateSet" [("name", .text name), ("expr", expr.toJson), ("span", span.toJson)]
  | .evaluate elements operation span =>
    .variant "EvaluateSet" [("elements", .array (Expr.listToJson elements)),
      ("operation", .text operation), ("span", span.toJson)]

namespace Program

def toJson (p : Program) : Json :=
  .record [
    ("source", match p.source with
      | some source => .text source
      | none => .null),
    ("instructions", .array (p.instructions.map Instruction.toJson))]

def write (p : Program) : String :=
  p.toJson.compact

end Program

end SetLaws
