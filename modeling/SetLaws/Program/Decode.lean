import SetLaws.Program
import SetLaws.Json.Read

/-!
# Reading programs

A record is read from an object, whose unknown members are ignored and whose known
ones may come in any order but only once, or from an array of its fields in order.
A span may be left out, and then is that of what has no source; the right operand
and the source may be left out or null.

Arrays and objects that are read, and not ignored, may be nested to a limited depth.
Each reader takes the number of levels that are left.
-/

namespace SetLaws

namespace Json

/-- The keys of the members, if each of them spells a text. -/
def keys (members : List (Spelling × Json)) : Option (List String) :=
  members.mapM (·.1)

/-- The fields with the given names, in their order, as far as they are there. -/
def fields (names : List String) : Json → Option (List (Option Json))
  | .object members =>
    match keys members with
    | none => none
    | some found =>
      if names.all fun name => found.count name ≤ 1 then
        some (names.map fun name => members.lookup (some name))
      else none
  | .array items =>
    if items.length ≤ names.length then
      some (items.map some ++ List.replicate (names.length - items.length) none)
    else none
  | _ => none

def text? : Json → Option String
  | .string spelling => spelling
  | _ => none

def word? : Json → Option UInt64
  | .integer n => if 0 ≤ n ∧ n < UInt64.size then some (UInt64.ofNat n.toNat) else none
  | _ => none

/-- The name of a variant without fields: a string, or an object whose only member
is null. -/
def constant? (levels : Nat) : Json → Option String
  | .string spelling => spelling
  | .object [(key, .null)] => if levels = 0 then none else key
  | _ => none

def optionalText? : Option Json → Option (Option String)
  | none => some none
  | some .null => some none
  | some v => v.text?.map some

end Json

/-- The words of a span, the keys of an object in either order. -/
def Span.fields? : Json → Option (Json × Json)
  | .array [start, stop] => some (start, stop)
  | .object [(some "start", start), (some "end", stop)] => some (start, stop)
  | .object [(some "end", stop), (some "start", start)] => some (start, stop)
  | _ => none

def Span.ofJson? (levels : Nat) (v : Json) : Option Span :=
  if levels = 0 then none
  else match fields? v with
    | some (start, stop) =>
      match start.word?, stop.word? with
      | some start, some stop => some ⟨start, stop⟩
      | _, _ => none
    | none => none

def Span.ofField? (levels : Nat) : Option Json → Option Span
  | none => some .nowhere
  | some v => ofJson? levels v

def LiteralKind.ofName? (name : String) : Option LiteralKind :=
  [LiteralKind.integer, .letter, .symbol, .text].find? (·.name = name)

namespace Expr

def ofJson? : Nat → Json → Option Expr
  | levels + 2, .object [(some "Primitive", v)] => do
    let [some value, some kind, span] ← v.fields ["value", "kind", "span"] | none
    return .primitive (← value.text?) (← LiteralKind.ofName? (← kind.constant? levels))
      (← Span.ofField? levels span)
  | levels + 2, .object [(some "Range", v)] => do
    let [some first, some last, span] ← v.fields ["start", "end", "span"] | none
    return .range (← ofJson? levels first) (← ofJson? levels last) (← Span.ofField? levels span)
  | levels + 2, .object [(some "Reference", v)] => do
    let [some name, span] ← v.fields ["name", "span"] | none
    return .reference (← name.text?) (← Span.ofField? levels span)
  | levels + 3, .object [(some "List", v)] => do
    let [some (.array elements), span] ← v.fields ["elements", "span"] | none
    return .list (← elements.mapM (ofJson? levels)) (← Span.ofField? (levels + 1) span)
  | levels + 2, .object [(some "Operation", v)] => do
    let [some op, some lhs, rhs, span] ← v.fields ["op", "lhs", "rhs", "span"] | none
    let op ← Operator.ofSymbol? (← op.constant? levels)
    let lhs ← ofJson? levels lhs
    let rhs ← match rhs with
      | none => pure none
      | some .null => pure none
      | some rhs => some <$> ofJson? levels rhs
    return .operation op lhs rhs (← Span.ofField? levels span)
  | _, _ => none

end Expr

def Instruction.ofJson? : Nat → Json → Option Instruction
  | levels + 2, .object [(some "DefineSet", v)] => do
    let [some name, some expr, span] ← v.fields ["name", "expr", "span"] | none
    return .define (← name.text?) (← Expr.ofJson? levels expr) (← Span.ofField? levels span)
  | levels + 2, .object [(some "OperateSet", v)] => do
    let [some name, some expr, span] ← v.fields ["name", "expr", "span"] | none
    return .operate (← name.text?) (← Expr.ofJson? levels expr) (← Span.ofField? levels span)
  | levels + 3, .object [(some "EvaluateSet", v)] => do
    let [some (.array elements), some operation, span] ← v.fields ["elements", "operation", "span"]
      | none
    return .evaluate (← elements.mapM (Expr.ofJson? levels)) (← operation.text?)
      (← Span.ofField? (levels + 1) span)
  | _, _ => none

namespace Program

/-- The number of arrays and objects that may be nested in a program. -/
def maxLevels : Nat := 127

def ofJson? : Nat → Json → Option Program
  | levels + 2, v => do
    let [source, some (.array instructions)] ← v.fields ["source", "instructions"] | none
    return ⟨← Json.optionalText? source, ← instructions.mapM (Instruction.ofJson? levels)⟩
  | _, _ => none

def read (text : String) : Option Program :=
  (Json.read text).bind (ofJson? maxLevels)

end Program
end SetLaws
