import SetLaws.ElementSet
import SetLaws.Fault
import SetLaws.Signature

/-!
# Values and traces

What an expression evaluates to, and the operators that are applied on the way.
-/

namespace SetLaws

inductive Value where
  | element (e : Element)
  /-- A named set or the result of an operation, with its signature. -/
  | set (members : ElementSet) (signature : Signature)
  | range (members : ElementSet)
  /-- Listed elements, in order and with repetitions. -/
  | list (elements : List Element)
deriving DecidableEq, Repr

namespace Value

def kind : Value → ValueKind
  | .element _ => .element
  | .set _ _ => .set
  | .range _ => .range
  | .list _ => .list

def isSet (v : Value) : Bool :=
  v.kind = .set

def elements : Value → List Element
  | .element e => [e]
  | .set members _ => members.toList
  | .range members => members.toList
  | .list elements => elements

def toSet : Value → ElementSet
  | .element e => .ofList [e]
  | .set members _ => members
  | .range members => members
  | .list elements => .ofList elements

def display : Value → String
  | .element e => e.display
  | .set members _ => members.display
  | .range members => members.display
  | .list elements => "[" ++ ", ".intercalate (elements.map Element.display) ++ "]"

end Value

/-! ## Traces

The operators applied while an operation is evaluated, innermost and leftmost
first. -/

structure Application where
  operator : Operator
  /-- The names of the sets involved, in the order in which they are written. -/
  operands : List String
  /-- The signature of the application, with the operations nested in it. -/
  signature : Signature
deriving DecidableEq, Repr

/-- Applications in the order in which they were made. -/
structure Trace where
  records : List Application
deriving DecidableEq, Repr

namespace Trace

def empty : Trace := ⟨[]⟩

def isEmpty (t : Trace) : Bool :=
  t.records.isEmpty

def record (t : Trace) (operator : Operator) (signature : Signature) : Trace :=
  ⟨t.records ++ [⟨operator, signature.operands, signature⟩]⟩

/-- The one of two applications with the longer signature, the first when they are
as long as each other. -/
def longer : Option Application → Application → Option Application
  | none, a => some a
  | some best, a =>
    if a.signature.tokenCount ≤ best.signature.tokenCount then some best else some a

/-- The first application whose signature is the longest. -/
def canonical (t : Trace) : Option Application :=
  t.records.foldl longer none

end Trace

end SetLaws
