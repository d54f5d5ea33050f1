import SetLaws.Fault
import SetLaws.Text.Place

/-!
# Diagnostics

A fault together with the places in the source of a program that it concerns.
-/

namespace SetLaws

/-- A stretch of the source of a program, in words of 64 bits. -/
structure Span where
  start : UInt64
  stop : UInt64
deriving DecidableEq, Repr

def Span.nowhere : Span := ⟨0, 0⟩

/-- Whether a span can be marked in a source: it must not end before it starts, and in
an empty source nothing can be marked from the start on. -/
def Span.fits (s : Span) (source : String) : Bool :=
  s.start ≤ s.stop && !(source.isEmpty && s.start == 0)

/-- The number of characters before the last one of a span; an empty span counts as one
character. -/
def Span.last (s : Span) : Nat :=
  max (s.stop.toNat - 1) s.start.toNat

/-- Whether a span starts in a source, or at its end, and leaves the line on which it
starts. -/
def Span.leavesLine (s : Span) (source : String) : Bool :=
  s.start.toNat ≤ source.length &&
    (source.length < s.last ||
      Text.lineOf source.toList s.start.toNat ≠ Text.lineOf source.toList s.last)

/-- Whether the size of a span has a negative among signed words of 64 bits. -/
def Span.hasNegatedSize (s : Span) : Bool :=
  s.stop - s.start ≠ 0x8000000000000000

/-- Whether spans that leave their lines can be arranged.  Two or more are arranged by
their negated sizes, so that the longest comes first. -/
def Span.canArrange : List Span → Bool
  | [] => true
  | [_] => true
  | spans => spans.all hasNegatedSize

structure Diagnostic where
  spans : List Span
  fault : Fault
deriving DecidableEq, Repr

namespace Diagnostic

def single (span : Span) (fault : Fault) : Diagnostic := ⟨[span], fault⟩

def sourceless (fault : Fault) : Diagnostic := single .nowhere fault

/-- Whether the places of a diagnostic can be marked in a source, all of them together. -/
def fits (d : Diagnostic) (source : String) : Bool :=
  d.spans.all (·.fits source) && Span.canArrange (d.spans.filter (·.leavesLine source))

/-- The words at each place: the first place alone has any. -/
def labels (d : Diagnostic) : List (Option String) :=
  match d.spans with
  | [] => []
  | _ :: rest => some d.fault.label :: rest.map fun _ => none

end Diagnostic
end SetLaws
