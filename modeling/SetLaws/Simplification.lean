import SetLaws.Law.Shape
import SetLaws.Law.Transform
import SetLaws.Signature.Text

/-!
# Simplification

A signature is transformed by the first law that it has a shape of, again and again,
until no law applies, a law changes nothing, or the passes begin to go in circles.
The number of passes is bounded.
-/

namespace SetLaws

/-- A signature, what it was simplified to, and the laws applied in order. -/
structure Simplification where
  given : Signature
  simplified : Signature
  laws : List Law
deriving DecidableEq, Repr

namespace Simplification

def isTrivial (s : Simplification) : Bool :=
  s.laws.isEmpty

/-- The titles of the applied laws, or a remark that there are none. -/
def titles (s : Simplification) : List String :=
  if s.laws.isEmpty then [Law.noneTitle] else s.laws.map Law.title

end Simplification

/-- Whether the passes go in circles once the law is applied, from the law of the previous pass
and the laws recorded, the new one included.  A law that leads to a result does so once in a row;
a swap would be undone by the next pass, and any other law that was applied in the previous pass
as well undoes or repeats itself. -/
def Law.circles (law : Law) (previous : Option Law) (laws : List Law) : Bool :=
  if law.isDirect then previous = some law
  else law = .commutative || (previous = some law && 1 < laws.length)

namespace Signature

/-- The number of passes unless another is asked for. -/
def defaultPasses : Nat := 10

/-- At most the given number of further passes, when `laws` have been applied already: the
signature they lead to, all laws applied, and the journal to which each law was added when it was
applied. -/
def applyLaws : Nat → Option Law → List Law → Signature → List Law →
    Signature × List Law × List Law
  | 0, _, laws, s, journal => (s, laws, journal)
  | passes + 1, previous, laws, s, journal =>
    match Law.detect s with
    | none => (s, laws, journal)
    | some law =>
      match law.apply s journal with
      | (none, journal) => (s, laws, journal)
      | (some t, journal) =>
        let laws := laws ++ [law]
        if law.circles previous laws then (t, laws, journal)
        else applyLaws passes (some law) laws t journal

/-- Simplifies a signature in at most the given number of passes, and adds the
applied laws to the journal. -/
def simplify (s : Signature) (passes : Nat) (journal : List Law) :
    Simplification × List Law :=
  let (t, laws, journal) := applyLaws passes none [] s journal
  (⟨s, t, laws⟩, journal)

end Signature
end SetLaws
