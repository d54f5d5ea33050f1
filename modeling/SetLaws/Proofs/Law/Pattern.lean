import SetLaws.Proofs.Law.Shape
import SetLaws.Signature.Text

/-!
# The patterns of the laws

The laws are documented by patterns such as `U {X} & {Y} {Z}`, in an order in which they are
tried.  The matcher accepts the instances of the patterns and nothing else, and the law that
is detected is the first one with an instance.
-/

namespace SetLaws
namespace Law

open Signature

/-- What stands in a pattern for the name of a set. -/
inductive Placeholder where
  | x
  | y
  | z
deriving DecidableEq, Repr

/-- A signature with placeholders for its names. -/
inductive Pattern where
  | set (name : Placeholder)
  | complement (operand : Pattern)
  | binary (op : BinaryOp) (lhs rhs : Pattern)
deriving DecidableEq, Repr

namespace Pattern

abbrev x : Pattern := set .x

abbrev y : Pattern := set .y

abbrev z : Pattern := set .z

abbrev union (lhs rhs : Pattern) : Pattern := binary .union lhs rhs

abbrev inter (lhs rhs : Pattern) : Pattern := binary .intersection lhs rhs

abbrev diff (lhs rhs : Pattern) : Pattern := binary .difference lhs rhs

/-- The signature that a pattern is for the given names. -/
def fill (x y z : String) : Pattern → Signature
  | set .x => .set x
  | set .y => .set y
  | set .z => .set z
  | complement operand => .complement (operand.fill x y z)
  | binary op lhs rhs => .binary op (lhs.fill x y z) (rhs.fill x y z)

end Pattern

/-- The patterns of each law, as they are documented. -/
def patterns : Law → List Pattern
  | .doubleComplement => [.complement (.complement .x)]
  | .emptyComplement =>
    [.inter .x (.complement .x), .inter (.complement (.complement .x)) (.complement .x)]
  | .universalComplement => [.union .x (.complement .x)]
  | .idempotence =>
    [.union .x .x, .inter .x .x, .union (.complement .x) (.complement .x),
      .inter (.complement .x) (.complement .x)]
  | .selfDifference => [.diff .x .x]
  | .absorption =>
    [.inter (.union .x .y) .x, .inter .x (.union .x .y), .union (.inter .x .y) .x,
      .union .x (.inter .x .y)]
  | .deMorgan =>
    [.complement (.inter .x .y), .complement (.union .x .y),
      .union (.complement .x) (.complement .y), .inter (.complement .x) (.complement .y)]
  | .distributive =>
    [.union .x (.inter .y .z), .inter (.union .x .y) (.union .x .z), .union (.inter .x .y) .z,
      .union (.inter (.union .x .y) .z) .x]
  | .associative =>
    [.union .x (.union .y .z), .union (.union .x .y) .z, .inter .x (.inter .y .z),
      .inter (.inter .x .y) .z]
  | .commutative => [.union .x .y, .inter .x .y]

/-- The patterns as they are written, the law to be tried first in front. -/
example : all.map (fun law => law.patterns.map fun p => (p.fill "X" "Y" "Z").text) =
    [["^^{X}"],
      ["& {X} ^{X}", "& ^^{X} ^{X}"],
      ["U {X} ^{X}"],
      ["U {X} {X}", "& {X} {X}", "U ^{X} ^{X}", "& ^{X} ^{X}"],
      ["- {X} {X}"],
      ["& U {X} {Y} {X}", "& {X} U {X} {Y}", "U & {X} {Y} {X}", "U {X} & {X} {Y}"],
      ["^ & {X} {Y}", "^ U {X} {Y}", "U ^{X} ^{Y}", "& ^{X} ^{Y}"],
      ["U {X} & {Y} {Z}", "& U {X} {Y} U {X} {Z}", "U & {X} {Y} {Z}", "U & U {X} {Y} {Z} {X}"],
      ["U {X} U {Y} {Z}", "U U {X} {Y} {Z}", "& {X} & {Y} {Z}", "& & {X} {Y} {Z}"],
      ["U {X} {Y}", "& {X} {Y}"]] := by
  decide +kernel

/-- The signature is a pattern of the law for some names.  They need not differ, except in
the patterns of the commutative law. -/
def Instance (law : Law) (s : Signature) : Prop :=
  ∃ p ∈ law.patterns, ∃ x y z : String, (law = .commutative → x ≠ y) ∧ s = p.fill x y z

/-- The law applies to the signature.  A double complement can stand in any part of it; all
other laws are about the whole. -/
def Covers : Law → Signature → Prop
  | .doubleComplement, s => ∃ part, PartOf part s ∧ Instance .doubleComplement part
  | law, s => law.Instance s

/-- The place of each law in the order in which they are tried. -/
def rank : Law → Nat
  | .doubleComplement => 1
  | .emptyComplement => 2
  | .universalComplement => 3
  | .idempotence => 4
  | .selfDifference => 5
  | .absorption => 6
  | .deMorgan => 7
  | .distributive => 8
  | .associative => 9
  | .commutative => 10

/-- Every shape of a law is an instance of one of its patterns. -/
theorem Shape.covers {law : Law} {s : Signature} (h : law.Shape s) : law.Covers s := by
  cases h with
  | doubleComplement h =>
    obtain ⟨x, h⟩ := h
    exact ⟨_, h, .complement (.complement .x), by decide, x, x, x, nofun, rfl⟩
  | emptyComplement x => exact ⟨.inter .x (.complement .x), by decide, x, x, x, nofun, rfl⟩
  | emptyDoubleComplement x =>
    exact ⟨.inter (.complement (.complement .x)) (.complement .x), by decide, x, x, x, nofun, rfl⟩
  | universalComplement x => exact ⟨.union .x (.complement .x), by decide, x, x, x, nofun, rfl⟩
  | idempotence hop x =>
    obtain rfl | rfl := eq_of_isSymmetric hop
    · exact ⟨.union .x .x, by decide, x, x, x, nofun, rfl⟩
    · exact ⟨.inter .x .x, by decide, x, x, x, nofun, rfl⟩
  | idempotenceComplement hop x =>
    obtain rfl | rfl := eq_of_isSymmetric hop
    · exact ⟨.union (.complement .x) (.complement .x), by decide, x, x, x, nofun, rfl⟩
    · exact ⟨.inter (.complement .x) (.complement .x), by decide, x, x, x, nofun, rfl⟩
  | selfDifference x => exact ⟨.diff .x .x, by decide, x, x, x, nofun, rfl⟩
  | absorptionLeft hop x y =>
    obtain ⟨rfl, rfl⟩ | ⟨rfl, rfl⟩ := eq_of_isDual hop
    · exact ⟨.union (.inter .x .y) .x, by decide, x, y, y, nofun, rfl⟩
    · exact ⟨.inter (.union .x .y) .x, by decide, x, y, y, nofun, rfl⟩
  | absorptionRight hop x y =>
    obtain ⟨rfl, rfl⟩ | ⟨rfl, rfl⟩ := eq_of_isDual hop
    · exact ⟨.union .x (.inter .x .y), by decide, x, y, y, nofun, rfl⟩
    · exact ⟨.inter .x (.union .x .y), by decide, x, y, y, nofun, rfl⟩
  | deMorgan hop x y =>
    obtain rfl | rfl := eq_of_isSymmetric hop
    · exact ⟨.complement (.union .x .y), by decide, x, y, y, nofun, rfl⟩
    · exact ⟨.complement (.inter .x .y), by decide, x, y, y, nofun, rfl⟩
  | deMorganDone hop x y =>
    obtain rfl | rfl := eq_of_isSymmetric hop
    · exact ⟨.union (.complement .x) (.complement .y), by decide, x, y, y, nofun, rfl⟩
    · exact ⟨.inter (.complement .x) (.complement .y), by decide, x, y, y, nofun, rfl⟩
  | distribute x y z => exact ⟨.union .x (.inter .y .z), by decide, x, y, z, nofun, rfl⟩
  | distributeDone x y z => exact ⟨.union (.inter .x .y) .z, by decide, x, y, z, nofun, rfl⟩
  | distributeMixed x y z =>
    exact ⟨.union (.inter (.union .x .y) .z) .x, by decide, x, y, z, nofun, rfl⟩
  | factor x y z => exact ⟨.inter (.union .x .y) (.union .x .z), by decide, x, y, z, nofun, rfl⟩
  | associativeRight hop x y z =>
    obtain rfl | rfl := eq_of_isSymmetric hop
    · exact ⟨.union .x (.union .y .z), by decide, x, y, z, nofun, rfl⟩
    · exact ⟨.inter .x (.inter .y .z), by decide, x, y, z, nofun, rfl⟩
  | associativeLeft hop x y z =>
    obtain rfl | rfl := eq_of_isSymmetric hop
    · exact ⟨.union (.union .x .y) .z, by decide, x, y, z, nofun, rfl⟩
    · exact ⟨.inter (.inter .x .y) .z, by decide, x, y, z, nofun, rfl⟩
  | @commutative op hop x y hxy =>
    obtain rfl | rfl := eq_of_isSymmetric hop
    · exact ⟨.union .x .y, by decide, x, y, y, fun _ => hxy, rfl⟩
    · exact ⟨.inter .x .y, by decide, x, y, y, fun _ => hxy, rfl⟩

/-- An instance of one of the patterns of a law has its shape. -/
theorem Instance.shape {law : Law} {s : Signature} (h : law.Instance s) : law.Shape s := by
  obtain ⟨p, hp, x, y, z, hxy, rfl⟩ := h
  cases law <;> simp only [patterns, List.mem_cons, List.not_mem_nil, or_false] at hp
  case doubleComplement =>
    subst hp
    exact .doubleComplement ⟨x, .self⟩
  case emptyComplement =>
    rcases hp with rfl | rfl
    · exact .emptyComplement x
    · exact .emptyDoubleComplement x
  case universalComplement =>
    subst hp
    exact .universalComplement x
  case idempotence =>
    rcases hp with rfl | rfl | rfl | rfl
    · exact .idempotence rfl x
    · exact .idempotence rfl x
    · exact .idempotenceComplement rfl x
    · exact .idempotenceComplement rfl x
  case selfDifference =>
    subst hp
    exact .selfDifference x
  case absorption =>
    rcases hp with rfl | rfl | rfl | rfl
    · exact .absorptionLeft rfl x y
    · exact .absorptionRight rfl x y
    · exact .absorptionLeft rfl x y
    · exact .absorptionRight rfl x y
  case deMorgan =>
    rcases hp with rfl | rfl | rfl | rfl
    · exact .deMorgan rfl x y
    · exact .deMorgan rfl x y
    · exact .deMorganDone rfl x y
    · exact .deMorganDone rfl x y
  case distributive =>
    rcases hp with rfl | rfl | rfl | rfl
    · exact .distribute x y z
    · exact .factor x y z
    · exact .distributeDone x y z
    · exact .distributeMixed x y z
  case associative =>
    rcases hp with rfl | rfl | rfl | rfl
    · exact .associativeRight rfl x y z
    · exact .associativeLeft rfl x y z
    · exact .associativeRight rfl x y z
    · exact .associativeLeft rfl x y z
  case commutative =>
    rcases hp with rfl | rfl
    · exact .commutative rfl (hxy rfl)
    · exact .commutative rfl (hxy rfl)

/-- The matcher accepts exactly what the patterns cover. -/
theorem fits_iff_covers (law : Law) (s : Signature) : law.fits s = true ↔ law.Covers s := by
  rw [fits_iff]
  refine ⟨Shape.covers, fun h => ?_⟩
  cases law with
  | doubleComplement =>
    obtain ⟨part, hpart, p, hp, x, y, z, _, rfl⟩ := h
    obtain rfl := List.mem_singleton.mp hp
    exact .doubleComplement ⟨x, hpart⟩
  | emptyComplement | universalComplement | idempotence | selfDifference | absorption | deMorgan
  | distributive | associative | commutative => exact Instance.shape h

/-- The laws are tried in the order of their ranks. -/
theorem pairwise_rank_all : all.Pairwise (fun a b => a.rank < b.rank) := by
  decide

theorem eq_of_rank_eq {a b : Law} (h : a.rank = b.rank) : a = b := by
  revert h
  cases a <;> cases b <;> decide

/-- The detected law is the one of the lowest rank that fits. -/
theorem rank_le_of_detect {law other : Law} {s : Signature} (h : detect s = some law)
    (hother : other.fits s = true) : law.rank ≤ other.rank := by
  obtain ⟨_, before, after, hall, hbefore⟩ := List.find?_eq_some_iff_append.mp h
  have hranks := pairwise_rank_all
  rw [hall, List.pairwise_append, List.pairwise_cons] at hranks
  have hmem := mem_all other
  rw [hall, List.mem_append, List.mem_cons] at hmem
  rcases hmem with hmem | rfl | hmem
  · have hnot := hbefore other hmem
    rw [hother] at hnot
    exact absurd hnot (by decide)
  · exact Nat.le_refl _
  · exact Nat.le_of_lt (hranks.2.1.1 other hmem)

/-- A law fits what its documented patterns cover, and the first law in the documented order
that covers a signature is the one that is detected. -/
theorem detect_patterns (s : Signature) :
    (∀ law : Law, law.fits s = true ↔ law.Covers s) ∧
    (∀ law : Law, detect s = some law ↔
      law.Covers s ∧ ∀ other : Law, other.Covers s → law.rank ≤ other.rank) ∧
    (detect s = none ↔ ∀ law : Law, ¬ law.Covers s) := by
  refine ⟨fun law => fits_iff_covers law s, fun law => ⟨fun h => ?_, fun h => ?_⟩, ?_⟩
  · refine ⟨(shape_of_detect h).covers, fun other hother => ?_⟩
    exact rank_le_of_detect h ((fits_iff_covers other s).mpr hother)
  · obtain ⟨hcovers, hleast⟩ := h
    have hfits := (fits_iff_covers law s).mpr hcovers
    obtain ⟨first, hfirst, hshape⟩ := exists_detect_of_shape ((fits_iff law s).mp hfits)
    have hle := hleast first hshape.covers
    rw [hfirst, eq_of_rank_eq (Nat.le_antisymm hle (rank_le_of_detect hfirst hfits))]
  · constructor
    · intro hnone law hcovers
      have hnot := List.find?_eq_none.mp hnone law (mem_all law)
      exact hnot ((fits_iff_covers law s).mpr hcovers)
    · intro hnone
      refine List.find?_eq_none.mpr fun law _ hfits => ?_
      exact hnone law ((fits_iff_covers law s).mp hfits)

end Law
end SetLaws
