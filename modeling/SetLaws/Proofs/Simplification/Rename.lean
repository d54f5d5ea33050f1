import SetLaws.Proofs.Signature.Rename
import SetLaws.Proofs.Simplification.Settling

/-!
# Simplification does not look at the names

The laws compare names with each other and with nothing else.  So a signature with other names in
it is simplified in the same way, as long as different names stay different.
-/

namespace SetLaws
namespace Law

open Signature

variable {r : String → String} {law : Law} {s t : Signature}

/-- Renamed, a shape of a law is another shape of it.  Only where two names are compared do they
have to be kept apart. -/
theorem Shape.rename (h : law.Shape s) (hr : s.KeptApart r) : law.Shape (s.rename r) := by
  cases h with
  | doubleComplement h =>
    obtain ⟨x, h⟩ := h
    exact .doubleComplement ⟨r x, h.rename r⟩
  | emptyComplement x => exact .emptyComplement (r x)
  | emptyDoubleComplement x => exact .emptyDoubleComplement (r x)
  | universalComplement x => exact .universalComplement (r x)
  | idempotence hop x => exact .idempotence hop (r x)
  | idempotenceComplement hop x => exact .idempotenceComplement hop (r x)
  | selfDifference x => exact .selfDifference (r x)
  | absorptionLeft hop x y => exact .absorptionLeft hop (r x) (r y)
  | absorptionRight hop x y => exact .absorptionRight hop (r x) (r y)
  | deMorgan hop x y => exact .deMorgan hop (r x) (r y)
  | deMorganDone hop x y => exact .deMorganDone hop (r x) (r y)
  | distribute x y z => exact .distribute (r x) (r y) (r z)
  | distributeDone x y z => exact .distributeDone (r x) (r y) (r z)
  | distributeMixed x y z => exact .distributeMixed (r x) (r y) (r z)
  | factor x y z => exact .factor (r x) (r y) (r z)
  | associativeRight hop x y z => exact .associativeRight hop (r x) (r y) (r z)
  | associativeLeft hop x y z => exact .associativeLeft hop (r x) (r y) (r z)
  | @commutative op hop x y hxy =>
    refine .commutative hop fun heq => hxy (hr ?_ ?_ heq)
    · simp [operands_binary, operands_set]
    · simp [operands_binary, operands_set]

theorem Turns.rename (h : law.Turns s t) (hr : s.KeptApart r) :
    law.Turns (s.rename r) (t.rename r) := by
  cases h with
  | dropped h =>
    refine .dropped ?_
    rw [dropDoubleComplements_rename, h, Option.map_some]
  | emptied x => exact .emptied (r x)
  | emptiedDouble x => exact .emptiedDouble (r x)
  | filled x => exact .filled (r x)
  | merged hop x => exact .merged hop (r x)
  | mergedComplement hop x => exact .mergedComplement hop (r x)
  | cancelled x => exact .cancelled (r x)
  | absorbedLeft hop x y => exact .absorbedLeft hop (r x) (r y)
  | absorbedRight hop x y => exact .absorbedRight hop (r x) (r y)
  | pushed hop x y => exact .pushed hop (r x) (r y)
  | distributed x y z => exact .distributed (r x) (r y) (r z)
  | reversed x y z => exact .reversed (r x) (r y) (r z)
  | factored x y z => exact .factored (r x) (r y) (r z)
  | groupedLeft hop x y z => exact .groupedLeft hop (r x) (r y) (r z)
  | groupedRight hop x y z => exact .groupedRight hop (r x) (r y) (r z)
  | @swapped op hop x y hxy =>
    refine .swapped hop fun heq => hxy (hr ?_ ?_ heq)
    · simp [operands_binary, operands_set]
    · simp [operands_binary, operands_set]

/-- A renaming that can be undone neither makes a shape nor destroys one. -/
theorem fits_rename (law : Law) (hr : s.KeptApart r) : law.fits (s.rename r) = law.fits s := by
  obtain ⟨l, hl, hapart⟩ := hr.exists_inverse
  rw [Bool.eq_iff_iff, fits_iff, fits_iff]
  refine ⟨fun h => ?_, fun h => h.rename hr⟩
  have hback := h.rename hapart
  rwa [hl] at hback

theorem detect_rename (hr : s.KeptApart r) : detect (s.rename r) = detect s := by
  rw [detect, detect]
  exact congrArg (all.find? ·) (funext fun law => fits_rename law hr)

theorem Rewrites.rename (h : law.Rewrites s t) (hr : s.KeptApart r) :
    law.Rewrites (s.rename r) (t.rename r) :=
  rewrites_iff.mpr ⟨(detect_rename hr).trans h.detected, h.turns.rename hr⟩

end Law

namespace Signature

variable {r : String → String} {s : Signature}

theorem IsSettled.rename (h : s.IsSettled) (hr : s.KeptApart r) : (s.rename r).IsSettled := by
  intro law t hrewrites
  obtain ⟨l, hl, hapart⟩ := hr.exists_inverse
  have hback := hrewrites.rename hapart
  rw [hl] at hback
  exact h law _ hback

/-- The passes make the same turns, pass by pass. -/
theorem runPasses_rename (hr : s.KeptApart r) (passes : Nat) (previous : Option Law)
    (journal : List Law) :
    runPasses passes previous (s.rename r) journal =
      ((runPasses passes previous s journal).1.rename r,
        (runPasses passes previous s journal).2) := by
  induction passes generalizing previous s journal with
  | zero => rfl
  | succ passes ih =>
    rcases isSettled_or_exists_rewrites s with hsettled | ⟨law, t, hrewrites⟩
    · rw [runPasses_of_isSettled hsettled, runPasses_of_isSettled (hsettled.rename hr)]
    · rw [runPasses_of_rewrites hrewrites, runPasses_of_rewrites (hrewrites.rename hr)]
      split
      · rfl
      · rw [ih (hr.mono hrewrites.turns.operands_subset)]

/-- With other names for its sets, different ones for different sets, a signature is simplified to
the same signature with these names, by the same laws; each law fits it where it did before. -/
theorem simplify_rename (s : Signature) (r : String → String) (hr : s.KeptApart r)
    (passes : Nat) (journal : List Law) :
    let result := s.simplify passes journal
    let renamed := (s.rename r).simplify passes journal
    renamed.1.given = s.rename r ∧
    renamed.1.simplified = result.1.simplified.rename r ∧
    renamed.1.laws = result.1.laws ∧
    renamed.2 = result.2 ∧
    Law.detect (s.rename r) = Law.detect s ∧
    ∀ law : Law, law.fits (s.rename r) = law.fits s := by
  have hrun := runPasses_rename hr passes none journal
  dsimp only
  rw [simplify_eq_runPasses, simplify_eq_runPasses, hrun]
  exact ⟨rfl, rfl, rfl, rfl, Law.detect_rename hr, fun law => Law.fits_rename law hr⟩

/-- A reserved word is a name like others, and so is a name with a brace in it. -/
theorem simplify_rename_reserved :
    let s := binary .union (binary .intersection
      (binary .union (set "A") (complement (complement (set "B")))) (set "A")) (set "A")
    let r : String → String := fun x => if x = "A" then "VACIO" else "\x7bU"
    let renamed := ((s.rename r).simplify 10 []).1
    s.KeptApart r ∧ renamed.simplified = set "VACIO" ∧
      renamed.laws = [.doubleComplement, .distributive, .absorption] ∧
      Law.detect (s.rename r) = some .doubleComplement := by
  intro s r renamed
  have hapart : s.KeptApart r := by
    have hnames : ∀ x ∈ s.operands, x = "A" ∨ x = "B" := by
      simp [s, operands_binary, operands_complement, operands_set]
    intro x hx y hy hxy
    rcases hnames x hx with rfl | rfl <;> rcases hnames y hy with rfl | rfl
    · rfl
    · exact absurd hxy (by decide)
    · exact absurd hxy (by decide)
    · rfl
  have hresult : (s.simplify 10 []).1 =
      ⟨s, set "A", [.doubleComplement, .distributive, .absorption]⟩ := by decide +kernel
  obtain ⟨-, hsimplified, hlaws, -, hdetect, -⟩ := simplify_rename s r hapart 10 []
  rw [hresult] at hsimplified hlaws
  exact ⟨hapart, hsimplified, hlaws, hdetect.trans (by decide +kernel)⟩

end Signature
end SetLaws
