import SetLaws.Proofs.Law.Transform
import SetLaws.Proofs.Simplification.Derivation

/-!
# Applying a law that fits

The matcher looks at all of a signature and the transformations only at a part of it.  Still
a law transforms every signature that it fits.  It changes all of them except three shapes,
which are results of the same law.
-/

namespace SetLaws
namespace Law

open Signature

/-- The law fits the signature but leaves it as it is. -/
inductive Idle : Law → Signature → Prop where
  | unionOfComplements (x y : String) :
      Idle .deMorgan (.binary .union (.complement (.set x)) (.complement (.set y)))
  | intersectionOfComplements (x y : String) :
      Idle .deMorgan (.binary .intersection (.complement (.set x)) (.complement (.set y)))
  | unionOfIntersection (x y z : String) :
      Idle .distributive (.binary .union (.binary .intersection (.set x) (.set y)) (.set z))

/-- A law transforms each of its shapes, and into another signature unless it is idle. -/
theorem Shape.exists_transform {law : Law} {s : Signature} (h : law.Shape s) :
    ∃ t, law.transform s = some t ∧ (t = s ↔ law.Idle s) := by
  cases h with
  | doubleComplement h =>
    obtain ⟨t, ht⟩ := Option.isSome_iff_exists.mp ((isSome_dropDoubleComplements_iff s).mpr h)
    refine ⟨t, ht, iff_of_false ?_ nofun⟩
    rintro rfl
    exact absurd (tokenCount_lt_of_dropDoubleComplements ht) (Nat.lt_irrefl _)
  | emptyComplement | emptyDoubleComplement | selfDifference =>
    exact ⟨.empty, rfl, iff_of_false nofun nofun⟩
  | universalComplement => exact ⟨.universal, rfl, iff_of_false nofun nofun⟩
  | idempotence hop x => exact ⟨.set x, keepFirst_binary hop _ _, iff_of_false nofun nofun⟩
  | idempotenceComplement hop x =>
    exact ⟨.complement (.set x), keepFirst_binary hop _ _, iff_of_false nofun nofun⟩
  | absorptionLeft hop x y => exact ⟨.set x, rfl, iff_of_false nofun nofun⟩
  | @absorptionRight outer inner hop x y =>
    exact ⟨.set x, absorb_right outer inner x y, iff_of_false nofun nofun⟩
  | @deMorgan op hop x y =>
    cases op with
    | union | intersection => exact ⟨_, rfl, iff_of_false nofun nofun⟩
    | difference => exact absurd hop Bool.false_ne_true
  | @deMorganDone op hop x y =>
    cases op with
    | union => exact ⟨_, rfl, iff_of_true rfl (.unionOfComplements x y)⟩
    | intersection => exact ⟨_, rfl, iff_of_true rfl (.intersectionOfComplements x y)⟩
    | difference => exact absurd hop Bool.false_ne_true
  | distribute x y z => exact ⟨_, rfl, iff_of_false nofun nofun⟩
  | distributeDone x y z => exact ⟨_, rfl, iff_of_true rfl (.unionOfIntersection x y z)⟩
  | distributeMixed x y z => exact ⟨_, rfl, iff_of_false nofun nofun⟩
  | factor x y z => exact ⟨_, rfl, iff_of_false nofun nofun⟩
  | @associativeRight op hop x y z => exact ⟨_, regroup_right op _ _ _, iff_of_false nofun nofun⟩
  | @associativeLeft op hop x y z => exact ⟨_, regroup_left op _ _ z, iff_of_false nofun nofun⟩
  | commutative hop hxy =>
    refine ⟨_, rfl, iff_of_false (fun hswap => hxy ?_) nofun⟩
    exact (Signature.set.inj (Signature.binary.inj hswap).2.1).symm

/-- A law that fits a signature transforms it.  Applying the law notes it once and gives
another signature, or is idle and notes nothing.  Double complements are dropped only where
one stands. -/
theorem apply_of_fits :
    (∀ (law : Law) (s : Signature) (journal : List Law), law.fits s = true →
      ∃ t, law.transform s = some t ∧
        (law.Idle s → law.apply s journal = (none, journal)) ∧
        (¬ law.Idle s → t ≠ s ∧ law.apply s journal = (some t, journal ++ [law]))) ∧
    ∀ s t : Signature, Law.transform .doubleComplement s = some t → s.Doubled := by
  constructor
  · intro law s journal hfits
    obtain ⟨t, ht, hidle⟩ := ((fits_iff law s).mp hfits).exists_transform
    refine ⟨t, ht, fun h => ?_, fun h => ?_⟩
    · simp only [apply, ht, if_pos (hidle.mpr h)]
    · have hts : t ≠ s := fun hts => h (hidle.mp hts)
      exact ⟨hts, apply_eq_some_iff.mpr ⟨ht, hts, rfl⟩⟩
  · intro s t ht
    exact (isSome_dropDoubleComplements_iff s).mp (Option.isSome_iff_exists.mpr ⟨t, ht⟩)

/-- A law can change a signature once and then be idle on the result, and it need not be the
law that is detected. -/
theorem apply_of_fits_distributive :
    let mixed : Signature := .binary .union
      (.binary .intersection (.binary .union (.set "A") (.set "B")) (.set "C")) (.set "A")
    let turned : Signature := .binary .union
      (.binary .intersection (.set "C") (.set "B")) (.set "A")
    let absorbed : Signature := .binary .union
      (.binary .intersection (.set "A") (.set "B")) (.set "A")
    Law.apply .distributive mixed [.deMorgan] = (some turned, [.deMorgan, .distributive]) ∧
      Law.apply .distributive turned [] = (none, []) ∧
      detect absorbed = some .absorption ∧ Law.apply .distributive absorbed [] = (none, []) ∧
      Signature.Doubled (.binary .union (.set "A") (.complement (.complement (.set "B")))) := by
  intro mixed turned absorbed
  refine ⟨?_, ?_, by decide +kernel, ?_, ?_⟩
  · obtain ⟨t, ht, _, happly⟩ := apply_of_fits.1 .distributive mixed [.deMorgan] (by decide)
    obtain rfl := Option.some.inj ht
    have hidle : ¬ Law.Idle .distributive mixed := by
      intro h
      unfold mixed at h
      cases h
    exact (happly hidle).2
  · obtain ⟨t, _, hidle, _⟩ := apply_of_fits.1 .distributive turned [] (by decide)
    exact hidle (.unionOfIntersection "C" "B" "A")
  · obtain ⟨t, _, hidle, _⟩ := apply_of_fits.1 .distributive absorbed [] (by decide)
    exact hidle (.unionOfIntersection "A" "B" "A")
  · exact apply_of_fits.2 _ (.binary .union (.set "A") (.set "B")) rfl

end Law
end SetLaws
