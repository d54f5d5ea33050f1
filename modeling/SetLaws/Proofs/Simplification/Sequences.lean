import SetLaws.Proofs.Law.Turns
import SetLaws.Proofs.Simplification.Settling

/-!
# Which laws follow one another

The shapes of the laws have named sets as their operands, so what a law makes of its shape is
small and seldom has a shape again.  Three passes are enough for any signature.
-/

namespace SetLaws
namespace Law

/-- The laws that are applied to a signature in which no `^^{X}` stands. -/
def sequences : List (List Law) :=
  [[], [.emptyComplement], [.universalComplement], [.idempotence], [.selfDifference],
    [.absorption], [.deMorgan], [.distributive], [.commutative], [.deMorgan, .idempotence],
    [.distributive, .distributive], [.distributive, .absorption], [.associative, .associative]]

theorem repeats_eq_false {law : Law} {previous : Option Law}
    (hprevious : previous = none ∨ previous = some .doubleComplement)
    (hd : law ≠ .doubleComplement) (hc : law ≠ .commutative) : law.repeats previous = false := by
  rw [repeats, Bool.or_eq_false_iff, decide_eq_false_iff_not, decide_eq_false_iff_not]
  refine ⟨hc, ?_⟩
  rcases hprevious with rfl | rfl
  · exact (Option.some_ne_none law).symm
  · intro h
    exact hd (Option.some.inj h).symm

end Law

namespace Signature

open Law

/-! ### Signatures that no law changes -/

theorem isSettled_of_forall_not_shape {s : Signature} (h : ∀ law : Law, ¬ law.Shape s) :
    s.IsSettled := by
  intro law t hrewrites
  exact h law hrewrites.shape

theorem not_doubled_complement_set (x : String) : ¬ Doubled (.complement (.set x)) := by
  rw [doubled_complement_iff]
  rintro (h | h)
  · exact absurd h Bool.false_ne_true
  · exact not_doubled_set x h

theorem isSettled_set (x : String) : (set x).IsSettled := by
  refine isSettled_of_forall_not_shape fun law h => ?_
  cases h with
  | doubleComplement h => exact not_doubled_set x h

theorem isSettled_empty : empty.IsSettled := by
  refine isSettled_of_forall_not_shape fun law h => ?_
  cases h with
  | doubleComplement h => exact not_doubled_empty h

theorem isSettled_universal : universal.IsSettled := by
  refine isSettled_of_forall_not_shape fun law h => ?_
  cases h with
  | doubleComplement h => exact not_doubled_universal h

theorem isSettled_complement_set (x : String) : (complement (set x)).IsSettled := by
  refine isSettled_of_forall_not_shape fun law h => ?_
  cases h with
  | doubleComplement h => exact not_doubled_complement_set x h

/-! ### What follows a law -/

/-- The passes apply one of the sequences of laws. -/
def SettlesBy (previous : Option Law) (s : Signature) (sequences : List (List Law)) : Prop :=
  ∃ laws ∈ sequences, ∃ t, Settles previous s laws t

section

variable {previous : Option Law} {law : Law} {s t : Signature} {sequences more : List (List Law)}

theorem IsSettled.settlesBy (h : s.IsSettled) (hnil : [] ∈ sequences) :
    SettlesBy previous s sequences := ⟨[], hnil, s, .settled h⟩

theorem settlesBy_circling (h : law.Rewrites s t) (hrepeats : law.repeats previous = true)
    (hmem : [law] ∈ sequences) : SettlesBy previous s sequences :=
  ⟨[law], hmem, t, .circling h hrepeats⟩

theorem SettlesBy.mono (h : SettlesBy previous s sequences)
    (hmore : ∀ laws ∈ sequences, laws ∈ more) : SettlesBy previous s more := by
  obtain ⟨laws, hlaws, t, hsettles⟩ := h
  exact ⟨laws, hmore laws hlaws, t, hsettles⟩

theorem SettlesBy.step (hrest : SettlesBy (some law) t sequences) (h : law.Rewrites s t)
    (hrepeats : law.repeats previous = false) (hmore : ∀ laws ∈ sequences, law :: laws ∈ more) :
    SettlesBy previous s more := by
  obtain ⟨laws, hlaws, u, hsettles⟩ := hrest
  exact ⟨law :: laws, hmore laws hlaws, u, .step h hrepeats hsettles⟩

theorem settlesBy_last (h : law.Rewrites s t) (hrepeats : law.repeats previous = false)
    (ht : t.IsSettled) (hmem : [law] ∈ sequences) : SettlesBy previous s sequences :=
  ⟨[law], hmem, t, .step h hrepeats (.settled ht)⟩

/-- Without a double complement, only the other turns need to be followed. -/
theorem settlesBy_of_turns (hs : ¬ s.Doubled) (hnil : [] ∈ sequences)
    (h : ∀ {law : Law} {t : Signature}, law.Rewrites s t → law.Turns s t →
      law ≠ .doubleComplement → SettlesBy previous s sequences) :
    SettlesBy previous s sequences := by
  rcases isSettled_or_exists_rewrites s with hsettled | ⟨law, t, hrewrites⟩
  · exact hsettled.settlesBy hnil
  · refine h hrewrites hrewrites.turns ?_
    rintro rfl
    cases hrewrites.shape with
    | doubleComplement hd => exact hs hd

end

section

variable (op : BinaryOp) (x y z : String)

theorem not_doubled_complements :
    ¬ Doubled (binary op (complement (set x)) (complement (set y))) := by
  rw [doubled_binary_iff]
  exact not_or.mpr ⟨not_doubled_complement_set x, not_doubled_complement_set y⟩

theorem not_doubled_groupRight (outer inner : BinaryOp) :
    ¬ Doubled (binary outer (set x) (binary inner (set y) (set z))) := by
  simp only [doubled_binary_iff, not_doubled_set, or_self, not_false_eq_true]

theorem not_doubled_groupLeft (outer inner : BinaryOp) :
    ¬ Doubled (binary outer (binary inner (set x) (set y)) (set z)) := by
  simp only [doubled_binary_iff, not_doubled_set, or_self, not_false_eq_true]

/-- Complements moved inwards can turn out to be the same. -/
theorem settlesBy_complements :
    SettlesBy (some .deMorgan) (binary op (complement (set x)) (complement (set y)))
      [[], [.idempotence]] := by
  refine settlesBy_of_turns (not_doubled_complements op x y) (by decide) fun h hturns hd => ?_
  cases hturns with
  | dropped => exact absurd rfl hd
  | mergedComplement => exact settlesBy_last h rfl (isSettled_complement_set x) (by decide)

/-- What was distributed is gathered again. -/
theorem settlesBy_distributed :
    SettlesBy (some .distributive)
      (binary .intersection (binary .union (set x) (set y)) (binary .union (set x) (set z)))
      [[], [.distributive]] := by
  refine settlesBy_of_turns ?_ (by decide) fun h hturns hd => ?_
  · simp only [doubled_binary_iff, not_doubled_set, or_self, not_false_eq_true]
  · cases hturns with
    | dropped => exact absurd rfl hd
    | factored => exact settlesBy_circling h rfl (by decide)

/-- What was gathered is absorbed or else distributed again. -/
theorem settlesBy_gathered :
    SettlesBy (some .distributive) (binary .union (set x) (binary .intersection (set y) (set z)))
      [[], [.absorption], [.distributive]] := by
  refine settlesBy_of_turns (not_doubled_groupRight x y z _ _) (by decide) fun h hturns hd => ?_
  cases hturns with
  | dropped => exact absurd rfl hd
  | absorbedRight => exact settlesBy_last h rfl (isSettled_set _) (by decide)
  | distributed => exact settlesBy_circling h rfl (by decide)

theorem settlesBy_reversed :
    SettlesBy (some .distributive) (binary .union (binary .intersection (set x) (set y)) (set z))
      [[], [.absorption]] := by
  refine settlesBy_of_turns (not_doubled_groupLeft x y z _ _) (by decide) fun h hturns hd => ?_
  cases hturns with
  | dropped => exact absurd rfl hd
  | absorbedLeft => exact settlesBy_last h rfl (isSettled_set _) (by decide)

end

/-- A chain of one operator has no other shape. -/
theorem detect_eq_associative {s : Signature} (h : Law.associative.Shape s) :
    Law.detect s = some .associative := by
  -- Only the absorption comes close, and it needs two different operators.
  obtain ⟨law, hdetect, hshape⟩ := exists_detect_of_shape h
  cases h with
  | @associativeRight op hop x y z =>
    cases hshape with
    | doubleComplement hd => exact absurd hd (not_doubled_groupRight x y z op op)
    | absorptionRight hdual => cases op <;> cases hdual
    | associativeRight => exact hdetect
  | @associativeLeft op hop x y z =>
    cases hshape with
    | doubleComplement hd => exact absurd hd (not_doubled_groupLeft x y z op op)
    | absorptionLeft hdual => cases op <;> cases hdual
    | associativeLeft => exact hdetect

theorem rewrites_groupLeft (hop : op.isSymmetric = true) (x y z : String) :
    Law.associative.Rewrites (binary op (set x) (binary op (set y) (set z)))
      (binary op (binary op (set x) (set y)) (set z)) where
  detected := detect_eq_associative (.associativeRight hop x y z)
  transformed := regroup_right op (set x) (set y) (set z)
  changed h := by cases h

theorem rewrites_groupRight (hop : op.isSymmetric = true) (x y z : String) :
    Law.associative.Rewrites (binary op (binary op (set x) (set y)) (set z))
      (binary op (set x) (binary op (set y) (set z))) where
  detected := detect_eq_associative (.associativeLeft hop x y z)
  transformed := regroup_left op (set x) (set y) z
  changed h := by cases h

/-- What is grouped one way is grouped the other way next. -/
theorem settlesBy_associative {previous : Option Law} {s : Signature}
    (hrepeats : Law.repeats .associative previous = false) (h : Law.associative.Shape s) :
    SettlesBy previous s [[.associative, .associative]] := by
  cases h with
  | associativeRight hop x y z =>
    have hback : SettlesBy (some .associative) _ [[.associative]] :=
      settlesBy_circling (rewrites_groupRight hop x y z) rfl (by decide)
    exact hback.step (rewrites_groupLeft hop x y z) hrepeats (by decide)
  | associativeLeft hop x y z =>
    have hback : SettlesBy (some .associative) _ [[.associative]] :=
      settlesBy_circling (rewrites_groupLeft hop x y z) rfl (by decide)
    exact hback.step (rewrites_groupRight hop x y z) hrepeats (by decide)

/-- Where no double complement stands, one or two laws settle the signature. -/
theorem settlesBy_sequences {previous : Option Law} {s : Signature}
    (hprevious : previous = none ∨ previous = some .doubleComplement) (hs : ¬ s.Doubled) :
    SettlesBy previous s Law.sequences := by
  -- Most turns lead to signatures on which nothing fits; the others have a lemma above.
  refine settlesBy_of_turns hs (by decide) fun {law t} h hturns hd => ?_
  have hrepeats : law ≠ .commutative → law.repeats previous = false := repeats_eq_false hprevious hd
  cases hturns with
  | dropped => exact absurd rfl hd
  | emptied | emptiedDouble | cancelled =>
    exact settlesBy_last h (hrepeats (by decide)) isSettled_empty (by decide)
  | filled => exact settlesBy_last h (hrepeats (by decide)) isSettled_universal (by decide)
  | merged | absorbedLeft | absorbedRight =>
    exact settlesBy_last h (hrepeats (by decide)) (isSettled_set _) (by decide)
  | mergedComplement =>
    exact settlesBy_last h (hrepeats (by decide)) (isSettled_complement_set _) (by decide)
  | @pushed _ op hop x y =>
    exact (settlesBy_complements op x y).step h (hrepeats (by decide)) (by decide)
  | distributed x y z =>
    exact (settlesBy_distributed x y z).step h (hrepeats (by decide)) (by decide)
  | reversed x y z =>
    exact (settlesBy_reversed z y x).step h (hrepeats (by decide)) (by decide)
  | factored x y z =>
    exact (settlesBy_gathered x y z).step h (hrepeats (by decide)) (by decide)
  | groupedLeft hop x y z =>
    have hchain := settlesBy_associative (hrepeats (by decide)) (.associativeRight hop x y z)
    exact hchain.mono (by decide)
  | groupedRight hop x y z =>
    have hchain := settlesBy_associative (hrepeats (by decide)) (.associativeLeft hop x y z)
    exact hchain.mono (by decide)
  | swapped => exact settlesBy_circling h rfl (by decide)

theorem detect_of_doubled {s : Signature} (hs : s.Doubled) :
    Law.detect s = some .doubleComplement := by
  have hfits : Law.fits .doubleComplement s = true := (fits_iff _ s).mpr (.doubleComplement hs)
  exact List.find?_cons_of_pos hfits

theorem eq_doubleComplement_of_rewrites {law : Law} {s t : Signature} (h : law.Rewrites s t)
    (hs : s.Doubled) : law = .doubleComplement :=
  Option.some.inj (h.detected.symm.trans (detect_of_doubled hs))

/-- Double complements are dropped first.  After one such pass the other laws get their turn,
and a second one is the last. -/
theorem exists_settles (s : Signature) : ∃ laws t, Settles none s laws t ∧
    (laws = [.doubleComplement, .doubleComplement] ∨
      ∃ rest ∈ Law.sequences, laws = rest ∨ laws = .doubleComplement :: rest) := by
  by_cases hs : s.Doubled
  · rcases isSettled_or_exists_rewrites s with hsettled | ⟨law, t, hfirst⟩
    · exact ⟨[], s, .settled hsettled, Or.inr ⟨[], by decide, Or.inl rfl⟩⟩
    · obtain rfl := eq_doubleComplement_of_rewrites hfirst hs
      by_cases ht : t.Doubled
      · rcases isSettled_or_exists_rewrites t with hsettled | ⟨law, u, hsecond⟩
        · exact ⟨_, t, .step hfirst rfl (.settled hsettled), Or.inr ⟨[], by decide, Or.inr rfl⟩⟩
        · obtain rfl := eq_doubleComplement_of_rewrites hsecond ht
          exact ⟨_, u, .step hfirst rfl (.circling hsecond rfl), Or.inl rfl⟩
      · obtain ⟨rest, hrest, u, hsettles⟩ := settlesBy_sequences (Or.inr rfl) ht
        exact ⟨_, u, .step hfirst rfl hsettles, Or.inr ⟨rest, hrest, Or.inr rfl⟩⟩
  · obtain ⟨rest, hrest, t, hsettles⟩ := settlesBy_sequences (Or.inl rfl) hs
    exact ⟨rest, t, hsettles, Or.inr ⟨rest, hrest, Or.inl rfl⟩⟩

end Signature

namespace Law

/-- Double complements are dropped at the start or not at all, and twice only when nothing
follows. -/
def DoublesFirst (laws : List Law) : Prop :=
  ∃ n rest, laws = List.replicate n .doubleComplement ++ rest ∧ .doubleComplement ∉ rest ∧
    n ≤ 2 ∧ (n = 2 → rest = [])

theorem doublesFirst_take {laws : List Law} (h : DoublesFirst laws) (n : Nat) :
    DoublesFirst (laws.take n) := by
  obtain ⟨m, rest, rfl, hrest, hm, htwo⟩ := h
  refine ⟨min n m, rest.take (n - m), ?_, fun hmem => hrest (List.mem_of_mem_take hmem), ?_, ?_⟩
  · rw [List.take_append, List.take_replicate, List.length_replicate]
  · omega
  · intro hmin
    rw [htwo (by omega), List.take_nil]

theorem not_mem_of_mem_sequences : ∀ laws ∈ sequences, .doubleComplement ∉ laws := by
  decide

theorem length_le_of_mem_sequences : ∀ laws ∈ sequences, laws.length ≤ 2 := by
  decide

end Law

namespace Signature

open Law

theorem doublesFirst_of_mem_sequences {rest : List Law} (h : rest ∈ Law.sequences) :
    DoublesFirst rest ∧ DoublesFirst (.doubleComplement :: rest) := by
  have hrest := not_mem_of_mem_sequences rest h
  constructor
  · exact ⟨0, rest, rfl, hrest, by omega, fun h => absurd h (by omega)⟩
  · exact ⟨1, rest, rfl, hrest, by omega, fun h => absurd h (by omega)⟩

/-- Three passes are enough for every signature.  A lower bound cuts the laws off, and a higher
one changes nothing. -/
theorem simplify_passes (s : Signature) (journal : List Law) :
    let laws := fun passes => (s.simplify passes journal).1.laws
    (∀ passes, (laws passes).length ≤ 3) ∧
    (∀ passes, laws passes = (laws 3).take passes) ∧
    (∀ passes, 3 ≤ passes → s.simplify passes journal = s.simplify 3 journal) ∧
    (∀ passes, DoublesFirst (laws passes)) ∧
    (laws 3 = [.doubleComplement, .doubleComplement] ∨
      ∃ rest ∈ Law.sequences, laws 3 = rest ∨ laws 3 = .doubleComplement :: rest) := by
  intro laws
  obtain ⟨all, t, hsettles, hall⟩ := exists_settles s
  have hlength : all.length ≤ 3 := by
    rcases hall with rfl | ⟨rest, hrest, rfl | rfl⟩
    · decide
    · exact Nat.le_succ_of_le (length_le_of_mem_sequences _ hrest)
    · exact Nat.succ_le_succ (length_le_of_mem_sequences _ hrest)
  have hdoubles : DoublesFirst all := by
    rcases hall with rfl | ⟨rest, hrest, rfl | rfl⟩
    · exact ⟨2, [], rfl, List.not_mem_nil, by omega, fun _ => rfl⟩
    · exact (doublesFirst_of_mem_sequences hrest).1
    · exact (doublesFirst_of_mem_sequences hrest).2
  have hcut : ∀ passes, laws passes = all.take passes := fun passes =>
    hsettles.laws_simplify passes journal
  have hthree : laws 3 = all := (hcut 3).trans (List.take_of_length_le hlength)
  have hsame : ∀ passes, 3 ≤ passes →
      s.simplify passes journal = (⟨s, t, all⟩, journal ++ all) := fun passes hpasses =>
    hsettles.simplify_eq (Nat.le_trans hlength hpasses) journal
  refine ⟨?_, ?_, ?_, ?_, ?_⟩
  · intro passes
    rw [hcut, List.length_take]
    omega
  · intro passes
    rw [hthree, hcut]
  · intro passes hpasses
    rw [hsame passes hpasses, hsame 3 (Nat.le_refl 3)]
  · intro passes
    rw [hcut]
    exact doublesFirst_take hdoubles passes
  · rw [hthree]
    exact hall

/-- A double complement, then a union distributed over an intersection and gathered again. -/
theorem simplify_passes_distributive :
    let s := binary .union (complement (complement (set "A")))
      (binary .intersection (set "B") (set "C"))
    (s.simplify 1000 []).1 =
      ⟨s, binary .union (set "A") (binary .intersection (set "B") (set "C")),
        [.doubleComplement, .distributive, .distributive]⟩ := by
  intro s
  rw [(simplify_passes s []).2.2.1 1000 (by decide)]
  decide +kernel

end Signature
end SetLaws
