import SetLaws.Proofs.Evaluation.Yields

/-!
# The canonical application

The signature of an application holds those of all applications made before it in the
same operation.  So the outermost operation, which is applied last, has the longest
signature.
-/

namespace SetLaws
namespace Trace

/-- The longest of some applications is one of them. -/
theorem foldl_longer (records : List Application) (best : Option Application) :
    records.foldl longer best = best ∨ ∃ a ∈ records, records.foldl longer best = some a := by
  induction records generalizing best with
  | nil => exact Or.inl rfl
  | cons a rest ih =>
    rw [List.foldl_cons]
    rcases ih (longer best a) with h | ⟨b, hb, h⟩
    · rw [h]
      cases best with
      | none => exact Or.inr ⟨a, List.mem_cons_self, rfl⟩
      | some b =>
        rw [longer]
        split
        · exact Or.inl rfl
        · exact Or.inr ⟨a, List.mem_cons_self, rfl⟩
    · exact Or.inr ⟨b, List.mem_cons_of_mem a hb, h⟩

/-- An application that is longer than all before it is canonical. -/
theorem canonical_append_singleton {earlier : List Application} {last : Application}
    (h : ∀ a ∈ earlier, a.signature.tokenCount < last.signature.tokenCount) :
    canonical ⟨earlier ++ [last]⟩ = some last := by
  rw [canonical, List.foldl_append, List.foldl_cons, List.foldl_nil]
  rcases foldl_longer earlier none with hnone | ⟨a, ha, hsome⟩
  · rw [hnone, longer]
  · rw [hsome, longer, if_neg (Nat.not_le_of_lt (h a ha))]

end Trace

namespace Signature

/-- No application in a signature is longer than the signature. -/
theorem tokenCount_le_of_mem_applications {s : Signature} {a : Application}
    (h : a ∈ s.applications) : a.signature.tokenCount ≤ s.tokenCount := by
  induction s with
  | set | empty | universal => exact absurd h List.not_mem_nil
  | complement s ih =>
    rw [applications, List.mem_append, List.mem_singleton] at h
    rcases h with h | rfl
    · exact Nat.le_trans (ih h) (Nat.le_add_left _ 1)
    · exact Nat.le_refl _
  | binary op s t ihs iht =>
    rw [applications, List.mem_append, List.mem_append, List.mem_singleton] at h
    rw [tokenCount]
    rcases h with (h | h) | rfl
    · have := ihs h
      omega
    · have := iht h
      omega
    · rw [tokenCount]

/-- The outermost application is the last one and longer than the others. -/
theorem exists_applications_eq {s : Signature} (h : s.applications ≠ []) :
    ∃ earlier last, s.applications = earlier ++ [last] ∧ last.signature = s ∧
      ∀ a ∈ earlier, a.signature.tokenCount < last.signature.tokenCount := by
  cases s with
  | set | empty | universal => exact absurd rfl h
  | complement s =>
    refine ⟨s.applications, _, rfl, rfl, fun a ha => ?_⟩
    have := tokenCount_le_of_mem_applications ha
    simp only [tokenCount]
    omega
  | binary op s t =>
    refine ⟨s.applications ++ t.applications, _, rfl, rfl, fun a ha => ?_⟩
    simp only [tokenCount]
    rcases List.mem_append.mp ha with ha | ha
    · have := tokenCount_le_of_mem_applications ha
      omega
    · have := tokenCount_le_of_mem_applications ha
      omega

/-- The canonical application of a signature is the outermost one, if there is any. -/
theorem canonical_applications (s : Signature) :
    (Trace.canonical ⟨s.applications⟩).map Application.signature =
      if s.applications = [] then none else some s := by
  split
  · next h =>
    rw [h]
    rfl
  · next h =>
    obtain ⟨earlier, last, happlications, hlast, hlonger⟩ := exists_applications_eq h
    rw [happlications, Trace.canonical_append_singleton hlonger, Option.map_some, hlast]

end Signature
end SetLaws
