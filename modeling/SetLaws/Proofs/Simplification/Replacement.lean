import SetLaws.Proofs.Signature.Size
import SetLaws.Proofs.Simplification.History

/-!
# Entries that are replaced

An entry of the table gives way to one whose signature takes more bytes to write.  That is not to
say that it has more characters, since the names of sets can be written with any.
-/

namespace SetLaws
namespace SimplificationTable

open Request

/-- An entry of the table is replaced when the signature of a request takes more bytes than the
one it was computed from, those that the names take beyond one a character counted in.  So it goes
by the characters where the names of both signatures take as many bytes of that kind.  An entry
that is not replaced is the answer, and nothing changes. -/
theorem answer_replaces (requests : List Request) (r : Request) {kept : Simplification}
    (h : (empty.after requests).find? r.name = some kept) :
    let table := empty.after requests
    ∃ reply next journal, table.answer r = (reply, next, journal) ∧
      (reply.recomputed = true ↔ kept.given.text.length + kept.given.surplus <
        r.signature.text.length + r.signature.surplus) ∧
      (kept.given.surplus = r.signature.surplus →
        (reply.recomputed = true ↔ kept.given.text.length < r.signature.text.length)) ∧
      (reply.recomputed = true → reply.entry = r.entry ∧ next = table.put r.name r.entry) ∧
      (reply.recomputed = false → reply.entry = kept ∧ next = table ∧ journal = r.journal) := by
  intro table
  have hkept : kept.given.textSize = _ := kept.given.textSize_eq
  have hsize : r.size = _ := r.signature.textSize_eq
  by_cases hle : r.size ≤ kept.given.textSize
  · refine ⟨_, _, _, answer_of_kept h hle, ?_, ?_, ?_, fun _ => ⟨rfl, rfl, rfl⟩⟩
    · simp only [Bool.false_eq_true, false_iff]
      omega
    · intro hsurplus
      simp only [Bool.false_eq_true, false_iff]
      omega
    · intro hfalse
      cases hfalse
  · have hlonger : ∀ other, table.find? r.name = some other →
        other.given.textSize < r.size := by
      intro other hother
      obtain rfl := Option.some.inj (h.symm.trans hother)
      omega
    refine ⟨_, _, _, answer_of_longer hlonger, ?_, ?_, fun _ => ⟨rfl, rfl⟩, ?_⟩
    · simp only [true_iff]
      omega
    · intro hsurplus
      simp only [true_iff]
      omega
    · intro htrue
      cases htrue

/-- The entry of a name with a wide character gives way to one with more of them, though both
have as many characters. -/
theorem answer_replaces_wide :
    let one : Request := ⟨"X", .binary .union (.set "A") (.set "ñ"), 10, []⟩
    let two : Request := ⟨"X", .binary .union (.set "ñ") (.set "ñ"), 10, []⟩
    (empty.after [one]).find? "X" = some one.entry ∧
      one.signature.text.length = two.signature.text.length ∧
      ∃ reply next journal, (empty.after [one]).answer two = (reply, next, journal) ∧
        reply.recomputed = true ∧ reply.entry = two.entry := by
  intro one two
  have hfind : (empty.after [one]).find? two.name = some one.entry := by decide +kernel
  obtain ⟨reply, next, journal, hanswer, hbytes, -, hnew, -⟩ := answer_replaces [one] two hfind
  have hrecomputed : reply.recomputed = true := hbytes.mpr (by decide +kernel)
  exact ⟨hfind, by decide +kernel, reply, next, journal, hanswer, hrecomputed,
    (hnew hrecomputed).1⟩

/-- An entry can be replaced for a signature with no more characters, and kept for one that has
more. -/
theorem not_forall_answer_replaces :
    (¬ ∀ (requests : List Request) (r : Request) (kept : Simplification),
      (empty.after requests).find? r.name = some kept →
      ((empty.after requests).answer r).1.recomputed = true →
      kept.given.text.length < r.signature.text.length) ∧
    ¬ ∀ (requests : List Request) (r : Request) (kept : Simplification),
      (empty.after requests).find? r.name = some kept →
      kept.given.text.length < r.signature.text.length →
      ((empty.after requests).answer r).1.recomputed = true := by
  let narrow : Request := ⟨"X", .binary .union (.set "A") (.set "B"), 10, []⟩
  let wide : Request := ⟨"X", .binary .union (.set "A") (.set "ñ"), 10, []⟩
  let wider : Request := ⟨"X", .binary .union (.set "ñ") (.set "ñ"), 10, []⟩
  let long : Request := ⟨"X", .binary .union (.set "AA") (.set "B"), 10, []⟩
  constructor
  · intro h
    have hlength := h [narrow] wide narrow.entry (by decide +kernel) (by decide +kernel)
    exact absurd hlength (by decide +kernel)
  · intro h
    have hrecomputed := h [wider] long wider.entry (by decide +kernel) (by decide +kernel)
    exact absurd hrecomputed (by decide +kernel)

end SimplificationTable
end SetLaws
