import Mathlib.Data.List.Induction
import Mathlib.Data.List.Nodup
import SetLaws.Proofs.Simplification.Derivation
import SetLaws.Simplification.Table

/-!
# What the table remembers

The table only looks at the entry that it holds, and yet what it holds is determined by all the
requests there were: for each name the first one of the longest.
-/

namespace SetLaws
namespace SimplificationTable

/-- A signature to be simplified under a name. -/
structure Request where
  name : String
  signature : Signature
  /-- The greatest number of passes. -/
  passes : Nat
  /-- The journal that the applied laws are added to. -/
  journal : List Law
deriving DecidableEq, Repr

namespace Request

def size (r : Request) : Nat :=
  r.signature.textSize

/-- The simplification that the request asks for. -/
def entry (r : Request) : Simplification :=
  (r.signature.simplify r.passes []).1

theorem simplify_eq (r : Request) :
    r.signature.simplify r.passes r.journal = (r.entry, r.journal ++ r.entry.laws) :=
  Signature.simplify_eq r.signature r.passes r.journal

/-- The request is longer than those of its name before it, and no shorter than those after
it. -/
def Decides (before : List Request) (r : Request) (after : List Request) : Prop :=
  (∀ q ∈ before, q.name = r.name → q.size < r.size) ∧
  ∀ q ∈ after, q.name = r.name → q.size ≤ r.size

instance (before : List Request) (r : Request) (after : List Request) :
    Decidable (Decides before r after) :=
  inferInstanceAs (Decidable (_ ∧ _))

/-- The deciding ones of the requests, which come after those in front. -/
def deciding (before : List Request) : List Request → List Request
  | [] => []
  | r :: after =>
    if Decides before r after then r :: deciding (before ++ [r]) after
    else deciding (before ++ [r]) after

section

variable {before after requests : List Request} {r d : Request}

/-- No request of its name is longer than the deciding one. -/
theorem Decides.size_le (h : Decides before d after) {q : Request}
    (hq : q ∈ before ++ d :: after) (hname : q.name = d.name) : q.size ≤ d.size := by
  rcases List.mem_append.mp hq with hq | hq
  · exact Nat.le_of_lt (h.1 q hq hname)
  · rcases List.mem_cons.mp hq with rfl | hq
    · exact Nat.le_refl q.size
    · exact h.2 q hq hname

theorem mem_deciding_iff : d ∈ deciding before requests ↔
    ∃ front back, requests = front ++ d :: back ∧ Decides (before ++ front) d back := by
  induction requests generalizing before with
  | nil =>
    rw [deciding]
    refine iff_of_false List.not_mem_nil ?_
    rintro ⟨front, back, hsplit, _⟩
    exact List.cons_ne_nil d back (List.append_eq_nil_iff.mp hsplit.symm).2
  | cons r after ih =>
    have hmem : d ∈ deciding before (r :: after) ↔
        d = r ∧ Decides before r after ∨ d ∈ deciding (before ++ [r]) after := by
      rw [deciding]
      split
      · next hr => simp only [List.mem_cons, hr, and_true]
      · next hr => simp only [hr, and_false, false_or]
    rw [hmem, ih]
    constructor
    · rintro (⟨rfl, hd⟩ | ⟨front, back, rfl, hd⟩)
      · exact ⟨[], after, rfl, by rwa [List.append_nil]⟩
      · exact ⟨r :: front, back, rfl, by rwa [List.append_cons]⟩
    · rintro ⟨front, back, hsplit, hd⟩
      rcases List.cons_eq_append_iff.mp hsplit with ⟨rfl, hhead⟩ | ⟨front, rfl, htail⟩
      · obtain ⟨rfl, rfl⟩ := List.cons.inj hhead
        exact Or.inl ⟨rfl, by rwa [List.append_nil] at hd⟩
      · exact Or.inr ⟨front, back, htail, by rwa [List.append_cons] at hd⟩

theorem decides_append_singleton_iff : Decides before d (after ++ [r]) ↔
    Decides before d after ∧ (r.name = d.name → r.size ≤ d.size) := by
  simp only [Decides, List.forall_mem_append, List.forall_mem_singleton, and_assoc]

/-- A request that is longer than all others of its name decides in their place. -/
theorem deciding_append_of_longer
    (h : ∀ q ∈ before ++ requests, q.name = r.name → q.size < r.size) :
    deciding before (requests ++ [r]) =
      (deciding before requests).filter (·.name ≠ r.name) ++ [r] := by
  induction requests generalizing before with
  | nil =>
    rw [List.append_nil] at h
    have hr : Decides before r [] := ⟨h, fun q hq => absurd hq List.not_mem_nil⟩
    simp only [List.nil_append, deciding, hr, if_true, List.filter_nil]
  | cons q after ih =>
    rw [List.append_cons] at h
    rw [List.cons_append, deciding, deciding, ih h]
    by_cases hname : q.name = r.name
    -- Whether or not `q` decided before, it does not after a longer one.
    · have hq : ¬ Decides before q (after ++ [r]) := by
        rw [decides_append_singleton_iff]
        rintro ⟨_, hle⟩
        have hlt := h q (by simp) hname
        have := hle hname.symm
        omega
      rw [if_neg hq]
      split
      · rw [List.filter_cons_of_neg (by simpa using hname)]
      · rfl
    · have hq : Decides before q (after ++ [r]) ↔ Decides before q after := by
        rw [decides_append_singleton_iff]
        exact and_iff_left fun hr => absurd hr.symm hname
      simp only [hq]
      split
      · rw [List.filter_cons_of_pos (by simpa using hname), List.cons_append]
      · rfl

/-- A request that is no longer than some other of its name changes nothing. -/
theorem deciding_append_of_not_longer {q : Request} (hq : q ∈ before ++ requests)
    (hname : q.name = r.name) (hsize : r.size ≤ q.size) :
    deciding before (requests ++ [r]) = deciding before requests := by
  induction requests generalizing before with
  | nil =>
    rw [List.append_nil] at hq
    have hr : ¬ Decides before r [] := by
      intro hr
      have := hr.1 q hq hname
      omega
    simp only [List.nil_append, deciding, hr, if_false]
  | cons p after ih =>
    have hp : Decides before p (after ++ [r]) ↔ Decides before p after := by
      rw [decides_append_singleton_iff]
      refine and_iff_left_of_imp fun hp hr => ?_
      have hqp : q.size ≤ p.size := hp.size_le hq (hname.trans hr)
      omega
    rw [List.append_cons] at hq
    rw [List.cons_append, deciding, deciding, ih hq]
    simp only [hp]

/-- Among the requests for a name there is a deciding one. -/
theorem exists_mem_deciding (hr : r ∈ requests) : ∃ d ∈ deciding [] requests, d.name = r.name := by
  induction requests using List.reverseRecOn generalizing r with
  | nil => exact absurd hr List.not_mem_nil
  | append_singleton requests p ih =>
    by_cases hp : ∀ q ∈ requests, q.name = p.name → q.size < p.size
    · rw [deciding_append_of_longer hp]
      by_cases hname : r.name = p.name
      · exact ⟨p, List.mem_append_right _ (List.mem_singleton_self p), hname.symm⟩
      · have hmem : r ∈ requests := by
          rcases List.mem_append.mp hr with hr | hr
          · exact hr
          · exact absurd (congrArg Request.name (List.mem_singleton.mp hr)) hname
        obtain ⟨d, hd, hdname⟩ := ih hmem
        refine ⟨d, List.mem_append_left _ (List.mem_filter.mpr ⟨hd, ?_⟩), hdname⟩
        simpa [hdname] using hname
    · simp only [not_forall] at hp
      obtain ⟨q, hq, hname, hsize⟩ := hp
      rw [deciding_append_of_not_longer hq hname (Nat.le_of_not_lt hsize)]
      rcases List.mem_append.mp hr with hr | hr
      · exact ih hr
      · obtain rfl := List.mem_singleton.mp hr
        rw [← hname]
        exact ih hq

end

end Request

open Request

/-- What the table answers to a request, and the table and the journal afterwards. -/
def answer (table : SimplificationTable) (r : Request) :
    Answer × SimplificationTable × List Law :=
  table.simplify r.name r.signature r.passes r.journal

/-- The table after requests made one after the other. -/
def after (table : SimplificationTable) : List Request → SimplificationTable
  | [] => table
  | r :: rest => (table.answer r).2.1.after rest

/-- For each name the table has the entry of the deciding request, in the order of these. -/
def Holds (table : SimplificationTable) (requests : List Request) : Prop :=
  table.entries = (deciding [] requests).map fun r => (r.name, r.entry)

section

variable {table : SimplificationTable} {requests : List Request} {r : Request}

theorem find?_put (table : SimplificationTable) (name : String) (entry : Simplification) :
    (table.put name entry).find? name = some entry := by
  have hrest : (table.entries.filter (·.1 ≠ name)).lookup name = none := by
    rw [List.lookup_eq_none_iff]
    intro p hp
    have hne : p.1 ≠ name := of_decide_eq_true (List.mem_filter.mp hp).2
    exact bne_iff_ne.mpr hne.symm
  rw [find?, put, List.lookup_append, hrest, Option.none_or, List.lookup_cons, BEq.rfl]

theorem mem_entries_of_find? {name : String} {entry : Simplification}
    (h : table.find? name = some entry) : (name, entry) ∈ table.entries := by
  obtain ⟨front, back, hsplit, _⟩ := List.lookup_eq_some_iff.mp h
  rw [hsplit]
  exact List.mem_append_right front List.mem_cons_self

theorem answer_of_longer
    (h : ∀ kept, table.find? r.name = some kept → kept.given.textSize < r.size) :
    table.answer r = (⟨r.entry, true⟩, table.put r.name r.entry, r.journal ++ r.entry.laws) := by
  rw [answer, SimplificationTable.simplify, r.simplify_eq]
  cases hfind : table.find? r.name with
  | none => rfl
  | some kept => exact if_neg (Nat.not_le_of_lt (h kept hfind))

theorem answer_of_kept {kept : Simplification} (h : table.find? r.name = some kept)
    (hsize : r.size ≤ kept.given.textSize) :
    table.answer r = (⟨kept, false⟩, table, r.journal) := by
  rw [answer, SimplificationTable.simplify, h]
  exact if_pos hsize

theorem Holds.find?_eq_none (h : table.Holds requests) (hfind : table.find? r.name = none) :
    ∀ q ∈ requests, q.name ≠ r.name := by
  intro q hq hname
  obtain ⟨d, hd, hdname⟩ := exists_mem_deciding hq
  have hentry : (d.name, d.entry) ∈ table.entries := by
    rw [h]
    exact List.mem_map_of_mem hd
  have hne := List.lookup_eq_none_iff.mp hfind _ hentry
  rw [hdname, hname] at hne
  exact absurd hne (by simp)

theorem Holds.find?_eq_some {kept : Simplification} (h : table.Holds requests)
    (hfind : table.find? r.name = some kept) :
    ∃ before d after, requests = before ++ d :: after ∧ Decides before d after ∧
      d.name = r.name ∧ kept = d.entry := by
  have hmem := mem_entries_of_find? hfind
  rw [h] at hmem
  obtain ⟨d, hd, hpair⟩ := List.mem_map.mp hmem
  obtain ⟨before, after, hrequests, hdecides⟩ := mem_deciding_iff.mp hd
  exact ⟨before, d, after, hrequests, hdecides, congrArg Prod.fst hpair,
    (congrArg Prod.snd hpair).symm⟩

/-- A request is simplified when it is longer than all before it, and else is answered with what
the deciding one of these came to. -/
theorem Holds.answer_eq (h : table.Holds requests) (r : Request) :
    (∀ q ∈ requests, q.name = r.name → q.size < r.size) ∧
      table.answer r = (⟨r.entry, true⟩, table.put r.name r.entry, r.journal ++ r.entry.laws) ∨
    ∃ d ∈ requests, d.name = r.name ∧ r.size ≤ d.size ∧ table.find? r.name = some d.entry ∧
      table.answer r = (⟨d.entry, false⟩, table, r.journal) := by
  cases hfind : table.find? r.name with
  | none =>
    refine Or.inl ⟨fun q hq hname => absurd hname (h.find?_eq_none hfind q hq), ?_⟩
    refine answer_of_longer fun kept hkept => ?_
    rw [hfind] at hkept
    cases hkept
  | some kept =>
    obtain ⟨before, d, after, hrequests, hdecides, hname, rfl⟩ := h.find?_eq_some hfind
    -- What is kept was computed for the longest request so far, so it stands for all of them.
    by_cases hsize : r.size ≤ d.size
    · refine Or.inr ⟨d, ?_, hname, hsize, rfl, answer_of_kept hfind hsize⟩
      rw [hrequests]
      exact List.mem_append_right before List.mem_cons_self
    · refine Or.inl ⟨fun q hq hqname => ?_, answer_of_longer fun kept hkept => ?_⟩
      · rw [hrequests] at hq
        have hqd := hdecides.size_le hq (hqname.trans hname.symm)
        omega
      · obtain rfl := Option.some.inj (hfind.symm.trans hkept)
        exact Nat.lt_of_not_le hsize

theorem Holds.answer (h : table.Holds requests) (r : Request) :
    (table.answer r).2.1.Holds (requests ++ [r]) := by
  rcases h.answer_eq r with ⟨hlonger, heq⟩ | ⟨d, hd, hname, hsize, _, heq⟩
  · rw [heq, Holds, deciding_append_of_longer hlonger, List.map_append]
    show table.entries.filter (·.1 ≠ r.name) ++ [(r.name, r.entry)] = _
    rw [h, List.filter_map]
    rfl
  · rw [heq, Holds, deciding_append_of_not_longer hd hname hsize]
    exact h

theorem after_append_singleton (table : SimplificationTable) (requests : List Request)
    (r : Request) :
    table.after (requests ++ [r]) = ((table.after requests).answer r).2.1 := by
  induction requests generalizing table with
  | nil => rfl
  | cons q rest ih => exact ih _

theorem Holds.after {more : List Request} (h : table.Holds requests) :
    (table.after more).Holds (requests ++ more) := by
  induction more generalizing table requests with
  | nil =>
    rw [List.append_nil]
    exact h
  | cons r more ih =>
    rw [List.append_cons]
    exact ih (h.answer r)

theorem holds_after (requests : List Request) : (empty.after requests).Holds requests := by
  have hempty : empty.Holds [] := rfl
  exact hempty.after

end

/-- After any requests, the table lists each name once, with the entry of its deciding request
and in the order of these.  A further request is simplified when it is longer than all of its
name, only then the laws are noted, and the entry that is returned is in the table. -/
theorem after_requests (requests : List Request) :
    let table := empty.after requests
    table.entries = (deciding [] requests).map (fun r => (r.name, r.entry)) ∧
    (∀ r ∈ requests, table.names.count r.name = 1 ∧
      ∃ before d after, requests = before ++ d :: after ∧ Decides before d after ∧
        d.name = r.name ∧ table.find? r.name = some d.entry) ∧
    ∀ r : Request, ∃ reply next journal,
      table.answer r = (reply, next, journal) ∧ next = empty.after (requests ++ [r]) ∧
      (reply.recomputed = true ↔ ∀ q ∈ requests, q.name = r.name → q.size < r.size) ∧
      journal = r.journal ++ (if reply.recomputed then reply.entry.laws else []) ∧
      next.find? r.name = some reply.entry := by
  intro table
  have hholds : table.Holds requests := holds_after requests
  refine ⟨hholds, ?_, ?_⟩
  · intro r hr
    cases hfind : table.find? r.name with
    | none => exact absurd rfl (hholds.find?_eq_none hfind r hr)
    | some kept =>
      obtain ⟨before, d, after, hrequests, hdecides, hname, rfl⟩ := hholds.find?_eq_some hfind
      have hmem : r.name ∈ table.names := List.mem_map_of_mem (mem_entries_of_find? hfind)
      exact ⟨List.count_eq_one_of_mem table.nodup hmem, before, d, after, hrequests, hdecides,
        hname, rfl⟩
  · intro r
    have hnext : (table.answer r).2.1 = empty.after (requests ++ [r]) :=
      (after_append_singleton empty requests r).symm
    rcases hholds.answer_eq r with ⟨hlonger, heq⟩ | ⟨d, hd, hname, hsize, hfind, heq⟩
    · rw [heq] at hnext
      exact ⟨_, _, _, heq, hnext, iff_of_true rfl hlonger, rfl, find?_put table r.name r.entry⟩
    · rw [heq] at hnext
      refine ⟨_, _, _, heq, hnext, iff_of_false Bool.false_ne_true fun hlonger => ?_, ?_, hfind⟩
      · have hlt := hlonger d hd hname
        omega
      · exact (List.append_nil r.journal).symm

/-- The first entry is replaced and moves behind the second, and a request of the same size
does not replace it again. -/
theorem after_requests_replaced :
    let short : Request := ⟨"Z", .binary .union (.set "A") (.set "A"), 10, []⟩
    let other : Request := ⟨"A", .binary .difference (.set "A") (.set "A"), 10, []⟩
    let long : Request := ⟨"Z", .complement (.binary .union (.set "A") (.set "B")), 10, []⟩
    let same : Request := ⟨"Z", .complement (.binary .union (.set "B") (.set "A")), 10, []⟩
    let table := empty.after [short, other, long, same]
    table.names = ["A", "Z"] ∧ table.names.count "Z" = 1 ∧
      table.entries = [("A", other.entry), ("Z", long.entry)] := by
  intro short other long same table
  have hall := after_requests [short, other, long, same]
  have hdeciding : deciding [] [short, other, long, same] = [other, long] := by decide +kernel
  have hentries : table.entries = [("A", other.entry), ("Z", long.entry)] := by
    rw [hall.1, hdeciding]
    rfl
  have hcount := (hall.2.1 short List.mem_cons_self).1
  exact ⟨congrArg (List.map Prod.fst) hentries, hcount, hentries⟩

end SimplificationTable
end SetLaws
