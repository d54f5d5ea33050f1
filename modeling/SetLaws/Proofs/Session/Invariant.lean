import Mathlib.Data.Finset.Card
import SetLaws.Proofs.Environment.Names
import SetLaws.Proofs.Evaluation.Normal
import SetLaws.Proofs.Session.Reachable
import SetLaws.Proofs.Session.Reports

/-!
# What holds of every session

Whatever a session is used for, its sets are normal, its counter counts the names, its
universal set has all printable characters, and its table has the simplification of the longest
operation of each name since the last reset.
-/

namespace SetLaws

namespace ElementSet

theorem mem_place {e y : Element} {xs : List Element} (h : y ∈ xs) : y ∈ place e xs := by
  induction xs with
  | nil => exact absurd h List.not_mem_nil
  | cons x xs ih =>
    rw [place]
    split
    · exact List.mem_cons_of_mem e h
    · exact h
    · rcases List.mem_cons.mp h with rfl | h
      · exact List.mem_cons_self
      · exact List.mem_cons_of_mem x (ih h)

/-- A member stays as it is spelled when others are added. -/
theorem mem_insertAll {s : ElementSet} {y : Element} (h : y ∈ s.toList) (es : List Element) :
    y ∈ (s.insertAll es).toList := by
  induction es generalizing s with
  | nil => exact h
  | cons e es ih => exact ih (s := s.insert e) (mem_place h)

end ElementSet

namespace Environment

/-- All sets are normal, the counter is the number of different names, and the printable
characters are in the universal set. -/
structure Consistent (env : Environment) : Prop where
  normal : env.IsNormal
  total : env.totalSets = env.sets.names.toFinset.card
  universal : ∀ e ∈ printableAscii.toList, e ∈ env.universal.toList

theorem consistent_initial : initial.Consistent where
  normal := isNormal_initial
  total := rfl
  universal _ he := he

namespace Consistent

variable {env : Environment}

theorem countedBy (h : env.Consistent) (n : Nat) : (env.countedBy n).Consistent where
  normal := h.normal.countedBy n
  total := h.total
  universal := h.universal

theorem extendUniversal (h : env.Consistent) (elements : List Element) :
    (env.extendUniversal elements).Consistent where
  normal := h.normal.extendUniversal elements
  total := h.total
  universal e he := ElementSet.mem_insertAll (h.universal e he) _

theorem define (h : env.Consistent) (name : String) (set : ElementSet) :
    (env.define name set).2.Consistent where
  normal := h.normal.define name set
  total := by
    show (if !env.sets.contains name then env.totalSets + 1 else env.totalSets) =
      (env.sets.insert name set.normalized).names.toFinset.card
    rw [NamedSets.toFinset_names_insert, h.total]
    cases hname : env.sets.contains name with
    | true =>
      have hmem : name ∈ env.sets.names.toFinset :=
        List.mem_toFinset.mpr (NamedSets.mem_names_iff.mpr hname)
      rw [Finset.insert_eq_of_mem hmem]
      rfl
    | false =>
      have hmem : name ∉ env.sets.names.toFinset := by
        rw [List.mem_toFinset, NamedSets.mem_names_iff, hname]
        exact Bool.false_ne_true
      rw [Finset.card_insert_of_notMem hmem]
      rfl
  universal := h.universal

end Consistent
end Environment

namespace Outcome

/-- The elements that an outcome tells of. -/
def elements : Outcome → List Element
  | .defined _ set _ => set.toList
  | .operated _ set _ _ => set.toList
  | .evaluated _ memberships => memberships.map Membership.element

def IsNormal (outcome : Outcome) : Prop :=
  ∀ e ∈ outcome.elements, e.IsNormal

/-- The set that has been stored, and its name. -/
def stored? : Outcome → Option (String × ElementSet)
  | .defined name set _ => some (name, set)
  | .operated name set _ _ => some (name, set)
  | .evaluated _ _ => none

end Outcome

namespace Session

/-- An instruction that is executed, after the session in which it is. -/
abbrev Execution := Session × Instruction

namespace Execution

def verdict (p : Execution) : Verdict :=
  (p.1.execute p.2).1

def after (p : Execution) : Session :=
  (p.1.execute p.2).2

/-- Operators are applied, with success, and the result is stored under the name; a reference
by itself does not count. -/
def Performs (p : Execution) (name : String) (signature : Signature) : Prop :=
  ∃ op lhs rhs spanOfExpr span set simplification,
    p.2 = .operate name (.operation op lhs rhs spanOfExpr) span ∧
    p.verdict = .ok (.operated name set signature simplification)

end Execution

/-- What the table was asked for, if the verdict is what an instruction led to. -/
def request? (s : Session) : Verdict → Option SimplificationTable.Request
  | .ok (.operated name _ signature (some _)) => some ⟨name, signature, s.passes, s.journal⟩
  | _ => none

def Execution.request? (p : Execution) : Option SimplificationTable.Request :=
  p.1.request? p.verdict

/-- The sessions to which a new one can come, each with what has been executed in it since it was
last reset. -/
inductive Reached (passes : Nat) : List Execution → Session → Prop where
  | start : Reached passes [] (start passes)
  | run {past : List Execution} {s : Session} (h : Reached passes past s)
      (is : List Instruction) : Reached passes (s.reset.writeReport.trail is) (s.run is).2
  | execute {past : List Execution} {s : Session} (h : Reached passes past s) (i : Instruction) :
      Reached passes (past ++ [(s, i)]) (s.execute i).2
  | reset {past : List Execution} {s : Session} (h : Reached passes past s) :
      Reached passes [] s.reset
  | extendUniversal {past : List Execution} {s : Session} (h : Reached passes past s)
      (elements : List Element) : Reached passes past (s.extendUniversal elements)

/-- The environment is consistent, and the table has simplifications of stored operations, of
which none performed in the past is longer. -/
structure Consistent (past : List Execution) (s : Session) : Prop where
  env : s.env.Consistent
  named : ∀ name ∈ s.table.names, s.env.sets.contains name = true
  simplified : ∀ name entry, (name, entry) ∈ s.table.entries →
    entry = (entry.given.simplify s.passes []).1
  longest : ∀ name entry, (name, entry) ∈ s.table.entries → ∀ p ∈ past, ∀ signature,
    Execution.Performs p name signature → signature.textSize ≤ entry.given.textSize

theorem table_simplify (s : Session) (name : String) (signature : Signature) :
    (s.simplify name signature).2.table =
      (s.table.answer ⟨name, signature, s.passes, s.journal⟩).2.1 := by
  unfold simplify SimplificationTable.answer
  split
  next answer table journal h =>
  rw [h]
  cases answer.recomputed <;> rfl

theorem passes_simplify (s : Session) (name : String) (signature : Signature) :
    (s.simplify name signature).2.passes = s.passes := by
  unfold simplify
  split
  next answer table journal _ =>
  cases answer.recomputed <;> rfl

section

variable {s s' : Session} {i : Instruction} {v : Verdict} {outcome : Outcome}

/-- A normal set is stored as it is spelled. -/
theorem find?_store (s : Session) (name : String) {set : ElementSet} (h : set.IsNormal) :
    (s.store name set).env.sets.find? name = some set := by
  show (s.env.sets.insert name set.normalized).find? name = some set
  rw [NamedSets.find?_insert, if_pos rfl, h.normalized_eq]

theorem isNormal_of_evaluateEach {exprs : List Expr} {env env' : Environment}
    {values : List Value} {faults : List Diagnostic} (henv : env.IsNormal)
    (h : evaluateEach env exprs = ((values, faults), env')) : ∀ v ∈ values, v.IsNormal := by
  have heach : evaluateEach env exprs = _ := evaluateEach_countedBy env 0 exprs
  cases heach.symm.trans h
  intro v hv
  obtain ⟨e, -, hvalue⟩ := List.mem_filterMap.mp hv
  obtain ⟨t, hok⟩ := Evaluator.result?_eq_some_iff.mp hvalue
  exact Expr.isNormal_of_ok henv hok

/-- What an instruction tells of is normal, and what it says to be stored is stored. -/
theorem Step.outcome_isNormal (h : Step s i (.ok outcome) s') (henv : s.env.IsNormal) :
    outcome.IsNormal ∧
    ∀ name set, outcome.stored? = some (name, set) → s'.env.sets.find? name = some set := by
  cases h with
  | @defined name expr span v t n heval =>
    have hset : v.toSet.IsNormal := (Expr.isNormal_of_ok henv heval).toSet
    refine ⟨hset, fun other set h => ?_⟩
    cases h
    exact find?_store _ name hset
  | @referred name expr span set signature hyields _ =>
    have hset : set.IsNormal := hyields.isNormal henv
    refine ⟨hset, fun other set h => ?_⟩
    cases h
    exact find?_store _ name hset
  | @operated name expr span set signature n hyields _ _ =>
    have hset : set.IsNormal := hyields.isNormal henv
    refine ⟨hset, fun other set h => ?_⟩
    cases h
    exact find?_store _ name hset
  | @evaluated elements operation span target values n _ heach =>
    refine ⟨fun e he => ?_, fun name set h => ?_⟩
    · obtain ⟨m, hm, rfl⟩ := List.mem_map.mp he
      obtain ⟨tested, htested, rfl⟩ := List.mem_map.mp hm
      obtain ⟨v, hv, hmem⟩ := List.mem_flatMap.mp htested
      exact isNormal_of_evaluateEach henv heach v hv tested hmem
    · cases h

theorem Step.passes_eq (h : Step s i v s') : s'.passes = s.passes := by
  cases h with
  | @operated name _ _ _ signature n => exact passes_simplify (s.countedBy n) name signature
  | failed | defined | referred | evaluated => rfl

theorem Step.consistent_env (h : Step s i v s') (henv : s.env.Consistent) :
    s'.env.Consistent := by
  cases h with
  | failed => exact henv.countedBy _
  | defined => exact (henv.countedBy _).define _ _
  | referred => exact henv.define _ _
  | operated =>
    show Environment.Consistent (Environment.define _ _ _).2
    rw [simplify_env]
    exact (henv.countedBy _).define _ _
  | evaluated => exact henv.countedBy _

/-- No instruction takes a name away. -/
theorem Step.contains (h : Step s i v s') {name : String}
    (hname : s.env.sets.contains name = true) : s'.env.sets.contains name = true := by
  cases h with
  | failed | evaluated => exact hname
  | defined | referred => exact (NamedSets.contains_insert _ _ _ _).mpr (Or.inr hname)
  | operated =>
    refine (NamedSets.contains_insert _ _ _ _).mpr (Or.inr ?_)
    rw [simplify_env]
    exact hname

/-- The table is left alone or gives one answer, and then the name has a set afterwards. -/
theorem Step.table_eq (h : Step s i v s') :
    (s.request? v = none ∧ s'.table = s.table) ∨
    ∃ r, s.request? v = some r ∧ s'.table = (s.table.answer r).2.1 ∧ r.passes = s.passes ∧
      s'.env.sets.contains r.name = true := by
  cases h with
  | failed | defined | referred | evaluated => exact Or.inl ⟨rfl, rfl⟩
  | @operated name _ _ _ signature n =>
    refine Or.inr ⟨_, rfl, table_simplify (s.countedBy n) name signature, rfl, ?_⟩
    exact (NamedSets.contains_insert _ _ _ _).mpr (Or.inl rfl)

/-- Operators that are applied with success ask the table for a simplification. -/
theorem Execution.Performs.request?_eq {p : Execution} {name : String} {signature : Signature}
    (h : p.Performs name signature) :
    p.request? = some ⟨name, signature, p.1.passes, p.1.journal⟩ := by
  obtain ⟨op, lhs, rhs, spanOfExpr, span, set, simplification, hinstruction, hverdict⟩ := h
  have hstep : Step p.1 p.2 p.verdict p.after := step_execute rfl
  rw [Execution.request?]
  rw [hinstruction, hverdict] at hstep
  rw [hverdict]
  generalize p.after = s' at hstep
  cases hstep with
  | referred hyields hnone => cases hyields <;> exact absurd hnone (List.concat_ne_nil _ _)
  | operated => rfl

end

/-- The table holds what the past has asked for, and the names asked for have sets. -/
structure Remembers (past : List Execution) (s : Session) : Prop where
  held : s.table.Holds (past.filterMap Execution.request?)
  asked : ∀ r ∈ past.filterMap Execution.request?,
    r.passes = s.passes ∧ s.env.sets.contains r.name = true

namespace Remembers

variable {past : List Execution} {s : Session}

theorem execute (h : s.Remembers past) (i : Instruction) :
    (s.execute i).2.Remembers (past ++ [(s, i)]) := by
  have hstep : Step s i (Execution.verdict (s, i)) (s.execute i).2 := step_execute rfl
  have hkept : ∀ r ∈ past.filterMap Execution.request?,
      r.passes = (s.execute i).2.passes ∧ (s.execute i).2.env.sets.contains r.name = true := by
    intro r hr
    rw [hstep.passes_eq]
    exact (h.asked r hr).imp_right hstep.contains
  rcases hstep.table_eq with ⟨hnone, htable⟩ | ⟨r, hsome, htable, hpasses, hname⟩
  · replace hnone : Execution.request? (s, i) = none := hnone
    have hpast : (past ++ [(s, i)]).filterMap Execution.request? =
        past.filterMap Execution.request? := by
      rw [List.filterMap_append, List.filterMap_cons_none hnone, List.filterMap_nil,
        List.append_nil]
    constructor
    · rw [hpast, htable]
      exact h.held
    · rw [hpast]
      exact hkept
  · replace hsome : Execution.request? (s, i) = some r := hsome
    have hpast : (past ++ [(s, i)]).filterMap Execution.request? =
        past.filterMap Execution.request? ++ [r] := by
      rw [List.filterMap_append, List.filterMap_cons_some hsome, List.filterMap_nil]
    constructor
    · rw [hpast, htable]
      exact h.held.answer r
    · rw [hpast, List.forall_mem_append, List.forall_mem_singleton, hstep.passes_eq]
      rw [hstep.passes_eq] at hkept
      exact ⟨hkept, hpasses, hname⟩

theorem executeAll (h : s.Remembers past) (is : List Instruction) :
    (s.executeAll is).2.Remembers (past ++ s.trail is) := by
  induction is generalizing s past with
  | nil =>
    rw [trail, List.append_nil]
    exact h
  | cons i is ih =>
    rw [trail, List.append_cons]
    exact ih (h.execute i)

end Remembers

theorem remembers_reset (s : Session) : s.reset.Remembers [] where
  held := rfl
  asked _ hr := absurd hr List.not_mem_nil

section

variable {passes : Nat} {past : List Execution} {s : Session}

theorem consistent_trail (henv : s.env.Consistent) (is : List Instruction) :
    (s.executeAll is).2.env.Consistent ∧ ∀ p ∈ s.trail is, p.1.env.Consistent := by
  induction is generalizing s with
  | nil => exact ⟨henv, fun p hp => absurd hp List.not_mem_nil⟩
  | cons i is ih =>
    obtain ⟨hend, htrail⟩ := ih ((step_execute rfl).consistent_env henv)
    exact ⟨hend, List.forall_mem_cons.mpr ⟨henv, htrail⟩⟩

theorem verdicts_executeAll (s : Session) (is : List Instruction) :
    (s.executeAll is).1 = (s.trail is).map Execution.verdict := by
  induction is generalizing s with
  | nil => rfl
  | cons i is ih =>
    rw [trail, List.map_cons, ← ih]
    rfl

theorem passes_executeAll (s : Session) (is : List Instruction) :
    (s.executeAll is).2.passes = s.passes := by
  induction is generalizing s with
  | nil => rfl
  | cons i is ih =>
    rw [executeAll]
    exact (ih (s.execute i).2).trans (step_execute rfl).passes_eq

theorem Reached.passes_eq (h : Reached passes past s) : s.passes = passes := by
  induction h with
  | start => rfl
  | @run past s _ is ih => exact (passes_executeAll s.reset.writeReport is).trans ih
  | execute _ i ih => exact ((step_execute rfl).passes_eq).trans ih
  | reset _ ih => exact ih
  | extendUniversal _ _ ih => exact ih

theorem Reached.consistent_env (h : Reached passes past s) :
    s.env.Consistent ∧ ∀ p ∈ past, p.1.env.Consistent := by
  have hnone : ∀ p ∈ ([] : List Execution), p.1.env.Consistent :=
    fun p hp => absurd hp List.not_mem_nil
  induction h with
  | start => exact ⟨Environment.consistent_initial, hnone⟩
  | @run past s _ is _ => exact consistent_trail Environment.consistent_initial is
  | execute _ i ih =>
    refine ⟨(step_execute rfl).consistent_env ih.1, ?_⟩
    exact List.forall_mem_append.mpr ⟨ih.2, List.forall_mem_singleton.mpr ih.1⟩
  | reset _ _ => exact ⟨Environment.consistent_initial, hnone⟩
  | extendUniversal _ elements ih => exact ⟨ih.1.extendUniversal elements, ih.2⟩

theorem Reached.remembers (h : Reached passes past s) : s.Remembers past := by
  induction h with
  | start => exact remembers_reset (.start passes)
  | @run past s _ is _ =>
    have hreset := s.remembers_reset
    have hstart : s.reset.writeReport.Remembers [] := ⟨hreset.held, hreset.asked⟩
    exact hstart.executeAll is
  | execute _ i ih => exact ih.execute i
  | @reset past s _ _ => exact s.remembers_reset
  | extendUniversal _ _ ih => exact ⟨ih.held, ih.asked⟩

/-- What the table holds is what the longest operation of each name came to. -/
theorem Remembers.consistent (h : s.Remembers past) (henv : s.env.Consistent) :
    s.Consistent past := by
  have hentry : ∀ name entry, (name, entry) ∈ s.table.entries →
      ∃ d ∈ past.filterMap Execution.request?, d.name = name ∧ d.entry = entry ∧
        ∀ r ∈ past.filterMap Execution.request?, r.name = name → r.size ≤ d.size := by
    intro name entry hmem
    rw [h.held] at hmem
    obtain ⟨d, hd, hpair⟩ := List.mem_map.mp hmem
    cases hpair
    obtain ⟨before, after, hsplit, hdecides⟩ := SimplificationTable.Request.mem_deciding_iff.mp hd
    rw [hsplit]
    exact ⟨d, List.mem_append_right before List.mem_cons_self, rfl, rfl,
      fun r hr hname => hdecides.size_le hr hname⟩
  refine ⟨henv, ?_, ?_, ?_⟩
  · intro name hname
    obtain ⟨pair, hmem, rfl⟩ := List.mem_map.mp hname
    obtain ⟨d, hd, hdname, _⟩ := hentry pair.1 pair.2 hmem
    rw [← hdname]
    exact (h.asked d hd).2
  · intro name entry hmem
    obtain ⟨d, hd, _, rfl, _⟩ := hentry name entry hmem
    rw [← (h.asked d hd).1]
    rfl
  · intro name entry hmem p hp signature hperforms
    obtain ⟨d, _, _, rfl, hlongest⟩ := hentry name entry hmem
    exact hlongest _ (List.mem_filterMap.mpr ⟨p, hp, hperforms.request?_eq⟩) rfl

/-- Wherever a session is used to, it is consistent with its past, and the outcomes there were
tell of normal elements and of sets as they are stored.  The verdicts of a run are those of
the executions on its trail. -/
theorem reached_consistent (h : Reached passes past s) :
    s.passes = passes ∧
    s.Consistent past ∧
    (∀ p ∈ past, ∀ outcome, p.verdict = .ok outcome →
      outcome.IsNormal ∧
      ∀ name set, outcome.stored? = some (name, set) →
        p.after.env.sets.find? name = some set) ∧
    ∀ is, (s.run is).1 = (s.reset.writeReport.trail is).map Execution.verdict := by
  obtain ⟨henv, hpast⟩ := h.consistent_env
  refine ⟨h.passes_eq, h.remembers.consistent henv, ?_, ?_⟩
  · intro p hp outcome hverdict
    have hstep : Step p.1 p.2 (.ok outcome) p.after := step_execute (Prod.ext hverdict rfl)
    exact hstep.outcome_isNormal (hpast p hp).normal
  · intro is
    exact verdicts_executeAll s.reset.writeReport is

end

/-- The range takes an element that the universal set was extended with, and the shorter of two
operations of one name does not get into the table. -/
theorem reached_consistent_extended :
    let minus (e : Expr) : Expr :=
      .operation (.binary .difference) e (some (.reference "A" .nowhere)) .nowhere
    let define : Instruction := .define "A" (.range (.primitive "199" .integer .nowhere)
      (.primitive "200" .text .nowhere) .nowhere) .nowhere
    let long : Instruction := .operate "X" (minus (minus (.reference "A" .nowhere))) .nowhere
    let short : Instruction := .operate "X" (minus (.reference "A" .nowhere)) .nowhere
    let s := (start 10).extendUniversal [.int 5, .text "200"]
    let s₁ := (s.execute define).2
    let s₂ := (s₁.execute long).2
    let s₃ := (s₂.execute short).2
    let past : List Execution := [(s, define), (s₁, long), (s₂, short)]
    Reached 10 past s₃ ∧ s₃.env.totalSets = 2 ∧ s₁.env.sets.find? "A" = some (.ofList [.int 200]) ∧
      ∀ entry, ("X", entry) ∈ s₃.table.entries → 15 ≤ entry.given.textSize := by
  intro minus define long short s s₁ s₂ s₃ past
  have hreached : Reached 10 past s₃ :=
    (((Reached.start.extendUniversal _).execute define).execute long).execute short
  obtain ⟨_, hconsistent, houtcomes, _⟩ := reached_consistent hreached
  have hdefine : Execution.verdict (s, define) = .ok (.defined "A" (.ofList [.int 200]) true) := by
    decide +kernel
  let signature : Signature := .binary .difference (.binary .difference (.set "A") (.set "A"))
    (.set "A")
  have hlong : Execution.verdict (s₁, long) =
      .ok (.operated "X" .empty signature (some ⟨signature, signature, []⟩)) := by
    decide +kernel
  have hperforms : Execution.Performs (s₁, long) "X" signature :=
    ⟨_, _, _, _, _, _, _, rfl, hlong⟩
  have hnames : s₃.env.sets.names.toFinset.card = 2 := by decide +kernel
  refine ⟨hreached, hconsistent.env.total.trans hnames, ?_, fun entry hentry => ?_⟩
  · exact (houtcomes (s, define) List.mem_cons_self _ hdefine).2 _ _ rfl
  · have hmem : (s₁, long) ∈ past := List.mem_cons_of_mem _ List.mem_cons_self
    exact hconsistent.longest "X" entry hentry _ hmem _ hperforms

end Session
end SetLaws
