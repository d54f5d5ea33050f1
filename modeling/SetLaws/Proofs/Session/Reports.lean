import SetLaws.Proofs.Session.Step
import SetLaws.Proofs.Simplification.History

/-!
# Reports

A report is written when the table has changed and at no other time, so the last one is the
report of the table as it is.  A run begins with a report of the empty table, and what was
before it is found again only in the logs.
-/

namespace SetLaws
namespace SimplificationTable

/-- There is no entry of the name, or only one that was computed from a shorter signature. -/
def lacks (table : SimplificationTable) (name : String) (signature : Signature) : Bool :=
  (table.find? name).all (·.given.textSize < signature.textSize)

theorem simplify_of_lacks {table : SimplificationTable} {name : String} {signature : Signature}
    (h : table.lacks name signature = true) (passes : Nat) (journal : List Law) :
    let entry := (signature.simplify passes []).1
    table.simplify name signature passes journal =
      (⟨entry, true⟩, table.put name entry, journal ++ entry.laws) := by
  have hlonger : ∀ kept, table.find? name = some kept →
      kept.given.textSize < signature.textSize := by
    intro kept hfind
    rw [lacks, hfind] at h
    exact of_decide_eq_true h
  exact answer_of_longer (r := ⟨name, signature, passes, journal⟩) hlonger

theorem simplify_of_not_lacks {table : SimplificationTable} {name : String}
    {signature : Signature} (h : table.lacks name signature = false) :
    ∃ kept, ∀ passes journal,
      table.simplify name signature passes journal = (⟨kept, false⟩, table, journal) := by
  cases hfind : table.find? name with
  | none =>
    rw [lacks, hfind] at h
    cases h
  | some kept =>
    rw [lacks, hfind] at h
    have hsize : signature.textSize ≤ kept.given.textSize :=
      Nat.le_of_not_lt (of_decide_eq_false h)
    refine ⟨kept, fun passes journal => ?_⟩
    exact answer_of_kept (r := ⟨name, signature, passes, journal⟩) hfind hsize

end SimplificationTable

/-- The simplification that an outcome shows. -/
def Outcome.simplification? : Outcome → Option Simplification
  | .operated _ _ _ simplification => simplification
  | .defined .. => none
  | .evaluated .. => none

namespace Session

/-- The last report is that of the table.  Before there is one the table is empty. -/
def Current (s : Session) : Prop :=
  s.reports = [] ∧ s.table = .empty ∨ s.reports.getLast? = some s.table.report

/-- The instruction is an operation that succeeds and whose simplification the table does not
have. -/
def recomputes (s : Session) (i : Instruction) : Bool :=
  match (s.execute i).1 with
  | .ok (.operated name _ signature (some _)) => s.table.lacks name signature
  | _ => false

/-- The instructions of a program, each with the session in which it is executed. -/
def trail (s : Session) : List Instruction → List (Session × Instruction)
  | [] => []
  | i :: is => (s, i) :: (s.execute i).2.trail is

/-- The same session with older reports and laws in front of its own. -/
def precededBy (s : Session) (reports : List Json) (journal : List Law) : Session :=
  { s with reports := reports ++ s.reports, journal := journal ++ s.journal }

/-- What a session is used for.  A reset by itself is not among it. -/
inductive Action where
  | run (is : List Instruction)
  | execute (i : Instruction)
  | extendUniversal (elements : List Element)

def perform (s : Session) : Action → Session
  | .run is => (s.run is).2
  | .execute i => (s.execute i).2
  | .extendUniversal elements => s.extendUniversal elements

def performAll (s : Session) (actions : List Action) : Session :=
  actions.foldl perform s

theorem simplify_writes (s : Session) (name : String) (signature : Signature) :
    let next := (s.simplify name signature).2
    if s.table.lacks name signature then next.reports = s.reports ++ [next.table.report]
    else next.reports = s.reports ∧ next.table = s.table := by
  unfold simplify
  cases hlacks : s.table.lacks name signature with
  | true =>
    rw [SimplificationTable.simplify_of_lacks hlacks]
    rfl
  | false =>
    obtain ⟨kept, hkept⟩ := SimplificationTable.simplify_of_not_lacks hlacks
    rw [hkept]
    exact ⟨rfl, rfl⟩

/-- An instruction writes the report of the table that it leads to, or leaves the reports and
the table alone. -/
theorem execute_writes (s : Session) (i : Instruction) :
    let next := (s.execute i).2
    if s.recomputes i then next.reports = s.reports ++ [next.table.report]
    else next.reports = s.reports ∧ next.table = s.table := by
  cases h : s.execute i with
  | mk v s' =>
    rw [recomputes, h]
    cases step_execute h with
    | failed | defined | referred | evaluated => exact ⟨rfl, rfl⟩
    | @operated name _ _ _ signature n => exact simplify_writes (s.countedBy n) name signature

theorem reports_execute (s : Session) (i : Instruction) :
    (s.execute i).2.reports =
      s.reports ++ if s.recomputes i then [(s.execute i).2.table.report] else [] := by
  have hwrites := s.execute_writes i
  split
  · next h => simpa only [h, if_true] using hwrites
  · next h =>
    simp only [h] at hwrites
    rw [hwrites.1, List.append_nil]

theorem Current.execute {s : Session} (h : s.Current) (i : Instruction) :
    (s.execute i).2.Current := by
  have hwrites := s.execute_writes i
  by_cases hrecomputes : s.recomputes i
  · simp only [hrecomputes, if_true] at hwrites
    right
    rw [hwrites, List.getLast?_concat]
  · simp only [hrecomputes] at hwrites
    rw [Current, hwrites.1, hwrites.2]
    exact h

theorem Current.executeAll {s : Session} (h : s.Current) (is : List Instruction) :
    (s.executeAll is).2.Current := by
  induction is generalizing s with
  | nil => exact h
  | cons i is ih => exact ih (h.execute i)

/-- A run needs no report to begin with, because it writes one. -/
theorem current_run (s : Session) (is : List Instruction) : (s.run is).2.Current := by
  have hstart : s.reset.writeReport.Current := Or.inr List.getLast?_concat
  exact hstart.executeAll is

theorem Current.perform {s : Session} (h : s.Current) (action : Action) :
    (s.perform action).Current := by
  cases action with
  | run is => exact s.current_run is
  | execute i => exact h.execute i
  | extendUniversal elements => exact h

theorem Current.performAll {s : Session} (h : s.Current) (actions : List Action) :
    (s.performAll actions).Current := by
  induction actions generalizing s with
  | nil => exact h
  | cons action actions ih => exact ih (h.perform action)

/-- Executing instructions writes a report for each one that recomputes a simplification. -/
theorem reports_executeAll (s : Session) (is : List Instruction) :
    (s.executeAll is).2.reports =
      s.reports ++ ((s.trail is).filter fun p => p.1.recomputes p.2).map fun p =>
        (p.1.execute p.2).2.table.report := by
  induction is generalizing s with
  | nil => exact (List.append_nil s.reports).symm
  | cons i is ih =>
    show ((s.execute i).2.executeAll is).2.reports = _
    rw [ih, reports_execute, List.append_assoc, trail, List.filter_cons]
    by_cases hrecomputes : s.recomputes i <;> simp only [hrecomputes, if_true] <;> rfl

/-- After a run the report of its table is there, and it is the last one. -/
theorem getLast?_reports_run (s : Session) (is : List Instruction) :
    (s.run is).2.reports.getLast? = some (s.run is).2.table.report := by
  rcases s.current_run is with ⟨hnone, _⟩ | hlast
  · -- A run writes at least one report.
    rw [run, reports_executeAll] at hnone
    have hfirst := (List.append_eq_nil_iff.mp hnone).1
    exact absurd hfirst (List.append_ne_nil_of_right_ne_nil _ (List.cons_ne_nil _ _))
  · exact hlast

theorem recomputes_eq_false {s : Session} {i : Instruction}
    (h : ∀ outcome, (s.execute i).1 = .ok outcome → outcome.simplification? = none) :
    s.recomputes i = false := by
  unfold recomputes
  split
  · next hverdict => cases h _ hverdict
  · rfl

/-- The table stays as it is while no outcome shows a simplification. -/
theorem table_executeAll {s : Session} {is : List Instruction}
    (h : ∀ outcome, .ok outcome ∈ (s.executeAll is).1 → outcome.simplification? = none) :
    (s.executeAll is).2.table = s.table := by
  induction is generalizing s with
  | nil => rfl
  | cons i is ih =>
    have hhead : s.recomputes i = false :=
      recomputes_eq_false fun outcome houtcome =>
        h outcome (List.mem_cons.mpr (Or.inl houtcome.symm))
    have hwrites := s.execute_writes i
    rw [hhead] at hwrites
    exact (ih fun outcome hmem => h outcome (List.mem_cons_of_mem _ hmem)).trans hwrites.2

section

variable (s : Session) (reports : List Json) (journal : List Law)

theorem simplify_precededBy (name : String) (signature : Signature) :
    (s.precededBy reports journal).simplify name signature =
      ((s.simplify name signature).1,
        (s.simplify name signature).2.precededBy reports journal) := by
  unfold simplify
  rw [show (s.precededBy reports journal).table = s.table from rfl]
  cases hlacks : s.table.lacks name signature with
  | true =>
    simp only [SimplificationTable.simplify_of_lacks hlacks, if_true, precededBy, writeReport,
      List.append_assoc]
  | false =>
    obtain ⟨kept, hkept⟩ := SimplificationTable.simplify_of_not_lacks hlacks
    rw [hkept, hkept]
    rfl

theorem define_precededBy (name : String) (expr : Expr) :
    (s.precededBy reports journal).define name expr =
      ((s.define name expr).1, (s.define name expr).2.precededBy reports journal) := by
  unfold define precededBy
  dsimp only
  split
  · rfl
  · split <;> rfl

theorem operate_precededBy (name : String) (expr : Expr) :
    (s.precededBy reports journal).operate name expr =
      ((s.operate name expr).1, (s.operate name expr).2.precededBy reports journal) := by
  unfold operate
  rw [show (s.precededBy reports journal).env = s.env from rfl]
  split
  · rfl
  · split
    · rfl
    · next set own state heval =>
      dsimp only
      split
      · rfl
      · next application _ =>
        -- Nothing but a simplification writes to the logs.
        have hsimplify := simplify_precededBy { s with env := state.env } reports journal name
          application.signature
        unfold precededBy at hsimplify ⊢
        simp only [hsimplify]
    · rfl

theorem evaluate_precededBy (elements : List Expr) (operation : String) (span : Span) :
    (s.precededBy reports journal).evaluate elements operation span =
      ((s.evaluate elements operation span).1,
        (s.evaluate elements operation span).2.precededBy reports journal) := by
  unfold evaluate precededBy
  dsimp only
  split
  · rfl
  · split
    · rfl
    · split <;> rfl

/-- What an instruction does depends on no log. -/
theorem execute_precededBy (i : Instruction) :
    (s.precededBy reports journal).execute i =
      ((s.execute i).1, (s.execute i).2.precededBy reports journal) := by
  cases i with
  | define name expr span => exact s.define_precededBy reports journal name expr
  | operate name expr span => exact s.operate_precededBy reports journal name expr
  | evaluate elements operation span =>
    exact s.evaluate_precededBy reports journal elements operation span

theorem executeAll_precededBy (is : List Instruction) :
    (s.precededBy reports journal).executeAll is =
      ((s.executeAll is).1, (s.executeAll is).2.precededBy reports journal) := by
  induction is generalizing s with
  | nil => rfl
  | cons i is ih =>
    rw [executeAll, execute_precededBy]
    dsimp only
    rw [ih]
    rfl

/-- A run in a new session executes the instructions there, behind a report of the empty table. -/
theorem run_start (passes : Nat) (is : List Instruction) :
    (start passes).run is =
      (((start passes).executeAll is).1,
        ((start passes).executeAll is).2.precededBy [SimplificationTable.empty.report] []) :=
  (start passes).executeAll_precededBy [SimplificationTable.empty.report] [] is

/-- A run is that of a new session, behind the logs that were there. -/
theorem run_eq_precededBy (is : List Instruction) :
    s.run is =
      (((start s.passes).run is).1,
        ((start s.passes).run is).2.precededBy s.reports s.journal) := by
  -- Of what was there before, only the logs outlast the reset.
  have hstart : s.reset.writeReport =
      (start s.passes).reset.writeReport.precededBy s.reports s.journal := by
    show Session.mk _ _ _ _ s.journal = Session.mk _ _ _ _ (s.journal ++ [])
    rw [List.append_nil]
    rfl
  rw [run, hstart, executeAll_precededBy]
  rfl

end

/-- Whatever a session is used for, its last report is that of its table.  A run reports the empty
table and then the table after each instruction that recomputes a simplification, and it does in
every session what it does in a new one. -/
theorem reports_performAll :
    (∀ (passes : Nat) (actions : List Action), ((start passes).performAll actions).Current) ∧
    ∀ (s : Session) (is : List Instruction),
      let steps := s.reset.writeReport.trail is
      let fresh := (start s.passes).run is
      (s.run is).2.Current ∧
      (s.run is).2.reports = s.reports ++ SimplificationTable.empty.report ::
        (steps.filter fun p => p.1.recomputes p.2).map
          (fun p => (p.1.execute p.2).2.table.report) ∧
      (s.run is).1 = fresh.1 ∧
      (s.run is).2.reports = s.reports ++ fresh.2.reports ∧
      (s.run is).2.env = fresh.2.env ∧
      (s.run is).2.table = fresh.2.table := by
  constructor
  · intro passes actions
    have hstart : (start passes).Current := Or.inl ⟨rfl, rfl⟩
    exact hstart.performAll actions
  · intro s is steps fresh
    have hfresh : s.run is = (fresh.1, fresh.2.precededBy s.reports s.journal) :=
      s.run_eq_precededBy is
    refine ⟨s.current_run is, ?_, ?_⟩
    · rw [run, reports_executeAll]
      exact List.append_assoc s.reports _ _
    · rw [hfresh]
      exact ⟨rfl, rfl, rfl, rfl⟩

/-- The second operation of `X` is answered from the table and the third one fails, whatever the
session was used for before. -/
theorem reports_performAll_cached :
    let union : Expr := .operation (.binary .union) (.reference "A" .nowhere)
      (some (.reference "A" .nowhere)) .nowhere
    let program : List Instruction :=
      [.define "A" (.list [] .nowhere) .nowhere, .operate "X" union .nowhere,
        .operate "X" union .nowhere, .operate "X" (.reference "B" .nowhere) .nowhere,
        .operate "Y" union .nowhere]
    let s := (start 10).performAll [.run program, .extendUniversal [.char 'a'], .run []]
    s.reports.length = 4 ∧ s.Current ∧ (s.run program).2.reports.length = 7 ∧
      (s.run program).2.env = ((start 10).run program).2.env := by
  intro union program s
  have hs : s.reports.length = 4 := by decide +kernel
  have hpasses : s.passes = 10 := by decide +kernel
  obtain ⟨_, hreports, _, _, henv, _⟩ := reports_performAll.2 s program
  have hrecomputed : ((s.reset.writeReport.trail program).filter
      fun p => p.1.recomputes p.2).length = 2 := by decide +kernel
  rw [hpasses] at henv
  refine ⟨hs, reports_performAll.1 10 _, ?_, henv⟩
  rw [hreports, List.length_append, List.length_cons, List.length_map, hrecomputed, hs]

end Session
end SetLaws
