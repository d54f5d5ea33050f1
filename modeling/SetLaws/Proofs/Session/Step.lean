import SetLaws.Session
import SetLaws.Proofs.Evaluation.Applied

/-!
# What an instruction does to a session

One relation says what executing an instruction can lead to.  What holds of sessions is
derived from its cases, not from the code of the instructions.
-/

namespace SetLaws

theorem Session.eq_nil_of_firstOfEachName_eq_nil {refs : List Reference}
    (h : firstOfEachName [] refs = []) : refs = [] := by
  cases refs with
  | nil => rfl
  | cons r rest =>
    rw [firstOfEachName, if_neg List.not_mem_nil] at h
    cases h

/-- No reference is missing only when every name has a set. -/
theorem Environment.contains_of_missingReferences_eq_nil {env : Environment} {exprs : List Expr}
    (h : env.missingReferences exprs = []) :
    ∀ r ∈ exprs.flatMap Expr.references, env.sets.contains r.name = true := by
  intro r hr
  have hmissing := Session.eq_nil_of_firstOfEachName_eq_nil (List.map_eq_nil_iff.mp h)
  have hr' := List.filter_eq_nil_iff.mp hmissing r hr
  cases hname : env.sets.contains r.name with
  | true => rfl
  | false => exact absurd (by rw [hname]; rfl) hr'

namespace Session

/-- The session after a number of further set operations. -/
def countedBy (s : Session) (n : Nat) : Session :=
  { s with env := s.env.countedBy n }

/-- The session after a set has been stored. -/
def store (s : Session) (name : String) (set : ElementSet) : Session :=
  { s with env := (s.env.define name set).2 }

/-- What executing an instruction leads to. -/
inductive Step (s : Session) : Instruction → Verdict → Session → Prop where
  /-- Operations may have been counted before the fault, but none when a name turned out to
  be undefined. -/
  | failed {i : Instruction} {faults : List Diagnostic} {n : Nat} (hne : faults ≠ [])
      (hn : (∃ d ∈ faults, d.fault.IsUndefined) → n = 0) :
      Step s i (.error faults) (s.countedBy n)
  | defined {name : String} {expr : Expr} {span : Span} {v : Value} {t : Trace} {n : Nat}
      (h : expr.evaluate.start s.env = .ok v ⟨s.env.countedBy n, t⟩) :
      Step s (.define name expr span) (.ok (.defined name v.toSet (!s.env.sets.contains name)))
        ((s.countedBy n).store name v.toSet)
  | referred {name : String} {expr : Expr} {span : Span} {set : ElementSet}
      {signature : Signature} (h : expr.Yields s.env set signature)
      (hnone : signature.applications = []) :
      Step s (.operate name expr span) (.ok (.operated name set signature none))
        (s.store name set)
  | operated {name : String} {expr : Expr} {span : Span} {set : ElementSet}
      {signature : Signature} {n : Nat} (h : expr.Yields s.env set signature)
      (hn : n = signature.applications.length) (hpos : 0 < n) :
      Step s (.operate name expr span)
        (.ok (.operated name set signature ((s.countedBy n).simplify name signature).1))
        (((s.countedBy n).simplify name signature).2.store name set)
  | evaluated {elements : List Expr} {operation : String} {span : Span} {target : ElementSet}
      {values : List Value} {n : Nat} (h : s.env.sets.find? operation = some target)
      (heach : evaluateEach s.env elements = ((values, []), s.env.countedBy n)) :
      Step s (.evaluate elements operation span)
        (.ok (.evaluated operation
          ((values.flatMap Value.elements).map fun e => ⟨e, target.contains e⟩)))
        (s.countedBy n)

variable {s s' : Session} {v : Verdict}

/-- A name without a set is found before anything is counted. -/
theorem step_of_missing (s : Session) (i : Instruction) (d : Diagnostic) (ds : List Diagnostic) :
    Step s i (.error (d :: ds)) s := by
  have h : Step s i (.error (d :: ds)) (s.countedBy 0) :=
    .failed (List.cons_ne_nil d ds) fun _ => rfl
  exact h

/-- One fault that is not about a name can be found after any number of operations. -/
theorem step_of_fault (i : Instruction) {d : Diagnostic} (n : Nat)
    (hd : ¬ d.fault.IsUndefined) : Step s i (.error [d]) (s.countedBy n) := by
  refine .failed (List.cons_ne_nil d []) ?_
  intro h
  obtain ⟨d', hd', hundefined⟩ := h
  obtain rfl := List.mem_singleton.mp hd'
  exact absurd hundefined hd

/-- Evaluation that ends in a fault ends the instruction. -/
theorem step_of_error {e : Expr} {i : Instruction} {d : Diagnostic} {t : Evaluation.State}
    (hmissing : s.env.missingReferences [e] = []) (h : e.evaluate.start s.env = .error d t) :
    Step s i (.error [d]) { s with env := t.env } := by
  have hall := Environment.contains_of_missingReferences_eq_nil hmissing
  rw [List.flatMap_singleton] at hall
  obtain ⟨n, trace, rfl⟩ := Expr.exists_countedBy_of_error h
  exact step_of_fault i n (Expr.not_isUndefined_of_error hall h)

theorem step_define {name : String} {expr : Expr} (span : Span)
    (h : s.define name expr = (v, s')) : Step s (.define name expr span) v s' := by
  unfold define at h
  split at h
  · cases h
    exact step_of_missing s _ _ _
  · next hmissing =>
    split at h
    · next heval =>
      cases h
      exact step_of_error hmissing heval
    · next value state heval =>
      obtain ⟨n, t, rfl⟩ := Expr.exists_countedBy_of_ok heval
      cases h
      exact .defined heval

theorem step_operate {name : String} {expr : Expr} (span : Span)
    (h : s.operate name expr = (v, s')) : Step s (.operate name expr span) v s' := by
  unfold operate at h
  split at h
  · cases h
    exact step_of_missing s _ _ _
  · next hmissing =>
    split at h
    · next heval =>
      cases h
      exact step_of_error hmissing heval
    · next set own state heval =>
      obtain ⟨hyields, hstate⟩ := Expr.yields_of_evaluate expr heval
      -- The signature of the canonical application is the one of the whole operation.
      have hcanonical := own.canonical_applications
      rw [hstate] at h
      by_cases hnone : own.applications = []
      · rw [hnone] at h
        cases h
        exact .referred hyields hnone
      · rw [if_neg hnone] at hcanonical
        obtain ⟨application, happlication, rfl⟩ := Option.map_eq_some_iff.mp hcanonical
        simp only [Trace.empty, List.nil_append, happlication] at h
        cases h
        exact .operated hyields rfl (List.length_pos_of_ne_nil hnone)
    · next value state hnot heval =>
      obtain ⟨n, t, rfl⟩ := Expr.exists_countedBy_of_ok heval
      cases h
      exact step_of_fault _ n id

section

variable {env : Environment} {e : Expr} {state : Evaluation.State} (es : List Expr)

theorem evaluateEach_cons_of_ok {v : Value} (h : e.evaluate.start env = .ok v state) :
    evaluateEach env (e :: es) =
      let rest := evaluateEach state.env es
      ((v :: rest.1.1, rest.1.2), rest.2) := by
  rw [evaluateEach, h]

theorem evaluateEach_cons_of_error {d : Diagnostic} (h : e.evaluate.start env = .error d state) :
    evaluateEach env (e :: es) =
      let rest := evaluateEach state.env es
      ((rest.1.1, d :: rest.1.2), rest.2) := by
  rw [evaluateEach, h]

end

/-- Every expression is evaluated, and what was counted before does not matter to it. -/
theorem evaluateEach_countedBy (env : Environment) (k : Nat) (es : List Expr) :
    evaluateEach (env.countedBy k) es =
      ((es.filterMap (Expr.value? env), es.filterMap (Expr.fault? env)),
        env.countedBy (k + (es.flatMap (Expr.applied env)).length)) := by
  induction es generalizing k with
  | nil => rfl
  | cons e es ih =>
    obtain ⟨⟨ending, n, records⟩, hr, hcount⟩ := e.counts_evaluate env
    have hlater : e.evaluate.start (env.countedBy k) = _ := hr k .empty
    have hnext := ih (k + n)
    rw [← Environment.countedBy_countedBy] at hnext
    rw [List.flatMap_cons, List.length_append, ← hcount, ← Nat.add_assoc]
    cases ending with
    | ok v =>
      have hvalue : e.value? env = some v := hr.result?_eq
      have hfault : e.fault? env = none := Evaluator.fault?_eq_none_iff.mpr ⟨v, hvalue⟩
      rw [List.filterMap_cons_some hvalue, List.filterMap_cons_none hfault,
        evaluateEach_cons_of_ok es hlater, Evaluation.Effect.next, hnext]
    | error d =>
      have hvalue : e.value? env = none := hr.result?_eq
      have hfault : e.fault? env = some d := hr.fault?_eq
      rw [List.filterMap_cons_none hvalue, List.filterMap_cons_some hfault,
        evaluateEach_cons_of_error es hlater, Evaluation.Effect.next, hnext]

/-- Evaluating one expression after the other only counts, and where all names are stored,
no expression misses one. -/
theorem countedBy_evaluateEach (exprs : List Expr) (env : Environment) :
    (∃ n, (evaluateEach env exprs).2 = env.countedBy n) ∧
    ((∀ r ∈ exprs.flatMap Expr.references, env.sets.contains r.name = true) →
      ∀ d ∈ (evaluateEach env exprs).1.2, ¬ d.fault.IsUndefined) := by
  have heach : evaluateEach env exprs = _ := evaluateEach_countedBy env 0 exprs
  rw [heach]
  refine ⟨⟨_, rfl⟩, fun hall d hd => ?_⟩
  obtain ⟨e, he, hfault⟩ := List.mem_filterMap.mp hd
  obtain ⟨t, herror⟩ := Evaluator.fault?_eq_some_iff.mp hfault
  exact Expr.not_isUndefined_of_error
    (fun r hr => hall r (List.mem_flatMap.mpr ⟨e, he, hr⟩)) herror

theorem step_evaluate {elements : List Expr} {operation : String} {span : Span}
    (h : s.evaluate elements operation span = (v, s')) :
    Step s (.evaluate elements operation span) v s' := by
  unfold evaluate at h
  split at h
  · cases h
    exact step_of_missing s _ _ _
  · next target htarget =>
    split at h
    · cases h
      exact step_of_missing s _ _ _
    · next hmissing =>
      have hall := Environment.contains_of_missingReferences_eq_nil hmissing
      obtain ⟨⟨n, hn⟩, hfaults⟩ := countedBy_evaluateEach elements s.env
      replace hfaults := hfaults hall
      split at h
      · next values d ds env heach =>
        rw [heach] at hfaults hn
        obtain rfl : env = s.env.countedBy n := hn
        cases h
        refine .failed (List.cons_ne_nil d ds) ?_
        intro h
        obtain ⟨d', hd', hundefined⟩ := h
        exact absurd hundefined (hfaults d' hd')
      · next values env heach =>
        rw [heach] at hn
        obtain rfl : env = s.env.countedBy n := hn
        cases h
        exact .evaluated htarget heach

/-- Every execution of an instruction is one of the steps. -/
theorem step_execute {i : Instruction} (h : s.execute i = (v, s')) : Step s i v s' := by
  cases i with
  | define name expr span => exact step_define span h
  | operate name expr span => exact step_operate span h
  | evaluate elements operation span => exact step_evaluate h

/-! ## Instructions that fail

A fault can be found late, after operations have been performed.  Their results are lost
then; only the number of operations tells of them. -/

/-- An instruction that fails leaves the session as it is, but for the operations counted
before the fault was found.  Undefined names are found before any is counted. -/
theorem execute_error {s s' : Session} {i : Instruction} {faults : List Diagnostic}
    (h : s.execute i = (.error faults, s')) :
    faults ≠ [] ∧
    s'.env.sets = s.env.sets ∧
    s'.env.totalSets = s.env.totalSets ∧
    s'.env.universal = s.env.universal ∧
    s'.table = s.table ∧
    s'.passes = s.passes ∧
    s'.reports = s.reports ∧
    s'.journal = s.journal ∧
    s.env.operationCount ≤ s'.env.operationCount ∧
    ((∃ d ∈ faults, d.fault.IsUndefined) → s'.env.operationCount = s.env.operationCount) := by
  cases step_execute h with
  | @failed _ _ n hne hn =>
    refine ⟨hne, rfl, rfl, rfl, rfl, rfl, rfl, rfl, Nat.le_add_right _ n, ?_⟩
    intro hundefined
    rw [hn hundefined]
    rfl

/-- The complement has been computed when the other operand of the union is missed. -/
theorem execute_error_missingOperand :
    ∃ s', ((start 10).store "A" .empty).execute
        (.operate "X" (.operation (.binary .union)
          (.operation .complement (.reference "A" .nowhere) none .nowhere) none .nowhere)
          .nowhere) =
          (.error [.single .nowhere (.missingOperand (.binary .union))], s') ∧
      s'.env.sets = ((start 10).store "A" .empty).env.sets ∧
      s'.reports = [] := by
  have hverdict : (((start 10).store "A" .empty).execute
      (.operate "X" (.operation (.binary .union)
        (.operation .complement (.reference "A" .nowhere) none .nowhere) none .nowhere)
        .nowhere)).1 =
      .error [.single .nowhere (.missingOperand (.binary .union))] := by decide +kernel
  have h := execute_error (Prod.ext hverdict rfl)
  exact ⟨_, Prod.ext hverdict rfl, h.2.1, h.2.2.2.2.2.2.1⟩

end Session
end SetLaws
