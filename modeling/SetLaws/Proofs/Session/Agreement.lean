import SetLaws.Proofs.Evaluation.Faults
import SetLaws.Proofs.Session.Invariant

/-!
# Defining and operating

A named set or an operation can be stored by defining a name, or by performing it under the name.
Both ways it is evaluated alike, and they differ only in what is recorded of it.  Nothing else can
be performed.  Whether an expression can be is told by its value, and its form tells the same.
-/

namespace SetLaws

namespace Session

/-- A definition and an operation under the same name end with the same set, or with the same
faults. -/
inductive EndAlike (name : String) : Verdict → Verdict → Prop where
  | stored (set : ElementSet) (new : Bool) (signature : Signature)
      (simplification : Option Simplification) :
      EndAlike name (.ok (.defined name set new))
        (.ok (.operated name set signature simplification))
  | failed {faults : List Diagnostic} (hne : faults ≠ []) :
      EndAlike name (.error faults) (.error faults)

theorem define_operate_of_isOperand (s : Session) (name : String) {e : Expr} (h : e.IsOperand) :
    EndAlike name (s.define name e).1 (s.operate name e).1 ∧
      (s.define name e).2 = { (s.operate name e).2 with
        table := s.table, reports := s.reports, journal := s.journal } := by
  unfold define operate
  cases hmissing : s.env.missingReferences [e] with
  | cons d ds => exact ⟨.failed (List.cons_ne_nil d ds), rfl⟩
  | nil =>
    dsimp only
    cases heval : e.evaluate.start s.env with
    | error d t => exact ⟨.failed (List.cons_ne_nil d []), rfl⟩
    | ok v t =>
      obtain ⟨set, own, rfl⟩ := (Expr.isOperand_iff_of_ok heval).mp h
      dsimp only [Value.toSet]
      cases t.trace.canonical with
      | none => exact ⟨.stored .., rfl⟩
      | some application =>
        -- The table does not touch the environment in which the set is stored.
        refine ⟨.stored .., ?_⟩
        dsimp only
        rw [simplify_env, passes_simplify]

/-- Stores what was performed, with its simplification if any operator was applied. -/
def storePerformed (s : Session) (name : String) (set : ElementSet) (signature : Signature)
    (trace : Trace) : Verdict × Session :=
  if trace.isEmpty then
    (.ok (.operated name set signature none), { s with env := (s.env.define name set).2 })
  else
    let (entry, s) := s.simplify name signature
    (.ok (.operated name set signature (some entry)), { s with env := (s.env.define name set).2 })

/-- Performs an expression by its form: an operation under the signature of its canonical record, a
named set under its name, and nothing else. -/
def operateByForm (s : Session) (name : String) (expr : Expr) : Verdict × Session :=
  match s.env.missingReferences [expr] with
  | d :: ds => (.error (d :: ds), s)
  | [] =>
    match expr, expr.evaluate.start s.env with
    | _, .error d state => (.error [d], { s with env := state.env })
    | .operation _ _ _ _, .ok (.set set own) state =>
      let signature := (state.trace.canonical.map Application.signature).getD own
      storePerformed { s with env := state.env } name set signature state.trace
    | .reference referenced _, .ok (.set set _) state =>
      storePerformed { s with env := state.env } name set (.set referenced) .empty
    | _, .ok value state =>
      (.error [.single expr.span (.expectedOperation value.kind)], { s with env := state.env })

theorem records_ne_nil {env : Environment} {op : Operator} {lhs : Expr} {rhs : Option Expr}
    {span : Span} {set : ElementSet} {own : Signature} {t : Evaluation.State}
    (h : (Expr.operation op lhs rhs span).evaluate.start env = .ok (.set set own) t) :
    t.trace.records ≠ [] := by
  obtain ⟨hyields, rfl⟩ := Expr.yields_of_evaluate _ h
  cases hyields <;> exact List.append_ne_nil_of_right_ne_nil _ (List.concat_ne_nil _ _)

/-- Whether an expression can be performed shows in its value as in its form. -/
theorem operate_eq_operateByForm (s : Session) (name : String) (e : Expr) :
    s.operate name e = s.operateByForm name e := by
  unfold operate operateByForm
  cases s.env.missingReferences [e] with
  | cons d ds => rfl
  | nil =>
    dsimp only
    cases heval : e.evaluate.start s.env with
    | error d t => cases e <;> rfl
    | ok v t =>
      cases v with
      | element | range | list => cases e <;> rfl
      | set set own =>
        have hoperand : e.IsOperand := (Expr.isOperand_iff_of_ok heval).mpr ⟨set, own, rfl⟩
        cases e with
        | primitive | range | list => exact absurd hoperand id
        | reference referenced span =>
          obtain ⟨hyields, rfl⟩ := Expr.yields_of_evaluate _ heval
          cases hyields
          rfl
        | operation op lhs rhs span =>
          have hrecords := records_ne_nil heval
          have hempty : t.trace.isEmpty = false := List.isEmpty_eq_false_iff.mpr hrecords
          obtain ⟨application, hcanonical⟩ :=
            Option.ne_none_iff_exists'.mp (mt t.trace.canonical_eq_none_iff.mp hrecords)
          dsimp only [storePerformed]
          rw [hempty, hcanonical]
          rfl

theorem operate_of_not_isOperand (s : Session) (name : String) {e : Expr} (h : ¬ e.IsOperand) :
    ∃ faults, faults ≠ [] ∧ (s.operate name e).1 = .error faults := by
  rw [operate_eq_operateByForm]
  unfold operateByForm
  cases s.env.missingReferences [e] with
  | cons d ds => exact ⟨d :: ds, List.cons_ne_nil d ds, rfl⟩
  | nil =>
    dsimp only
    cases e with
    | reference | operation => exact absurd trivial h
    | primitive | range | list =>
      -- What remains of the match is the fault of the evaluation and the refusal of its value.
      split
      case h_1 => exact ⟨_, List.cons_ne_nil _ [], rfl⟩
      case h_4 => exact ⟨_, List.cons_ne_nil _ [], rfl⟩
      all_goals contradiction

/-- A named set or an operation is stored alike by a definition and by an operation: they end with
the same set or the same faults, and leave the same session but for the table, the reports and the
journal, which a definition does not touch.  Performing anything else fails. -/
theorem define_operate_agree (s : Session) (name : String) (e : Expr) (span span' : Span) :
    let defined := s.execute (.define name e span)
    let operated := s.execute (.operate name e span')
    (e.IsOperand → EndAlike name defined.1 operated.1 ∧
      defined.2 =
        { operated.2 with table := s.table, reports := s.reports, journal := s.journal }) ∧
    (¬ e.IsOperand → ∃ faults, faults ≠ [] ∧ operated.1 = .error faults) :=
  ⟨define_operate_of_isOperand s name, operate_of_not_isOperand s name⟩

/-- The name under which the union is stored can be that of its operand, and a list cannot be
performed though it can be defined. -/
theorem define_operate_agree_sameName :
    let s := (start 10).store "A" (.ofList [.char 'a'])
    let a : Expr := .reference "A" .nowhere
    let union : Expr := .operation (.binary .union) a
      (some (.operation .complement a none .nowhere)) .nowhere
    let list : Expr := .list [union] .nowhere
    let stored := (s.execute (.define "A" union ⟨0, 7⟩)).2
    union.IsOperand ∧ ¬ list.IsOperand ∧
      stored = { (s.execute (.operate "A" union ⟨0, 9⟩)).2 with
        table := .empty, reports := [], journal := [] } ∧
      stored.env.sets.find? "A" = some printableAscii ∧ stored.env.operationCount = 2 ∧
      ∃ faults, (s.execute (.operate "A" list ⟨0, 9⟩)).1 = .error faults := by
  intro s a union list stored
  have hunion : union.IsOperand := trivial
  have hlist : ¬ list.IsOperand := id
  obtain ⟨-, hstored⟩ := (define_operate_agree s "A" union ⟨0, 7⟩ ⟨0, 9⟩).1 hunion
  obtain ⟨faults, -, hfaults⟩ := (define_operate_agree s "A" list ⟨0, 7⟩ ⟨0, 9⟩).2 hlist
  exact ⟨hunion, hlist, hstored, by decide +kernel, by decide +kernel, faults, hfaults⟩

end Session
end SetLaws
