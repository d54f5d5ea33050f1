import SetLaws.Proofs.Expr.Prune
import SetLaws.Proofs.Session.Undefined

/-!
# Instructions without unused operands

The right operand of a complement has no part in what an instruction does, but for the names in
it: these have to be stored like all others.
-/

namespace SetLaws

/-- The second instruction is the first without the right operands of some complements, all of
which satisfy a condition. -/
inductive Instruction.Prunes (p : Expr → Prop) : Instruction → Instruction → Prop where
  | define (name : String) {e e' : Expr} (span : Span) (h : e.Prunes p e') :
      Prunes p (.define name e span) (.define name e' span)
  | operate (name : String) {e e' : Expr} (span : Span) (h : e.Prunes p e') :
      Prunes p (.operate name e span) (.operate name e' span)
  | evaluate {elements elements' : List Expr} (operation : String) (span : Span)
      (h : Expr.PrunesAll p elements elements') :
      Prunes p (.evaluate elements operation span) (.evaluate elements' operation span)

namespace Instruction.Prunes

variable {p : Expr → Prop} {i j : Instruction}

theorem prunesAll (h : i.Prunes p j) : Expr.PrunesAll p i.exprs j.exprs := by
  cases h with
  | define _ _ h | operate _ _ h => exact .cons h .nil
  | evaluate _ _ h => exact h

/-- The same names are missed, unless one is missed in an operand that has been pruned. -/
theorem missingReferences_eq {env : Environment} (h : i.Prunes p j)
    (hp : ∀ rhs, p rhs → ∀ r ∈ rhs.references, env.sets.contains r.name = true) :
    env.missingReferences i.exprs = env.missingReferences j.exprs := by
  have hfilter := h.prunesAll.filter_references (q := fun r => !env.sets.contains r.name)
    fun rhs hrhs r hr => by rw [hp rhs hrhs r hr, Bool.not_true]
  rw [Environment.missingReferences, Environment.missingReferences, hfilter]

end Instruction.Prunes

namespace Session

variable {p : Expr → Prop} {s : Session} {i j : Instruction}

theorem evaluateEach_eq {elements elements' : List Expr}
    (h : Expr.PrunesAll p elements elements') (env : Environment) :
    evaluateEach env elements = evaluateEach env elements' := by
  induction elements generalizing elements' env with
  | nil =>
    cases h
    rfl
  | cons e es ih =>
    cases h with
    | @cons _ e' _ es' h hs =>
      have hrest : ∀ env, evaluateEach env es = evaluateEach env es' := fun env => ih hs env
      rw [evaluateEach, evaluateEach, h.evaluate_eq]
      simp only [hrest]

/-- Only through the names that it misses can an instruction depend on unused operands. -/
theorem execute_eq_of_missingReferences_eq (h : i.Prunes p j)
    (hmissing : s.env.missingReferences i.exprs = s.env.missingReferences j.exprs) :
    s.execute i = s.execute j := by
  cases h with
  | define name span h =>
    rw [Instruction.exprs, Instruction.exprs] at hmissing
    show s.define name _ = s.define name _
    rw [define, define, hmissing, h.evaluate_eq]
  | operate name span h =>
    rw [Instruction.exprs, Instruction.exprs] at hmissing
    show s.operate name _ = s.operate name _
    rw [operate, operate, hmissing, h.evaluate_eq, h.span_eq]
  | evaluate operation span h =>
    rw [Instruction.exprs, Instruction.exprs] at hmissing
    show s.evaluate _ operation span = s.evaluate _ operation span
    rw [evaluate, evaluate, hmissing, evaluateEach_eq h]

/-- Without a stored operation there is nothing to test elements against, whichever they are. -/
theorem execute_eq_of_not_hasTarget (h : i.Prunes p j) (htarget : ¬ s.HasTarget i) :
    s.execute i = s.execute j := by
  cases h with
  | define | operate => exact absurd trivial htarget
  | evaluate operation span _ =>
    have hnone : s.env.sets.find? operation = none := Option.not_isSome_iff_eq_none.mp htarget
    show s.evaluate _ operation span = s.evaluate _ operation span
    rw [evaluate, evaluate, hnone]

/-- Pruned of operands in which no name is missed, an instruction does what it did before.  Pruned
of any others it does so as well, unless it reported undefined names before and nothing else. -/
theorem execute_prunes (s : Session) (i j : Instruction) :
    (i.Prunes (fun rhs => ∀ r ∈ rhs.references, s.env.sets.contains r.name = true) j →
      s.execute i = s.execute j) ∧
    (i.Prunes (fun _ => True) j → s.execute i = s.execute j ∨
      ∃ faults, faults ≠ [] ∧ s.execute i = (.error faults, s) ∧
        ∀ d ∈ faults, ∃ name suggestions, d.fault = .undefinedSet name suggestions) := by
  constructor
  · intro h
    exact execute_eq_of_missingReferences_eq h (h.missingReferences_eq fun _ hrhs => hrhs)
  · intro h
    by_cases hmissing : s.env.missingReferences i.exprs = []
    · -- What is left of the references is stored like the rest.
      have hall := missingReferences_eq_nil_iff.mp hmissing
      have hleft : s.env.missingReferences j.exprs = [] :=
        missingReferences_eq_nil_iff.mpr fun r hr =>
          hall r (h.prunesAll.references_sublist.subset hr)
      exact Or.inl (execute_eq_of_missingReferences_eq h (hmissing.trans hleft.symm))
    · by_cases htarget : s.HasTarget i
      · refine Or.inr ⟨_, hmissing, execute_of_missingReferences_ne_nil htarget hmissing, ?_⟩
        intro d hd
        obtain ⟨r, _, rfl⟩ := List.mem_map.mp hd
        exact ⟨_, _, rfl⟩
      · exact Or.inl (execute_eq_of_not_hasTarget h htarget)

/-- One unused operand stands in another, and both name sets that are stored. -/
theorem execute_prunes_nested :
    let s := (start 10).store "A" .empty
    let unused : Expr := .operation .complement (.reference "A" .nowhere)
      (some (.list [.reference "A" .nowhere] .nowhere)) .nowhere
    let long : Expr := .operation .complement (.reference "A" .nowhere) (some unused) .nowhere
    let short : Expr := .operation .complement (.reference "A" .nowhere) none .nowhere
    (∀ r ∈ unused.references, s.env.sets.contains r.name = true) ∧
      s.execute (.define "B" (.list [long] .nowhere) .nowhere) =
        s.execute (.define "B" (.list [short] .nowhere) .nowhere) := by
  intro s unused long short
  have hunused : ∀ r ∈ unused.references, s.env.sets.contains r.name = true := by decide +kernel
  have hprunes : long.Prunes (fun rhs => ∀ r ∈ rhs.references, s.env.sets.contains r.name = true)
      short := .pruned .nowhere hunused (.reference "A" .nowhere)
  exact ⟨hunused, (execute_prunes s _ _).1
    (.define "B" .nowhere (.list .nowhere (.cons hprunes .nil)))⟩

/-- A name that is missed in an unused operand makes an operation fail that succeeds without the
operand. -/
theorem not_forall_execute_prunes :
    ¬ ∀ (s : Session) (i j : Instruction), i.Prunes (fun _ => True) j →
      s.execute i = s.execute j := by
  intro h
  let s := (start 10).store "A" (.ofList [.char 'a'])
  let meet (rhs : Option Expr) : Expr := .operation (.binary .intersection)
    (.reference "A" .nowhere)
    (some (.operation .complement (.reference "A" .nowhere) rhs .nowhere)) .nowhere
  have hprunes : (meet (some (.reference "M" .nowhere))).Prunes (fun _ => True) (meet none) :=
    .both _ .nowhere (.reference "A" .nowhere) (.pruned .nowhere trivial (.reference "A" .nowhere))
  have heq := h s _ _ (.operate "X" .nowhere hprunes)
  have hlong : (s.execute (.operate "X" (meet (some (.reference "M" .nowhere))) .nowhere)).1 =
      .error [.single .nowhere (.undefinedSet "M" ["A"])] := by decide +kernel
  let signature : Signature := .binary .intersection (.set "A") (.complement (.set "A"))
  have hshort : (s.execute (.operate "X" (meet none) .nowhere)).1 =
      .ok (.operated "X" .empty signature (some ⟨signature, .empty, [.emptyComplement]⟩)) := by
    decide +kernel
  rw [heq, hshort] at hlong
  cases hlong

end Session
end SetLaws
