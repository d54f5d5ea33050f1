import SetLaws.Proofs.Evaluation.Meaning
import SetLaws.Proofs.Session.Reachable

/-!
# What a session reports of an operation

The set and the signature of an outcome belong together, whatever name the set is stored
under and whatever was stored there before.
-/

namespace SetLaws
namespace Session

/-- A successful operation stores the set that it reports. -/
theorem Step.find?_eq_some {s s' : Session} {name : String} {expr : Expr} {span : Span}
    {outcome : Outcome} (henv : s.env.IsNormal)
    (h : Step s (.operate name expr span) (.ok outcome) s') :
    ∃ set signature simplification,
      outcome = .operated name set signature simplification ∧
      s.env.Captures expr set signature ∧
      s'.env.sets.find? name = some set := by
  cases h with
  | @referred _ _ _ set signature hyields _ =>
    refine ⟨set, signature, none, rfl, hyields.captures henv, ?_⟩
    show (s.env.sets.insert name set.normalized).find? name = _
    rw [NamedSets.find?_insert, if_pos rfl, (hyields.isNormal henv).normalized_eq]
  | @operated _ _ _ set signature n hyields _ _ =>
    refine ⟨set, signature, _, rfl, hyields.captures henv, ?_⟩
    show (NamedSets.insert _ name set.normalized).find? name = _
    rw [NamedSets.find?_insert, if_pos rfl, (hyields.isNormal henv).normalized_eq]

/-- The signature of an operation that is evaluated captures its set; and so does the
signature that a session reports, among the sets named before the operation. -/
theorem captures_of_operation :
    (∀ {env : Environment} {trace : Trace} {op : Operator} {lhs : Expr} {rhs : Option Expr}
      {span : Span} {v : Value} {t : Evaluation.State}, env.Reachable →
      (Expr.operation op lhs rhs span).evaluate ⟨env, trace⟩ = .ok v t →
      ∃ set signature,
        v = .set set signature ∧
        env.Captures (.operation op lhs rhs span) set signature) ∧
    ∀ {s s' : Session} {name : String} {expr : Expr} {span : Span} {outcome : Outcome},
      s.Reachable →
      s.execute (.operate name expr span) = (.ok outcome, s') →
      ∃ set signature simplification,
        outcome = .operated name set signature simplification ∧
        s.env.Captures expr set signature ∧
        s'.env.sets.find? name = some set := by
  constructor
  · intro env trace op lhs rhs span v t henv h
    obtain ⟨set, signature, rfl⟩ := Expr.exists_set_of_evaluate_operation h
    obtain ⟨hyields, _⟩ := Expr.yields_of_evaluate _ h
    exact ⟨set, signature, rfl, hyields.captures henv.isNormal⟩
  · intro s s' name expr span outcome hs h
    exact (step_execute h).find?_eq_some hs.env.isNormal

/-- The name under which a difference is stored can be that of its operands. -/
theorem captures_of_operation_sameName :
    ((start 10).store "A" (.ofList [.char 'a'])).env.Captures
      (.operation (.binary .difference) (.reference "A" .nowhere)
        (some (.reference "A" .nowhere)) .nowhere)
      .empty (.binary .difference (.set "A") (.set "A")) ∧
    (((start 10).store "A" (.ofList [.char 'a'])).execute
      (.operate "A" (.operation (.binary .difference) (.reference "A" .nowhere)
        (some (.reference "A" .nowhere)) .nowhere) .nowhere)).2.env.sets.find? "A" =
      some .empty := by
  have henv : ((start 10).store "A" (.ofList [.char 'a'])).env.Reachable :=
    Environment.Reachable.initial.define "A" _
  constructor
  · have heval : (Expr.operation (.binary .difference) (.reference "A" .nowhere)
        (some (.reference "A" .nowhere)) .nowhere).evaluate
          ⟨((start 10).store "A" (.ofList [.char 'a'])).env, .empty⟩ =
        .ok (.set .empty (.binary .difference (.set "A") (.set "A"))) _ := rfl
    obtain ⟨set, signature, hvalue, hcaptures⟩ := captures_of_operation.1 henv heval
    cases hvalue
    exact hcaptures
  · have hverdict : (((start 10).store "A" (.ofList [.char 'a'])).execute
        (.operate "A" (.operation (.binary .difference) (.reference "A" .nowhere)
          (some (.reference "A" .nowhere)) .nowhere) .nowhere)).1 =
        .ok (.operated "A" .empty (.binary .difference (.set "A") (.set "A"))
          (some ⟨.binary .difference (.set "A") (.set "A"), .empty, [.selfDifference]⟩)) := by
      decide +kernel
    obtain ⟨set, signature, simplification, houtcome, _, hfound⟩ :=
      captures_of_operation.2 ((Reachable.start 10).withEnv henv) (Prod.ext hverdict rfl)
    cases houtcome
    exact hfound

end Session
end SetLaws
