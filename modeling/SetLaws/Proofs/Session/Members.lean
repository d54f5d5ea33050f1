import SetLaws.Proofs.ElementSet.Same
import SetLaws.Proofs.Evaluation.Elements
import SetLaws.Proofs.Session.Undefined

/-!
# Testing members

Expressions are evaluated one after the other, each as if it were the first.  Only if all of them
have values there is an answer, for every element that they list.
-/

namespace SetLaws

/-- The answers tell, of each element in the order of the list, whether the set has it. -/
structure Session.Answers (target : ElementSet) (tested : List Element)
    (memberships : List Membership) : Prop where
  elements_eq : memberships.map Membership.element = tested
  member_iff (m : Membership) (hm : m ∈ memberships) : m.member = true ↔ target.Has m.element

namespace Expr

/-- Expressions without a fault list elements. -/
theorem exists_lists_of_fault?_eq_none {env : Environment} {es : List Expr}
    (h : ∀ e ∈ es, e.fault? env = none) :
    List.Forall₂ (Lists env) es ((es.filterMap (value? env)).map Value.elements) := by
  induction es with
  | nil => exact .nil
  | cons e es ih =>
    rw [List.forall_mem_cons] at h
    obtain ⟨v, hv⟩ : ∃ v, e.value? env = some v := Evaluator.fault?_eq_none_iff.mp h.1
    rw [List.filterMap_cons_some hv, List.map_cons]
    exact .cons (lists_elements e hv) (ih h.2)

end Expr

namespace Session

section

variable {s : Session} {elements : List Expr} {operation : String} {target : ElementSet}

theorem answers_map (tested : List Element) :
    Answers target tested (tested.map fun e => ⟨e, target.contains e⟩) where
  elements_eq := by
    rw [List.map_map]
    exact List.map_id tested
  member_iff m hm := by
    obtain ⟨e, -, rfl⟩ := List.mem_map.mp hm
    exact ElementSet.contains_iff_has

theorem evaluate_eq (span : Span) (htarget : s.env.sets.find? operation = some target)
    (hall : ∀ r ∈ elements.flatMap Expr.references, s.env.sets.contains r.name = true) :
    s.evaluate elements operation span =
      (match elements.filterMap (Expr.fault? s.env) with
        | [] =>
          let tested := (elements.filterMap (Expr.value? s.env)).flatMap Value.elements
          .ok (.evaluated operation (tested.map fun e => ⟨e, target.contains e⟩))
        | d :: ds => .error (d :: ds),
      s.countedBy (elements.flatMap (Expr.applied s.env)).length) := by
  have heach : evaluateEach s.env elements = _ := evaluateEach_countedBy s.env 0 elements
  rw [evaluate, htarget]
  dsimp only
  rw [missingReferences_eq_nil_iff.mpr hall]
  dsimp only
  rw [heach, Nat.zero_add]
  cases elements.filterMap (Expr.fault? s.env) <;> rfl

end

/-- An instruction that tests elements evaluates all of its expressions.  It reports the fault of
each one that does not list elements, or else answers for every element that they list.  Counted
are the operations that are applied, and nothing else changes. -/
theorem execute_evaluate (s : Session) (elements : List Expr) {operation : String} (span : Span)
    {target : ElementSet} (htarget : s.env.sets.find? operation = some target)
    (hall : ∀ r ∈ elements.flatMap Expr.references, s.env.sets.contains r.name = true) :
    let faults := elements.filterMap (Expr.fault? s.env)
    let result := s.execute (.evaluate elements operation span)
    result.2 = s.countedBy (elements.flatMap (Expr.applied s.env)).length ∧
    (∀ e ∈ elements, e.fault? s.env = none ↔ ∃ xs, e.Lists s.env xs) ∧
    (faults ≠ [] → result.1 = .error faults) ∧
    (faults = [] →
      elements.flatMap (Expr.applied s.env) = elements.flatMap Expr.operations ∧
      ∃ parts memberships, List.Forall₂ (Expr.Lists s.env) elements parts ∧
        Answers target parts.flatten memberships ∧
        result.1 = .ok (.evaluated operation memberships)) := by
  intro faults result
  have hresult : result = _ := evaluate_eq span htarget hall
  have hverdict : result.1 = _ := congrArg Prod.fst hresult
  refine ⟨congrArg Prod.snd hresult, fun e _ => Expr.fault?_eq_none_iff_lists, fun hne => ?_,
    fun hnil => ?_⟩
  · obtain ⟨d, ds, hfaults⟩ := List.exists_cons_of_ne_nil hne
    rw [hfaults, hverdict]
    dsimp only [faults] at hfaults
    rw [hfaults]
  · have hnone : ∀ e ∈ elements, e.fault? s.env = none := List.filterMap_eq_nil_iff.mp hnil
    dsimp only [faults] at hnil
    rw [hnil] at hverdict
    refine ⟨?_, _, _, Expr.exists_lists_of_fault?_eq_none hnone, ?_, hverdict⟩
    · refine List.flatMap_congr fun e he => ?_
      obtain ⟨v, hv⟩ := Evaluator.fault?_eq_none_iff.mp (hnone e he)
      exact e.applied_eq_operations (Option.isSome_of_eq_some hv)
    · rw [List.flatMap_def]
      exact answers_map _

/-- The list is flattened with what it repeats.  With an operand that is no set in front of it, and
a range out of order behind, each of these is reported, and the operations before them are counted,
but not the one behind the range. -/
theorem execute_evaluate_mixed :
    let s := ((start 10).store "A" (.ofList [.char 'a', .char 'b'])).store "B" (.ofList [.char 'b'])
    let a : Expr := .reference "A" .nowhere
    let b : Expr := .reference "B" .nowhere
    let meet : Expr := .operation (.binary .intersection) a (some b) .nowhere
    let single : Expr := .operation (.binary .union) meet (some (.letter 'x')) .nowhere
    let reversed : Expr := .range (.letter 'z') (.letter 'y') .nowhere
    let answered : List Expr :=
      [.letter 'c', .list [b, .list [a, .operation (.binary .union) b (some meet) .nowhere] .nowhere,
        .letter 'b'] .nowhere]
    let mixed := single :: answered ++ [.list [meet, reversed, meet] .nowhere]
    (∃ memberships, (s.execute (.evaluate answered "A" .nowhere)).1 =
        .ok (.evaluated "A" memberships) ∧
      memberships.map Membership.element =
        [.char 'c', .char 'b', .char 'a', .char 'b', .char 'b', .char 'b'] ∧
      memberships.map Membership.member = [false, true, true, true, true, true]) ∧
    (s.execute (.evaluate answered "A" .nowhere)).2 = s.countedBy 2 ∧
    s.execute (.evaluate mixed "A" .nowhere) =
      (.error [.single .nowhere (.typeMismatch (.binary .union) .element .right),
        ⟨[.nowhere, .nowhere], .invalidRange (.reversed 122 121)⟩], s.countedBy 4) := by
  intro s a b meet single reversed answered mixed
  have htarget : s.env.sets.find? "A" = some (.ofList [.char 'a', .char 'b']) := by decide +kernel
  have hanswered : ∀ r ∈ answered.flatMap Expr.references, s.env.sets.contains r.name = true := by
    decide +kernel
  have hmixed : ∀ r ∈ mixed.flatMap Expr.references, s.env.sets.contains r.name = true := by
    decide +kernel
  obtain ⟨hcount, -, -, hok⟩ := execute_evaluate s answered .nowhere htarget hanswered
  obtain ⟨-, parts, memberships, -, -, hverdict⟩ := hok (by decide +kernel)
  have hcomputed : (s.execute (.evaluate answered "A" .nowhere)).1 = .ok (.evaluated "A"
      [⟨.char 'c', false⟩, ⟨.char 'b', true⟩, ⟨.char 'a', true⟩, ⟨.char 'b', true⟩,
        ⟨.char 'b', true⟩, ⟨.char 'b', true⟩]) := by decide +kernel
  obtain ⟨hcount', -, herror, -⟩ := execute_evaluate s mixed .nowhere htarget hmixed
  refine ⟨⟨memberships, hverdict, ?_⟩, hcount, Prod.ext ?_ hcount'⟩
  · cases hcomputed.symm.trans hverdict
    exact ⟨rfl, rfl⟩
  · exact (herror (by decide +kernel)).trans (by decide +kernel)

end Session
end SetLaws
