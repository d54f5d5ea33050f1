import SetLaws.Proofs.Evaluation.Union
import SetLaws.Proofs.Session.Agreement
import SetLaws.Proofs.Session.Undefined

/-!
# Defining a list

A name that is defined as a list gets the union of its members.  So it is the same set in
whatever order and lists they stand, and the same as that of an operation that unites them.
-/

namespace SetLaws
namespace Session

/-- The instruction succeeds, and the set stands under the name afterwards. -/
def Stores (s : Session) (i : Instruction) (name : String) (set : ElementSet) : Prop :=
  (∃ outcome, (s.execute i).1 = .ok outcome) ∧ (s.execute i).2.env.sets.find? name = some set

section

variable {s : Session} {name : String} {e : Expr} {v : Value}

/-- What has a value can be defined, and its set is stored in normal form. -/
theorem stores_define (place : Span)
    (hstored : ∀ r ∈ e.references, s.env.sets.contains r.name = true)
    (hv : e.value? s.env = some v) :
    s.Stores (.define name e place) name v.toSet.normalized := by
  obtain ⟨t, hok⟩ := Evaluator.result?_eq_some_iff.mp hv
  have hmissing : s.env.missingReferences [e] = [] :=
    missingReferences_eq_nil_iff.mpr (by rwa [List.flatMap_singleton])
  have hdefine : s.define name e = (.ok (.defined name v.toSet (t.env.define name v.toSet).1),
      { s with env := (t.env.define name v.toSet).2 }) := by
    rw [define, hmissing, hok]
  show (∃ outcome, (s.define name e).1 = .ok outcome) ∧
    (s.define name e).2.env.sets.find? name = _
  rw [hdefine]
  refine ⟨⟨_, rfl⟩, ?_⟩
  show (t.env.sets.insert name v.toSet.normalized).find? name = _
  rw [NamedSets.find?_insert, if_pos rfl]

/-- An operation is performed with the same set as it is defined. -/
theorem stores_operate {set : ElementSet} {place : Span} (he : e.IsOperand)
    (h : s.Stores (.define name e place) name set) :
    s.Stores (.operate name e place) name set := by
  obtain ⟨halike, hstate⟩ := define_operate_of_isOperand s name he
  obtain ⟨⟨outcome, houtcome⟩, hfound⟩ := h
  replace houtcome : (s.define name e).1 = .ok outcome := houtcome
  replace hfound : (s.define name e).2.env.sets.find? name = some set := hfound
  rw [houtcome] at halike
  rw [hstate] at hfound
  refine ⟨?_, hfound⟩
  show ∃ outcome, (s.operate name e).1 = .ok outcome
  generalize (s.operate name e).1 = verdict at halike
  cases halike
  exact ⟨_, rfl⟩

end

section

variable {s : Session} {name : String} {members : List Expr}

/-- What names the same sets as the members and has the elements of theirs stores their union. -/
theorem stores_unionOf {e : Expr} {v : Value} (h : s.env.Evaluates members)
    (hreferences : e.references = members.flatMap Expr.references)
    (hv : e.value? s.env = some v) (hsupplies : ∀ x, v.toSet.Has x ↔ s.env.Supplies members x)
    (place : Span) :
    s.Stores (.define name e place) name (s.env.unionOf members).normalized := by
  have hset : v.toSet.normalized = (s.env.unionOf members).normalized :=
    ElementSet.normalized_congr fun x => (hsupplies x).trans Environment.has_unionOf.symm
  rw [← hset]
  refine stores_define place ?_ hv
  rw [hreferences]
  exact h.stored

theorem stores_list (h : s.env.Evaluates members) (span place : Span) :
    s.Stores (.define name (.list members span) place) name
      (s.env.unionOf members).normalized := by
  obtain ⟨v, hv, hsupplies⟩ := Expr.exists_value_list h span
  exact stores_unionOf h (Expr.references_list members span) hv hsupplies place

theorem stores_unites {e : Expr} (he : e.Unites members) (h : s.env.Evaluates members)
    (place : Span) :
    s.Stores (.define name e place) name (s.env.unionOf members).normalized := by
  obtain ⟨set, signature, hyields, hsupplies⟩ := he.exists_yields h.value
  exact stores_unionOf h he.references_eq (Expr.value?_of_yields hyields) hsupplies place

/-- Only what stands in the lists matters. -/
theorem stores_list_congr {members' : List Expr}
    (hsame : ∀ e, e ∈ Expr.flattened members' ↔ e ∈ Expr.flattened members)
    (h : s.env.Evaluates members) (span place : Span) :
    s.Stores (.define name (.list members' span) place) name
      (s.env.unionOf members).normalized := by
  have hflattened := (Expr.evaluates_flattened_iff.mpr h).mono fun e => (hsame e).mp
  have h' : s.env.Evaluates members' := Expr.evaluates_flattened_iff.mp hflattened
  have hunion : (s.env.unionOf members').normalized = (s.env.unionOf members).normalized := by
    refine ElementSet.normalized_congr fun x => ?_
    rw [Environment.has_unionOf, Environment.has_unionOf, ← Expr.supplies_flattened_iff h',
      ← Expr.supplies_flattened_iff h]
    exact Environment.supplies_congr hsame
  rw [← hunion]
  exact stores_list h' span place

end

theorem define_list_congr (s : Session) (name : String) {members members' : List Expr}
    (span span' : Span) (h : Expr.flattened members' = Expr.flattened members) :
    s.define name (.list members' span') = s.define name (.list members span) := by
  have hmissing : s.env.missingReferences [.list members' span'] =
      s.env.missingReferences [.list members span] := by
    rw [Environment.missingReferences, Environment.missingReferences, List.flatMap_singleton,
      List.flatMap_singleton, Expr.references_list, Expr.references_list,
      ← Expr.references_flattened members', h, Expr.references_flattened]
  rw [define, define, hmissing, Expr.evaluate_list_congr span span' h]

/-- A list of expressions that have values is stored as their union.  The set is the same for
every list in which the same expressions stand, in any order, repeated or within further lists,
and for every operation that unites them.  A list evaluates, with success or not, just as every
list from which it comes by putting the members of inner lists in their place. -/
theorem define_list_stores_union (s : Session) (name : String) (members : List Expr)
    (span place : Span) :
    (s.env.Evaluates members →
      let stored := (s.env.unionOf members).normalized
      s.Stores (.define name (.list members span) place) name stored ∧
      (s.env.IsNormal → stored = s.env.unionOf members) ∧
      (∀ members' span', (∀ e, e ∈ Expr.flattened members' ↔ e ∈ Expr.flattened members) →
        s.Stores (.define name (.list members' span') place) name stored) ∧
      ∀ e : Expr, e.Unites members →
        s.Stores (.define name e place) name stored ∧
        s.Stores (.operate name e place) name stored) ∧
    ∀ members' span', Expr.flattened members' = Expr.flattened members →
      (Expr.list members' span').evaluate = (Expr.list members span).evaluate ∧
      s.execute (.define name (.list members' span') place) =
        s.execute (.define name (.list members span) place) := by
  refine ⟨fun h => ⟨stores_list h span place, ?_, ?_, ?_⟩, ?_⟩
  · intro henv
    exact (henv.unionOf members).normalized_eq
  · intro members' span' hsame
    exact stores_list_congr hsame h span' place
  · intro e he
    have hdefine : s.Stores (.define name e place) name _ := stores_unites he h place
    exact ⟨hdefine, stores_operate he.isOperand hdefine⟩
  · intro members' span' hflattened
    exact ⟨Expr.evaluate_list_congr span span' hflattened,
      define_list_congr s name span span' hflattened⟩

/-- The name is one of those in the list.  Out of order and without the inner lists the members
come to the same set, and a range that is out of order is found behind the same operation. -/
theorem define_list_stores_union_mixed :
    let s := ((start 10).store "A" (.ofList [.char 'a', .char 'b'])).store "B" (.ofList [.int 70])
    let a : Expr := .reference "A" .nowhere
    let b : Expr := .reference "B" .nowhere
    let range : Expr := .range (.letter 'p') (.letter 'q') .nowhere
    let reversed : Expr := .range (.letter 'q') (.letter 'p') .nowhere
    let unite (lhs rhs : Expr) : Expr := .operation (.binary .union) lhs (some rhs) .nowhere
    let nested : List Expr := [.letter 'x', .list [a, .list [range, unite a b] .nowhere] .nowhere]
    let moved : List Expr := [unite a b, range, .letter 'x', .list [a, a] .nowhere]
    let failing : List Expr := [.list [unite a b, .list [reversed] .nowhere] .nowhere, unite a b]
    let set : ElementSet :=
      .ofList [.int 70, .char 'a', .char 'b', .char 'p', .char 'q', .char 'x']
    s.env.unionOf nested = set ∧
    s.Stores (.define "A" (.list nested .nowhere) .nowhere) "A" set ∧
    s.Stores (.define "A" (.list moved .nowhere) .nowhere) "A" set ∧
    s.Stores (.operate "A" (unite a (unite b a)) .nowhere) "A"
      (.ofList [.int 70, .char 'a', .char 'b']) ∧
    s.execute (.define "A" (.list failing .nowhere) .nowhere) =
      s.execute (.define "A" (.list [unite a b, reversed, unite a b] .nowhere) .nowhere) ∧
    (s.execute (.define "A" (.list failing .nowhere) .nowhere)).2.env.operationCount = 1 := by
  intro s a b range reversed unite nested moved failing set
  have hevaluates : ∀ es : List Expr,
      (∀ r ∈ es.flatMap Expr.references, s.env.sets.contains r.name = true) →
      (∀ e ∈ es, (e.value? s.env).isSome = true) → s.env.Evaluates es :=
    fun es hstored hvalue => ⟨hstored, fun e he => Option.isSome_iff_exists.mp (hvalue e he)⟩
  have hnormal : s.env.IsNormal := (Environment.isNormal_initial.define "A" _).define "B" _
  have hsame : ∀ e, e ∈ Expr.flattened moved ↔ e ∈ Expr.flattened nested := by
    intro e
    show e ∈ [unite a b, range, .letter 'x', a, a] ↔ e ∈ [.letter 'x', a, range, unite a b]
    simp only [List.mem_cons, List.not_mem_nil]
    tauto
  obtain ⟨hmixed, -⟩ := define_list_stores_union s "A" nested .nowhere .nowhere
  obtain ⟨hdefine, heq, hcongr, -⟩ :=
    hmixed (hevaluates nested (by decide +kernel) (by decide +kernel))
  obtain ⟨hreferences, -⟩ := define_list_stores_union s "A" [a, b, a] .nowhere .nowhere
  obtain ⟨-, -, -, hunites⟩ :=
    hreferences (hevaluates _ (by decide +kernel) (by decide +kernel))
  obtain ⟨-, hinlined⟩ := define_list_stores_union s "A"
    [unite a b, reversed, unite a b] .nowhere .nowhere
  have hset : s.env.unionOf nested = set := by decide +kernel
  have hchain : (s.env.unionOf [a, b, a]).normalized = .ofList [.int 70, .char 'a', .char 'b'] := by
    decide +kernel
  rw [heq hnormal, hset] at hdefine hcongr
  rw [hchain] at hunites
  refine ⟨hset, hdefine, hcongr moved .nowhere hsame, ?_, (hinlined failing .nowhere rfl).2,
    by decide +kernel⟩
  have ha : a.Unites [a] := .operand trivial
  have hb : b.Unites [b] := .operand trivial
  exact (hunites _ (.union _ ha (.union _ hb ha))).2

end Session
end SetLaws
