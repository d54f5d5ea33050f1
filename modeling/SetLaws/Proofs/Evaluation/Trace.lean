import SetLaws.Proofs.Evaluation.Canonical
import SetLaws.Proofs.Evaluation.Meaning

/-!
# What a trace holds

Evaluating an operation records every operation in it, in the order in which they are
applied, and counts as many.  The outermost one comes last and is the canonical one.
-/

namespace SetLaws

namespace Expr

mutual

/-- The operations in an expression, except in right operands of complements: those in the
left operand, those in the right one, then the operation itself. -/
def operations : Expr → List Expr
  | .primitive _ _ _ => []
  | .range first last _ => first.operations ++ last.operations
  | .reference _ _ => []
  | .list elements _ => operationsOfAll elements
  | .operation .complement lhs rhs span => lhs.operations ++ [.operation .complement lhs rhs span]
  | .operation (.binary op) lhs none span =>
    lhs.operations ++ [.operation (.binary op) lhs none span]
  | .operation (.binary op) lhs (some rhs) span =>
    lhs.operations ++ rhs.operations ++ [.operation (.binary op) lhs (some rhs) span]

def operationsOfAll : List Expr → List Expr
  | [] => []
  | e :: es => e.operations ++ operationsOfAll es

end

end Expr

/-- A record of an operation: its operator, its signature, and the names in the signature in
the order in which they are written. -/
structure Application.Records (a : Application) (e : Expr) : Prop where
  operator : ∃ lhs rhs span, e = .operation a.operator lhs rhs span
  signature : e.erased = some a.signature
  operands : a.operands = a.signature.names

/-- The applications in a captured signature record the operations of the expression. -/
theorem Expr.Yields.records {env : Environment} {e : Expr} {set : ElementSet} {s : Signature}
    (h : Yields env e set s) : List.Forall₂ Application.Records s.applications e.operations := by
  induction h with
  | reference span h =>
    rw [Expr.operations]
    exact .nil
  | @complement lhs a s rhs span h ih =>
    have hlast : Application.Records ⟨.complement, (Signature.complement s).operands, .complement s⟩
        (.operation .complement lhs rhs span) :=
      ⟨⟨lhs, rhs, span, rfl⟩, (h.complement rhs span).erased_eq, Signature.operands_eq_names _⟩
    rw [Signature.applications, Expr.operations]
    exact List.rel_append ih (.cons hlast .nil)
  | @binary op lhs rhs a b s t span hl hr ihl ihr =>
    have hlast : Application.Records
        ⟨.binary op, (Signature.binary op s t).operands, .binary op s t⟩
        (.operation (.binary op) lhs (some rhs) span) :=
      ⟨⟨lhs, some rhs, span, rfl⟩, (hl.binary span hr).erased_eq, Signature.operands_eq_names _⟩
    rw [Signature.applications, Expr.operations]
    exact List.rel_append (List.rel_append ihl ihr) (.cons hlast .nil)

namespace Trace

/-- The application is longer than those before it and as long as any after it. -/
def IsFirstLongest (t : Trace) (a : Application) : Prop :=
  ∃ before after, t.records = before ++ a :: after ∧
    (∀ b ∈ before, b.signature.tokenCount < a.signature.tokenCount) ∧
    ∀ b ∈ after, b.signature.tokenCount ≤ a.signature.tokenCount

theorem foldl_longer_of_le {a : Application} {after : List Application}
    (h : ∀ b ∈ after, b.signature.tokenCount ≤ a.signature.tokenCount) :
    after.foldl longer (some a) = some a := by
  induction after with
  | nil => rfl
  | cons b rest ih =>
    rw [List.forall_mem_cons] at h
    rw [List.foldl_cons, longer, if_pos h.1, ih h.2]

theorem IsFirstLongest.canonical_eq {t : Trace} {a : Application} (h : t.IsFirstLongest a) :
    t.canonical = some a := by
  obtain ⟨before, after, hrecords, hbefore, hafter⟩ := h
  have hlast : (before ++ [a]).foldl longer none = some a := canonical_append_singleton hbefore
  rw [canonical, hrecords, List.append_cons, List.foldl_append, hlast, foldl_longer_of_le hafter]

/-- Some application is the first of the longest ones, unless there is none at all. -/
theorem exists_isFirstLongest (records : List Application) (hne : records ≠ []) :
    ∃ a, IsFirstLongest ⟨records⟩ a := by
  induction records using List.reverseRecOn with
  | nil => exact absurd rfl hne
  | append_singleton earlier last ih =>
    by_cases hearlier : earlier = []
    · subst hearlier
      exact ⟨last, [], [], rfl, nofun, nofun⟩
    · obtain ⟨a, before, after, rfl, hbefore, hafter⟩ := ih hearlier
      by_cases hlast : last.signature.tokenCount ≤ a.signature.tokenCount
      · refine ⟨a, before, after ++ [last], by simp only [List.append_assoc, List.cons_append],
          hbefore, ?_⟩
        intro b hb
        rcases List.mem_append.mp hb with hb | hb
        · exact hafter b hb
        · rwa [List.mem_singleton.mp hb]
      · refine ⟨last, before ++ a :: after, [], rfl, ?_, nofun⟩
        intro b hb
        rw [List.mem_append, List.mem_cons] at hb
        rcases hb with hb | rfl | hb
        · exact Nat.lt_trans (hbefore b hb) (Nat.lt_of_not_le hlast)
        · exact Nat.lt_of_not_le hlast
        · exact Nat.lt_of_le_of_lt (hafter b hb) (Nat.lt_of_not_le hlast)

theorem canonical_eq_some_iff (t : Trace) (a : Application) :
    t.canonical = some a ↔ t.IsFirstLongest a := by
  refine ⟨fun h => ?_, IsFirstLongest.canonical_eq⟩
  by_cases hrecords : t.records = []
  · rw [canonical, hrecords] at h
    cases h
  · obtain ⟨b, hb⟩ := exists_isFirstLongest t.records hrecords
    obtain rfl := Option.some.inj (hb.canonical_eq.symm.trans h)
    exact hb

theorem canonical_eq_none_iff (t : Trace) : t.canonical = none ↔ t.records = [] := by
  refine ⟨fun h => ?_, fun h => by rw [canonical, h, List.foldl_nil]⟩
  by_contra hrecords
  obtain ⟨a, ha⟩ := exists_isFirstLongest t.records hrecords
  exact absurd (h.symm.trans ha.canonical_eq) (Option.some_ne_none a).symm

end Trace

namespace Expr

/-- An operation that is evaluated leaves a record of each operation in it behind what the
trace holds already, and counts as many; nothing else changes in the environment.  In a trace
of its own the last record is canonical and has the signature of the value.  In any trace the
canonical record is the first one of the longest. -/
theorem evaluate_operation_trace :
    (∀ {env : Environment} {trace : Trace} {op : Operator} {lhs : Expr} {rhs : Option Expr}
      {span : Span} {v : Value} {t : Evaluation.State},
      (operation op lhs rhs span).evaluate ⟨env, trace⟩ = .ok v t →
      ∃ set signature records,
        v = .set set signature ∧
        t.trace.records = trace.records ++ records ∧
        List.Forall₂ Application.Records records (operation op lhs rhs span).operations ∧
        t.env = { env with operationCount := env.operationCount + records.length } ∧
        (trace = .empty → ∃ last, t.trace.canonical = some last ∧
          t.trace.records.getLast? = some last ∧ last.signature = signature)) ∧
    ∀ t : Trace, (t.canonical = none ↔ t.records = []) ∧
      ∀ a, t.canonical = some a ↔ t.IsFirstLongest a := by
  constructor
  · intro env trace op lhs rhs span v t h
    obtain ⟨set, signature, rfl⟩ := exists_set_of_evaluate_operation h
    obtain ⟨hyields, rfl⟩ := yields_of_evaluate _ h
    refine ⟨set, signature, signature.applications, rfl, rfl, hyields.records, rfl, ?_⟩
    rintro rfl
    have hne : signature.applications ≠ [] := by
      cases hyields <;> exact List.concat_ne_nil _ _
    obtain ⟨earlier, last, happlications, hlast, hlonger⟩ := Signature.exists_applications_eq hne
    rw [Trace.empty, List.nil_append, happlications]
    exact ⟨last, Trace.canonical_append_singleton hlonger, List.getLast?_concat, hlast⟩
  · intro t
    exact ⟨t.canonical_eq_none_iff, t.canonical_eq_some_iff⟩

/-- The operation in the right operand of the complement is not recorded, and an older record
that is longer than all new ones stays canonical. -/
theorem evaluate_operation_trace_nested :
    let a : Expr := .reference "A" .nowhere
    let left : Expr := .operation .complement a (some (.operation .complement a none .nowhere))
      .nowhere
    let right : Expr := .operation (.binary .intersection) a (some a) .nowhere
    let whole : Expr := .operation (.binary .difference) left (some right) .nowhere
    let env := (Environment.initial.define "A" (.ofList [.char 'a'])).2
    let older : Application := ⟨.binary .union, ["B", "C", "D", "E"],
      .binary .union (.binary .union (.set "B") (.set "C")) (.binary .union (.set "D") (.set "E"))⟩
    (∃ set signature t last, whole.evaluate ⟨env, .empty⟩ = .ok (.set set signature) t ∧
      t.trace.canonical = some last ∧ t.trace.records.getLast? = some last ∧
      last.signature = signature) ∧
    ∃ v t records, whole.evaluate ⟨env, ⟨[older]⟩⟩ = .ok v t ∧
      t.trace.records = older :: records ∧
      List.Forall₂ Application.Records records [left, right, whole] ∧
      t.env.operationCount = 3 ∧ t.env.sets = env.sets ∧ t.trace.canonical = some older := by
  intro a left right whole env older
  constructor
  · have heval : whole.evaluate ⟨env, .empty⟩ = .ok _ _ := rfl
    obtain ⟨set, signature, records, hv, _, _, _, hlast⟩ := evaluate_operation_trace.1 heval
    obtain ⟨last, hcanonical, hgetLast, hsignature⟩ := hlast rfl
    exact ⟨set, signature, _, last, hv ▸ heval, hcanonical, hgetLast, hsignature⟩
  · have heval : whole.evaluate ⟨env, ⟨[older]⟩⟩ = .ok _ _ := rfl
    obtain ⟨set, signature, records, _, hrecords, hforall, henv, _⟩ :=
      evaluate_operation_trace.1 heval
    have hlength : records.length = 3 := hforall.length_eq
    refine ⟨_, _, records, heval, hrecords, hforall, ?_, ?_, rfl⟩
    · rw [henv, hlength]
      rfl
    · rw [henv]

end Expr
end SetLaws
