import SetLaws.Proofs.Evaluation.Meaning

/-!
# Normal values

Literals are read into normal form, and nothing that evaluation does to normal sets makes an
element that is not normal.  So equal elements of a value are spelled alike.
-/

namespace SetLaws

theorem Element.isNormal_ofInt (n : Int64) : (ofInt n).IsNormal :=
  normalized_ofInt n

theorem Element.isNormal_ofText (s : String) : (ofText s).IsNormal :=
  normalized_ofText s

theorem LiteralKind.isNormal_element (value : String) (kind : LiteralKind) :
    (kind.element value).IsNormal := by
  cases kind with
  | integer =>
    rw [element]
    split
    · exact Element.isNormal_ofInt _
    · exact Element.isNormal_ofText value
  | letter | symbol | text => exact Element.isNormal_ofText value

namespace Value

/-- Every element of the value is spelled in its preferred form. -/
def IsNormal (v : Value) : Prop :=
  ∀ e ∈ v.elements, e.IsNormal

theorem IsNormal.toSet {v : Value} (h : v.IsNormal) : v.toSet.IsNormal := by
  cases v with
  | element e => exact ElementSet.isNormal_ofList h
  | set members signature => exact h
  | range members => exact h
  | list elements => exact ElementSet.isNormal_ofList h

end Value

namespace Evaluator

variable {α β : Type}

/-- Started where all sets are normal, the computation ends there as well, and its result, if
it has one, satisfies the condition. -/
def Keeps (p : α → Prop) (x : Evaluator α) : Prop :=
  ∀ s a t, s.env.IsNormal → x s = .ok a t → t.env.IsNormal ∧ p a

namespace Keeps

variable {p : α → Prop} {q : β → Prop}

theorem pure {a : α} (h : p a) : Keeps p (Pure.pure a) := by
  intro s b t hs hok
  cases hok
  exact ⟨hs, h⟩

theorem throw (d : Diagnostic) : Keeps p (MonadExcept.throw d : Evaluator α) := by
  intro s a t _ hok
  cases hok

theorem bind {x : Evaluator α} {f : α → Evaluator β} (hx : Keeps p x)
    (hf : ∀ a, p a → Keeps q (f a)) : Keeps q (x >>= f) := by
  intro s b t hs h
  rw [bind_eq_ok] at h
  obtain ⟨a, u, ha, h⟩ := h
  obtain ⟨hu, hpa⟩ := hx s a u hs ha
  exact hf a hpa u b t hu h

theorem quietly {x : Evaluator α} (hx : Keeps p x) : Keeps p x.quietly := by
  intro s a t hs h
  unfold Evaluator.quietly at h
  split at h
  · next a' u hok =>
    cases h
    exact hx s _ u hs hok
  · cases h

theorem lookup (name : String) (span : Span) :
    Keeps ElementSet.IsNormal (Evaluator.lookup name span) := by
  intro s a t hs h
  obtain ⟨hfound, rfl⟩ := lookup_eq_ok.mp h
  exact ⟨hs, hs.sets hfound⟩

theorem complement (a : ElementSet) (signature : Signature) :
    Keeps Value.IsNormal (Evaluator.complement a signature) := by
  intro s v t hs h
  cases h
  exact ⟨hs.countedBy 1, hs.universal.diff a⟩

theorem binary (op : BinaryOp) {a b : ElementSet × Signature} (ha : a.1.IsNormal)
    (hb : b.1.IsNormal) : Keeps Value.IsNormal (Evaluator.binary op a b) := by
  intro s v t hs h
  have hresult : (s.env.apply op a.1 b.1).1.IsNormal := Environment.IsNormal.apply op ha hb
  cases h
  exact ⟨hs.countedBy 1, hresult⟩

theorem between (first last : Int64) : Keeps Value.IsNormal (Evaluator.between first last) := by
  intro s v t hs h
  cases h
  exact ⟨hs, hs.universal.filter _⟩

theorem operand (op : Operator) (side : Side) (span : Span) {v : Value} (hv : v.IsNormal) :
    Keeps (fun a => a.1.IsNormal) (Evaluator.operand op side span v) := by
  cases v with
  | set members signature => exact pure hv
  | element | range | list => exact throw _

theorem bound (span : Span) (v : Value) : Keeps (fun _ => True) (Evaluator.bound span v) := by
  cases v with
  | element e =>
    rw [Evaluator.bound]
    split
    · exact pure trivial
    · exact throw _
  | set | range | list => exact throw _

end Keeps
end Evaluator

namespace Expr

open Evaluator

mutual

/-- Evaluation among normal sets leads to normal values. -/
theorem keeps_evaluate : (e : Expr) → Keeps Value.IsNormal e.evaluate
  | .primitive value kind _ => by
    rw [evaluate]
    refine .pure fun e he => ?_
    obtain rfl := List.mem_singleton.mp he
    exact kind.isNormal_element value
  | .range first last _ => by
    rw [evaluate]
    refine (keeps_evaluate first).quietly.bind fun v _ => (Keeps.bound _ v).bind fun a _ => ?_
    refine (keeps_evaluate last).quietly.bind fun w _ => (Keeps.bound _ w).bind fun b _ => ?_
    split
    · exact .throw _
    · exact .between a b
  | .reference name span => by
    rw [evaluate]
    exact (Keeps.lookup name span).bind fun a ha => .pure ha
  | .list elements _ => by
    rw [evaluate]
    exact (keeps_evaluateAll elements).bind fun values hvalues => .pure hvalues
  | .operation .complement lhs _ _ => by
    rw [evaluate]
    refine (keeps_evaluate lhs).bind fun v hv => ?_
    exact (Keeps.operand _ _ _ hv).bind fun a _ => .complement a.1 a.2
  | .operation (.binary op) lhs none _ => by
    rw [evaluate]
    refine (keeps_evaluate lhs).bind fun v hv => ?_
    exact (Keeps.operand _ _ _ hv).bind fun a _ => .throw _
  | .operation (.binary op) lhs (some rhs) _ => by
    rw [evaluate]
    refine (keeps_evaluate lhs).bind fun v hv => (Keeps.operand _ _ _ hv).bind fun a ha => ?_
    refine (keeps_evaluate rhs).bind fun w hw => (Keeps.operand _ _ _ hw).bind fun b hb => ?_
    exact .binary op ha hb

theorem keeps_evaluateAll : (es : List Expr) →
    Keeps (fun elements => ∀ e ∈ elements, e.IsNormal) (evaluateAll es)
  | [] => by
    rw [evaluateAll]
    exact .pure fun e he => absurd he List.not_mem_nil
  | e :: es => by
    rw [evaluateAll]
    refine (keeps_evaluate e).quietly.bind fun v hv => ?_
    refine (keeps_evaluateAll es).bind fun rest hrest => .pure ?_
    exact List.forall_mem_append.mpr ⟨hv, hrest⟩

end

/-- A value found in a normal environment is normal. -/
theorem isNormal_of_ok {e : Expr} {env : Environment} {v : Value} {t : Evaluation.State}
    (henv : env.IsNormal) (h : e.evaluate.start env = .ok v t) : v.IsNormal :=
  (keeps_evaluate e ⟨env, .empty⟩ v t henv h).2

end Expr
end SetLaws
