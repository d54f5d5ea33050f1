import SetLaws.Environment
import SetLaws.Proofs.ElementSet.Normal

/-!
# Reachable environments

Named sets and the universal set are stored in normal form, so in every environment
that the operations on environments lead to, membership is literal.
-/

namespace SetLaws

theorem isNormal_printableAscii : printableAscii.IsNormal := by
  refine ElementSet.isNormal_ofList fun e he => ?_
  obtain ⟨code, _, rfl⟩ := List.mem_map.mp he
  exact Element.isNormal_char _

namespace Environment

/-- The universal set and all named sets have normal members. -/
structure IsNormal (env : Environment) : Prop where
  universal : env.universal.IsNormal
  sets : ∀ {name : String} {set : ElementSet}, env.sets.find? name = some set → set.IsNormal

theorem isNormal_initial : initial.IsNormal where
  universal := isNormal_printableAscii
  sets h := absurd h (Option.some_ne_none _).symm

theorem IsNormal.define {env : Environment} (h : env.IsNormal) (name : String)
    (set : ElementSet) : (env.define name set).2.IsNormal where
  universal := h.universal
  sets := by
    intro other found hfound
    have hplaced := (env.sets.find?_insert name other set.normalized).symm.trans hfound
    split at hplaced
    · obtain rfl := Option.some.inj hplaced
      exact set.isNormal_normalized
    · exact h.sets hplaced

theorem IsNormal.extendUniversal {env : Environment} (h : env.IsNormal)
    (elements : List Element) : (env.extendUniversal elements).IsNormal where
  universal := by
    refine h.universal.insertAll fun e he => ?_
    obtain ⟨x, _, rfl⟩ := List.mem_map.mp he
    exact x.isNormal_normalized
  sets := h.sets

/-- The environment after a number of further set operations. -/
def countedBy (env : Environment) (n : Nat) : Environment :=
  { env with operationCount := env.operationCount + n }

theorem countedBy_countedBy (env : Environment) (m n : Nat) :
    (env.countedBy m).countedBy n = env.countedBy (m + n) := by
  rw [countedBy, countedBy, countedBy, Nat.add_assoc]

theorem IsNormal.countedBy {env : Environment} (h : env.IsNormal) (n : Nat) :
    (env.countedBy n).IsNormal where
  universal := h.universal
  sets := h.sets

/-- The environments to which the operations on environments lead.  A reset leads back to
the initial one. -/
inductive Reachable : Environment → Prop where
  | initial : Reachable .initial
  | define {env : Environment} (h : Reachable env) (name : String) (set : ElementSet) :
      Reachable (env.define name set).2
  | apply {env : Environment} (h : Reachable env) (op : BinaryOp) (a b : ElementSet) :
      Reachable (env.apply op a b).2
  | complement {env : Environment} (h : Reachable env) (a : ElementSet) :
      Reachable (env.complement a).2
  | extendUniversal {env : Environment} (h : Reachable env) (elements : List Element) :
      Reachable (env.extendUniversal elements)

theorem Reachable.isNormal {env : Environment} (h : env.Reachable) : env.IsNormal := by
  induction h with
  | initial => exact isNormal_initial
  | define _ name set ih => exact ih.define name set
  | apply _ op a b ih => exact ih.countedBy 1
  | complement _ a ih => exact ih.countedBy 1
  | extendUniversal _ elements ih => exact ih.extendUniversal elements

theorem Reachable.countedBy {env : Environment} (h : env.Reachable) (n : Nat) :
    (env.countedBy n).Reachable := by
  induction n with
  | zero => exact h
  | succ n ih => exact ih.complement .empty

end Environment
end SetLaws
