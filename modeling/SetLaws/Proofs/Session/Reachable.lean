import SetLaws.Proofs.Session.Step

/-!
# Reachable sessions

Instructions change the environment only by counting and by storing sets, so the
environment of every reachable session is itself reachable.
-/

namespace SetLaws
namespace Session

/-- The sessions to which the operations on sessions lead. -/
inductive Reachable : Session → Prop where
  | start (passes : Nat) : Reachable (start passes)
  | execute {s : Session} (h : Reachable s) (i : Instruction) : Reachable (s.execute i).2
  | run {s : Session} (h : Reachable s) (is : List Instruction) : Reachable (s.run is).2
  | reset {s : Session} (h : Reachable s) : Reachable s.reset
  /-- Between instructions the environment is open to its own operations. -/
  | withEnv {s : Session} (h : Reachable s) {env : Environment} (henv : env.Reachable) :
      Reachable { s with env := env }

theorem simplify_env (s : Session) (name : String) (signature : Signature) :
    (s.simplify name signature).2.env = s.env := by
  unfold simplify
  split
  rename_i answer table journal _
  cases answer.recomputed <;> rfl

theorem Step.reachable_env {s s' : Session} {i : Instruction} {v : Verdict}
    (h : Step s i v s') (henv : s.env.Reachable) : s'.env.Reachable := by
  cases h with
  | failed => exact henv.countedBy _
  | defined => exact (henv.countedBy _).define _ _
  | referred => exact henv.define _ _
  | operated =>
    show Environment.Reachable (Environment.define _ _ _).2
    rw [simplify_env]
    exact (henv.countedBy _).define _ _
  | evaluated => exact henv.countedBy _

theorem reachable_env_executeAll {s : Session} (is : List Instruction)
    (henv : s.env.Reachable) : (s.executeAll is).2.env.Reachable := by
  induction is generalizing s with
  | nil => exact henv
  | cons i is ih =>
    rw [executeAll]
    exact ih ((step_execute rfl).reachable_env henv)

theorem Reachable.env {s : Session} (h : s.Reachable) : s.env.Reachable := by
  induction h with
  | start passes => exact .initial
  | execute _ i ih => exact (step_execute rfl).reachable_env ih
  | run _ is _ => exact reachable_env_executeAll is .initial
  | reset _ _ => exact .initial
  | withEnv _ henv _ => exact henv

end Session
end SetLaws
