import Mathlib.Algebra.GroupWithZero.Nat

/-!
# Loops over a stack

A traversal keeps the nodes that it has yet to visit on a stack.  Once round the loop it visits the
node on top and puts the parts of the node in its place.  The loop ends when every node weighs more
than its parts together, and its answer is that of any function that no round changes.
-/

namespace SetLaws

/-- What a loop does with the nodes that it takes from its stack. -/
structure Traversal (Node Collected Answer : Type) where
  /-- The answer that ends the loop at a node, or what is collected with that node. -/
  visit : Collected → Node → Answer ⊕ Collected
  /-- The parts of a node, from left to right. -/
  parts : Node → List Node
  /-- The answer when no node is left. -/
  finish : Collected → Answer

namespace Traversal

variable {Node Collected Answer : Type} {w : Traversal Node Collected Answer}

structure State (Node Collected : Type) where
  /-- The nodes to be visited, the top in front. -/
  stack : List Node
  collected : Collected

def push (stack : List Node) (a : Node) : List Node :=
  a :: stack

/-- Once round the loop.  The last part of the node is put on the stack first, so the first part is
visited next. -/
def round (w : Traversal Node Collected Answer) :
    State Node Collected → Answer ⊕ State Node Collected
  | ⟨[], collected⟩ => .inl (w.finish collected)
  | ⟨a :: stack, collected⟩ =>
    match w.visit collected a with
    | .inl answer => .inl answer
    | .inr collected => .inr ⟨(w.parts a).reverse.foldl push stack, collected⟩

/-- The loop ends with an answer after so many rounds that went on. -/
inductive Ends (w : Traversal Node Collected Answer) :
    State Node Collected → Nat → Answer → Prop where
  | answer {s : State Node Collected} {r : Answer} (h : w.round s = .inl r) : Ends w s 0 r
  | again {s t : State Node Collected} {n : Nat} {r : Answer} (h : w.round s = .inr t)
      (rest : Ends w t n r) : Ends w s (n + 1) r

/-- The loop ends within so many rounds, with this answer and no other. -/
def Returns (w : Traversal Node Collected Answer) (s : State Node Collected) (bound : Nat)
    (answer : Answer) : Prop :=
  ∀ r, (∃ n ≤ bound, w.Ends s n r) ↔ r = answer

theorem foldl_push_reverse (parts stack : List Node) :
    parts.reverse.foldl push stack = parts ++ stack := by
  rw [List.foldl_reverse]
  exact List.foldr_cons_eq_append'

section

variable {weight : Node → Nat} {s t : State Node Collected} {n : Nat} {r : Answer}

/-- What the nodes on the stack weigh together. -/
def State.load (weight : Node → Nat) (s : State Node Collected) : Nat :=
  (s.stack.map weight).sum

/-- Every node weighs more than its parts together. -/
def Shrinks (w : Traversal Node Collected Answer) (weight : Node → Nat) : Prop :=
  ∀ a, ((w.parts a).map weight).sum < weight a

/-- A round that goes on makes the stack lighter. -/
theorem load_lt_of_round (hw : w.Shrinks weight) (h : w.round s = .inr t) :
    t.load weight < s.load weight := by
  obtain ⟨stack, collected⟩ := s
  cases stack with
  | nil => cases h
  | cons a stack =>
    rw [round] at h
    split at h
    · cases h
    · obtain rfl := Sum.inr.inj h
      have ha := hw a
      rw [State.load, State.load, foldl_push_reverse, List.map_append, List.sum_append,
        List.map_cons, List.sum_cons]
      omega

theorem exists_ends (hw : w.Shrinks weight) (s : State Node Collected) :
    ∃ n ≤ s.load weight, ∃ r, w.Ends s n r := by
  induction hm : s.load weight using Nat.strongRecOn generalizing s with
  | ind m ih =>
    cases hround : w.round s with
    | inl r => exact ⟨0, Nat.zero_le _, r, .answer hround⟩
    | inr t =>
      have hlt := load_lt_of_round hw hround
      obtain ⟨n, hn, r, hends⟩ := ih _ (hm ▸ hlt) t rfl
      exact ⟨n + 1, by omega, r, .again hround hends⟩

/-- The function gives the answer of the loop for a stack and what has been collected: it has the
equations of one round. -/
structure Solves (w : Traversal Node Collected Answer) (f : List Node → Collected → Answer) :
    Prop where
  nil (collected : Collected) : f [] collected = w.finish collected
  cons (a : Node) (stack : List Node) (collected : Collected) :
    f (a :: stack) collected = (w.visit collected a).elim id (f (w.parts a ++ stack))

variable {f : List Node → Collected → Answer}

/-- A round ends with the value of the function, or goes on and leaves it as it is. -/
theorem Solves.eq_of_round (hf : w.Solves f) :
    f s.stack s.collected = (w.round s).elim id fun t => f t.stack t.collected := by
  obtain ⟨stack, collected⟩ := s
  cases stack with
  | nil => exact hf.nil collected
  | cons a stack =>
    rw [round, hf.cons]
    cases w.visit collected a with
    | inl r => rfl
    | inr c => exact congrArg (f · c) (foldl_push_reverse _ _).symm

theorem Solves.eq_of_ends (hf : w.Solves f) (h : w.Ends s n r) : r = f s.stack s.collected := by
  induction h with
  | answer h => rw [hf.eq_of_round, h, Sum.elim_inl, id]
  | again h _ ih => rw [hf.eq_of_round, h, Sum.elim_inr, ih]

/-- The loop ends within as many rounds as the stack weighs, with the value of the function. -/
theorem Solves.returns (hf : w.Solves f) (hw : w.Shrinks weight) (s : State Node Collected) :
    w.Returns s (s.load weight) (f s.stack s.collected) := by
  obtain ⟨n, hn, r, hends⟩ := exists_ends hw s
  intro answer
  constructor
  · rintro ⟨m, -, h⟩
    exact hf.eq_of_ends h
  · rintro rfl
    exact ⟨n, hn, hf.eq_of_ends hends ▸ hends⟩

end

end Traversal
end SetLaws
