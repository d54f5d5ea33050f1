import SetLaws.Element.Order

/-!
# Finite sets of elements

A set is a list that increases strictly in the order of elements, so no two of
its members mean the same element.  The spelling of a member is kept: of two
spellings of one element the first to arrive stays.
-/

namespace SetLaws

/-- A finite set of elements, in increasing order. -/
structure ElementSet where
  toList : List Element
  increasing : toList.Pairwise (fun a b => compare a b = .lt)
deriving DecidableEq, Repr

namespace ElementSet

def empty : ElementSet := ⟨[], .nil⟩

instance : Inhabited ElementSet := ⟨empty⟩

/-- Places an element into an increasing list, unless it is there already. -/
def place (e : Element) : List Element → List Element
  | [] => [e]
  | x :: xs => match compare e x with
    | .lt => e :: x :: xs
    | .eq => x :: xs
    | .gt => x :: place e xs

theorem eq_or_mem_of_mem_place {e y : Element} {xs : List Element} (h : y ∈ place e xs) :
    y = e ∨ y ∈ xs := by
  induction xs with
  | nil => exact Or.inl (List.mem_singleton.mp h)
  | cons x xs ih =>
    rw [place] at h
    split at h
    · exact List.mem_cons.mp h
    · exact Or.inr h
    · rcases List.mem_cons.mp h with rfl | hy
      · exact Or.inr (List.mem_cons_self ..)
      · exact (ih hy).imp_right (List.mem_cons_of_mem x)

theorem pairwise_place (e : Element) {xs : List Element}
    (h : xs.Pairwise (fun a b => compare a b = .lt)) :
    (place e xs).Pairwise (fun a b => compare a b = .lt) := by
  induction xs with
  | nil => exact List.pairwise_singleton ..
  | cons x xs ih =>
    have hx := List.pairwise_cons.mp h
    rw [place]
    split
    · next hlt =>
      refine List.pairwise_cons.mpr ⟨fun y hy => ?_, h⟩
      rcases List.mem_cons.mp hy with rfl | hy
      · exact hlt
      · exact Std.TransCmp.lt_trans hlt (hx.1 y hy)
    · exact h
    · next hgt =>
      refine List.pairwise_cons.mpr ⟨fun y hy => ?_, ih hx.2⟩
      rcases eq_or_mem_of_mem_place hy with rfl | hy
      · exact Std.OrientedCmp.gt_iff_lt.mp hgt
      · exact hx.1 y hy

/-- Adds an element; a member that means the same stays as it is spelled. -/
def insert (s : ElementSet) (e : Element) : ElementSet :=
  ⟨place e s.toList, pairwise_place e s.increasing⟩

def insertAll (s : ElementSet) (es : List Element) : ElementSet :=
  es.foldl insert s

def ofList (es : List Element) : ElementSet :=
  empty.insertAll es

def filter (p : Element → Bool) (s : ElementSet) : ElementSet :=
  ⟨s.toList.filter p, s.increasing.filter p⟩

/-- Whether some member means the given element. -/
def contains (s : ElementSet) (e : Element) : Bool :=
  s.toList.any (·.same e)

/-- The members of either set, spelled as in the first where they are in both. -/
def union (a b : ElementSet) : ElementSet :=
  a.insertAll b.toList

def size (s : ElementSet) : Nat :=
  s.toList.length

/-- The greatest member of the first set means the same as the least of the second,
so they have nothing else in common. -/
def meets (a b : ElementSet) : Bool :=
  match a.toList.getLast?, b.toList.head? with
  | some x, some y => x.same y
  | _, _ => false

/-- How many times as large as another a set has to be to count as far larger. -/
def farLarger : Nat := 16

/-- The members of both sets.  They are spelled as in the first set, or as in the
second where the first is far larger and the two do not just meet at an end. -/
def inter (a b : ElementSet) : ElementSet :=
  if b.size ≤ a.size / farLarger && !a.meets b && !b.meets a then b.filter a.contains
  else a.filter b.contains

/-- The members of the first set that are not in the second. -/
def diff (a b : ElementSet) : ElementSet :=
  a.filter fun e => !b.contains e

def normalized (s : ElementSet) : ElementSet :=
  ofList (s.toList.map Element.normalized)

/-! ## How a set is shown

Integers are listed by value and all other members by their text.  The two lists
are merged by text: a member that is no integer comes first where its text is
smaller than the decimal text of the next integer. -/

def displayOrder (s : ElementSet) : List Element :=
  let (ints, others) := s.toList.partition Element.isInt
  let others := others.mergeSort fun a b => a.unquoted ≤ b.unquoted
  ints.merge others fun i o => i.unquoted ≤ o.unquoted

/-- The set as shown: `∅` when it is empty, and its members in braces otherwise. -/
def display (s : ElementSet) : String :=
  if s.toList.isEmpty then "∅"
  else "\x7b" ++ ", ".intercalate (s.displayOrder.map Element.display) ++ "\x7d"

end ElementSet
end SetLaws
