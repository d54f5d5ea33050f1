import SetLaws.ElementSet

/-!
# Named sets

A finite map from names to sets, kept in increasing order of the names.
-/

namespace SetLaws

/-- Sets by name; the names increase strictly. -/
structure NamedSets where
  entries : List (String × ElementSet)
  increasing : entries.Pairwise (fun p q => p.1 < q.1)
deriving DecidableEq, Repr

namespace NamedSets

def empty : NamedSets := ⟨[], .nil⟩

/-- Puts a set under its name into an increasing list, in place of the one that
has the name. -/
def place (name : String) (set : ElementSet) :
    List (String × ElementSet) → List (String × ElementSet)
  | [] => [(name, set)]
  | p :: ps =>
    if name < p.1 then (name, set) :: p :: ps
    else if name = p.1 then (name, set) :: ps
    else p :: place name set ps

theorem eq_or_mem_of_mem_place {name : String} {set : ElementSet} {q : String × ElementSet}
    {ps : List (String × ElementSet)} (h : q ∈ place name set ps) :
    q = (name, set) ∨ q ∈ ps := by
  induction ps with
  | nil => exact Or.inl (List.mem_singleton.mp h)
  | cons p ps ih =>
    rw [place] at h
    split at h
    · exact List.mem_cons.mp h
    · split at h
      · exact (List.mem_cons.mp h).imp_right (List.mem_cons_of_mem p)
      · rcases List.mem_cons.mp h with rfl | hq
        · exact Or.inr (List.mem_cons_self ..)
        · exact (ih hq).imp_right (List.mem_cons_of_mem p)

theorem pairwise_place (name : String) (set : ElementSet) {ps : List (String × ElementSet)}
    (h : ps.Pairwise (fun p q => p.1 < q.1)) :
    (place name set ps).Pairwise (fun p q => p.1 < q.1) := by
  induction ps with
  | nil => exact List.pairwise_singleton ..
  | cons p ps ih =>
    have hp := List.pairwise_cons.mp h
    rw [place]
    split
    · next hlt =>
      refine List.pairwise_cons.mpr ⟨fun q hq => ?_, h⟩
      rcases List.mem_cons.mp hq with rfl | hq
      · exact hlt
      · exact String.lt_trans hlt (hp.1 q hq)
    · next hge =>
      split
      · next heq => exact List.pairwise_cons.mpr ⟨fun q hq => heq ▸ hp.1 q hq, hp.2⟩
      · next hne =>
        refine List.pairwise_cons.mpr ⟨fun q hq => ?_, ih hp.2⟩
        rcases eq_or_mem_of_mem_place hq with rfl | hq
        · refine Classical.byContradiction fun hnlt => hne ?_
          exact String.le_antisymm (String.not_lt.mp hnlt) (String.not_lt.mp hge)
        · exact hp.1 q hq

/-- Stores a set under a name, in place of the one that has the name. -/
def insert (s : NamedSets) (name : String) (set : ElementSet) : NamedSets :=
  ⟨place name set s.entries, pairwise_place name set s.increasing⟩

def find? (s : NamedSets) (name : String) : Option ElementSet :=
  s.entries.lookup name

theorem lookup_place (name other : String) (set : ElementSet)
    (ps : List (String × ElementSet)) :
    (place name set ps).lookup other = if other = name then some set else ps.lookup other := by
  induction ps with
  | nil =>
    by_cases h : other = name
    · rw [place, if_pos h, List.lookup_cons, beq_iff_eq.mpr h]
    · rw [place, if_neg h, List.lookup_cons, beq_eq_false_iff_ne.mpr h]
  | cons p ps ih =>
    rw [place]
    split
    · rw [List.lookup_cons]
      by_cases h : other = name
      · rw [if_pos h, beq_iff_eq.mpr h]
      · rw [if_neg h, beq_eq_false_iff_ne.mpr h]
    · split
      · next heq =>
        rw [List.lookup_cons, List.lookup_cons, ← heq]
        by_cases h : other = name
        · rw [if_pos h, beq_iff_eq.mpr h]
        · rw [if_neg h, beq_eq_false_iff_ne.mpr h]
      · next hne =>
        rw [List.lookup_cons, List.lookup_cons, ih]
        by_cases hp : other = p.1
        · have h : other ≠ name := fun h => hne (h ▸ hp)
          simp only [beq_iff_eq.mpr hp, if_neg h]
        · rw [beq_eq_false_iff_ne.mpr hp]

theorem find?_insert (s : NamedSets) (name other : String) (set : ElementSet) :
    (s.insert name set).find? other = if other = name then some set else s.find? other :=
  lookup_place name other set s.entries

def contains (s : NamedSets) (name : String) : Bool :=
  (s.find? name).isSome

/-- The names, in increasing order. -/
def names (s : NamedSets) : List String :=
  s.entries.map (·.1)

def size (s : NamedSets) : Nat :=
  s.entries.length

end NamedSets
end SetLaws
