import SetLaws.Json
import SetLaws.Simplification

/-!
# The table of simplifications

Simplifications by the name of the operation, in the order in which they were
last computed.  A simplification is kept until the operation is given a longer
signature.
-/

namespace SetLaws

/-- Simplifications by name; no name occurs twice. -/
structure SimplificationTable where
  entries : List (String × Simplification)
  nodup : (entries.map (·.1)).Nodup
deriving DecidableEq, Repr

namespace SimplificationTable

def empty : SimplificationTable := ⟨[], .nil⟩

def find? (table : SimplificationTable) (name : String) : Option Simplification :=
  table.entries.lookup name

def names (table : SimplificationTable) : List String :=
  table.entries.map (·.1)

def size (table : SimplificationTable) : Nat :=
  table.entries.length

/-- Puts an entry at the end, in place of the one that has the name. -/
def put (table : SimplificationTable) (name : String) (entry : Simplification) :
    SimplificationTable where
  entries := table.entries.filter (·.1 ≠ name) ++ [(name, entry)]
  nodup := by
    rw [List.map_append, List.nodup_append]
    refine ⟨table.nodup.sublist (List.filter_sublist.map _), List.pairwise_singleton _ _, ?_⟩
    intro a ha b hb
    obtain ⟨p, hp, rfl⟩ := List.mem_map.mp ha
    obtain rfl : b = name := List.mem_singleton.mp hb
    simpa using (List.mem_filter.mp hp).2

/-- An entry of the table, and whether it has just been computed. -/
structure Answer where
  entry : Simplification
  recomputed : Bool
deriving DecidableEq, Repr

/-- The simplification of a named operation.  An entry that is there already is
kept unless the signature takes more bytes to write than the one it was computed
from; a new entry goes to the end, and the laws applied to the journal. -/
def simplify (table : SimplificationTable) (name : String) (s : Signature) (passes : Nat)
    (journal : List Law) : Answer × SimplificationTable × List Law :=
  let compute :=
    let (entry, journal) := s.simplify passes journal
    (⟨entry, true⟩, table.put name entry, journal)
  match table.find? name with
  | none => compute
  | some kept =>
    if s.textSize ≤ kept.given.textSize then (⟨kept, false⟩, table, journal) else compute

end SimplificationTable

/-! ## The report

A JSON object with a member for each entry of the table: the signature before and
after simplification, and the titles of the laws. -/

def Simplification.report (s : Simplification) : Json :=
  .record [
    ("conjunto Original", .text s.given.text),
    ("conjunto Simplificado", .text s.simplified.text),
    ("leyes", .array (s.titles.map .text))]

def SimplificationTable.report (table : SimplificationTable) : Json :=
  .record (table.entries.map fun (name, entry) => (name, entry.report))

end SetLaws
