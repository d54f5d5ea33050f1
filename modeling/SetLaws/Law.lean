/-!
# The laws of sets

The laws by which an operation is simplified, in the order in which they are
tried.
-/

namespace SetLaws

inductive Law where
  /-- A set is the complement of its complement. -/
  | doubleComplement
  /-- A set and its complement have no member in common. -/
  | emptyComplement
  /-- A set and its complement make up the universal set. -/
  | universalComplement
  /-- A set joined or met with itself is that set. -/
  | idempotence
  /-- A set without its own members is empty. -/
  | selfDifference
  /-- A set joined with a part of it, or met with a set around it, is that set. -/
  | absorption
  /-- The complement of a union is the intersection of the complements, and the
  other way round. -/
  | deMorgan
  /-- A union distributes over an intersection. -/
  | distributive
  /-- The grouping of unions does not matter, nor that of intersections. -/
  | associative
  /-- The order of the operands of a union or an intersection does not matter. -/
  | commutative
deriving DecidableEq, Repr

namespace Law

/-- Every law, the one to be tried first in front. -/
def all : List Law :=
  [.doubleComplement, .emptyComplement, .universalComplement, .idempotence, .selfDifference,
    .absorption, .deMorgan, .distributive, .associative, .commutative]

def title : Law → String
  | .doubleComplement => "Ley del Doble Complemento"
  | .emptyComplement => "Ley del Complemento Total"
  | .universalComplement => "Ley del Complemento Total"
  | .idempotence => "Propiedades Idempotentes"
  | .selfDifference => "Ley de Diferencia Propia"
  | .absorption => "Propiedades de Absorción"
  | .deMorgan => "Leyes de De Morgan"
  | .distributive => "Propiedades Distributivas"
  | .associative => "Propiedades Asociativas"
  | .commutative => "Propiedades Conmutativas"

/-- What a report says in place of titles when no law was applied. -/
def noneTitle : String := "No simplificable"

/-- Whether the law leads to a result at once, and does not only rearrange. -/
def isDirect : Law → Bool
  | .emptyComplement => true
  | .universalComplement => true
  | .selfDifference => true
  | _ => false

end Law
end SetLaws
