import SetLaws.Environment.NamedSets
import SetLaws.ElementSet
import SetLaws.Text
import SetLaws.Fault

/-!
# Environments

What the evaluation of an expression depends on: the universal set, in which
complements are taken, and the named sets; and what is counted on the way: the
set operations performed and the names defined.
-/

namespace SetLaws

/-- The printable ASCII characters from `!` to `~`. -/
def printableAscii : ElementSet :=
  ElementSet.ofList ((List.range' 33 94).map fun code => .char (Char.ofNat code))

/-- The universal set, the named sets and two counters. -/
structure Environment where
  /-- The set in which complements are taken. -/
  universal : ElementSet
  sets : NamedSets
  operationCount : Nat
  totalSets : Nat
deriving DecidableEq, Repr

namespace Environment

/-- The environment in which nothing has been defined or computed. -/
def initial : Environment where
  universal := printableAscii
  sets := .empty
  operationCount := 0
  totalSets := 0

/-- Stores a set in normal form under a name, and says whether the name is new. -/
def define (env : Environment) (name : String) (set : ElementSet) : Bool × Environment :=
  let new := !env.sets.contains name
  (new, { env with
    sets := env.sets.insert name set.normalized
    totalSets := if new then env.totalSets + 1 else env.totalSets })

/-- The names that are similar to the given one, in increasing order. -/
def similarNames (env : Environment) (name : String) : List String :=
  env.sets.names.filter (Text.similar · name)

def lookup (env : Environment) (name : String) : Except Fault ElementSet :=
  match env.sets.find? name with
  | some set => .ok set
  | none => .error (.undefinedSet name (env.similarNames name))

def counted (env : Environment) : Environment :=
  { env with operationCount := env.operationCount + 1 }

def apply (env : Environment) (op : BinaryOp) (a b : ElementSet) : ElementSet × Environment :=
  let result := match op with
    | .union => a.union b
    | .intersection => a.inter b
    | .difference => a.diff b
  (result, env.counted)

/-- The members of the universal set that are not in the given set. -/
def complement (env : Environment) (a : ElementSet) : ElementSet × Environment :=
  (env.universal.diff a, env.counted)

/-- Adds elements, in normal form, to the universal set. -/
def extendUniversal (env : Environment) (elements : List Element) : Environment :=
  { env with universal := env.universal.insertAll (elements.map Element.normalized) }

def describeUniversal (env : Environment) : String :=
  "Universo ASCII (33-126): De '!' (33) hasta '~' (126)\nTotal de elementos: " ++
    toString env.universal.size

end Environment
end SetLaws
