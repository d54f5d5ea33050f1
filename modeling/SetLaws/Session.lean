import SetLaws.Evaluation
import SetLaws.Program
import SetLaws.Simplification.Table

/-!
# Sessions

A session executes instructions one after the other.  It holds the environment and
the table of simplifications, and keeps a log of the reports written and a journal
of the laws applied.  An instruction that fails leaves the named sets, the table
and both logs as they are.
-/

namespace SetLaws

/-! ## What an instruction achieves, and how that is shown -/

structure Membership where
  element : Element
  member : Bool
deriving DecidableEq, Repr

inductive Outcome where
  /-- A set was stored; `new` says whether its name was not in use. -/
  | defined (name : String) (set : ElementSet) (new : Bool)
  /-- An operation was performed and its result stored.  A named set by itself
  applies no operator and has no simplification. -/
  | operated (name : String) (set : ElementSet) (signature : Signature)
      (simplification : Option Simplification)
  | evaluated (operation : String) (memberships : List Membership)
deriving DecidableEq, Repr

/-- The simplification as shown below the result of an operation. -/
def Simplification.display (s : Simplification) : String :=
  "\n  " ++ s.given.text ++ " => " ++ s.simplified.text ++
    " [" ++ ", ".intercalate s.titles ++ "]"

def Membership.display (m : Membership) (operation : String) : String :=
  m.element.display ++ (if m.member then " ∈ " else " ∉ ") ++ operation

def Outcome.display : Outcome → String
  | .defined name set _ => name ++ " = " ++ set.display
  | .operated name set _ none => name ++ " = " ++ set.display
  | .operated name set _ (some simplification) =>
    name ++ " = " ++ set.display ++ simplification.display
  | .evaluated operation memberships =>
    "\n".intercalate (memberships.map (·.display operation))

/-- What an instruction leads to: an outcome, or every fault that was found. -/
abbrev Verdict := Except (List Diagnostic) Outcome

/-! ## The session -/

structure Session where
  env : Environment
  table : SimplificationTable
  /-- The greatest number of passes of a simplification. -/
  passes : Nat
  /-- The reports written so far, the first in front. -/
  reports : List Json
  /-- The laws applied so far, the first in front. -/
  journal : List Law
deriving Repr

namespace Session

def start (passes : Nat) : Session where
  env := .initial
  table := .empty
  passes := passes
  reports := []
  journal := []

/-- Forgets the sets, the counters and the simplifications. -/
def reset (s : Session) : Session :=
  { s with env := .initial, table := .empty }

def writeReport (s : Session) : Session :=
  { s with reports := s.reports ++ [s.table.report] }

def extendUniversal (s : Session) (elements : List Element) : Session :=
  { s with env := s.env.extendUniversal elements }

/-- The references whose names are not among those already seen, the first one of
each name. -/
def firstOfEachName (seen : List String) : List Reference → List Reference
  | [] => []
  | r :: rest =>
    if r.name ∈ seen then firstOfEachName seen rest
    else r :: firstOfEachName (r.name :: seen) rest

end Session

/-- A fault for each name in the expressions that has no set, at its first place. -/
def Environment.missingReferences (env : Environment) (exprs : List Expr) : List Diagnostic :=
  let references := exprs.flatMap Expr.references
  let missing := references.filter fun r => !env.sets.contains r.name
  (Session.firstOfEachName [] missing).map fun r =>
    .single r.span (.undefinedSet r.name (env.similarNames r.name))

namespace Session

def define (s : Session) (name : String) (expr : Expr) : Verdict × Session :=
  match s.env.missingReferences [expr] with
  | d :: ds => (.error (d :: ds), s)
  | [] =>
    match expr.evaluate.start s.env with
    | .error d state => (.error [d], { s with env := state.env })
    | .ok value state =>
      let set := value.toSet
      let (new, env) := state.env.define name set
      (.ok (.defined name set new), { s with env := env })

/-- Looks a signature up in the table and simplifies it where the table asks for
that, in which case a report is written. -/
def simplify (s : Session) (name : String) (signature : Signature) : Simplification × Session :=
  let (answer, table, journal) := s.table.simplify name signature s.passes s.journal
  let s := { s with table := table, journal := journal }
  (answer.entry, if answer.recomputed then s.writeReport else s)

/-- Performs an operation and stores its result under a name. -/
def operate (s : Session) (name : String) (expr : Expr) : Verdict × Session :=
  match s.env.missingReferences [expr] with
  | d :: ds => (.error (d :: ds), s)
  | [] =>
    match expr.evaluate.start s.env with
    | .error d state => (.error [d], { s with env := state.env })
    | .ok (.set set own) state =>
      let s := { s with env := state.env }
      match state.trace.canonical with
      | none =>
        (.ok (.operated name set own none), { s with env := (s.env.define name set).2 })
      | some application =>
        let (entry, s) := s.simplify name application.signature
        (.ok (.operated name set application.signature (some entry)),
          { s with env := (s.env.define name set).2 })
    | .ok value state =>
      (.error [.single expr.span (.expectedOperation value.kind)], { s with env := state.env })

/-- Evaluates every expression, even after one that fails: the values and the
faults, both in order, and the environment afterwards. -/
def evaluateEach (env : Environment) : List Expr → (List Value × List Diagnostic) × Environment
  | [] => (([], []), env)
  | e :: es =>
    match e.evaluate.start env with
    | .ok value state =>
      let ((values, faults), env) := evaluateEach state.env es
      ((value :: values, faults), env)
    | .error d state =>
      let ((values, faults), env) := evaluateEach state.env es
      ((values, d :: faults), env)

def evaluate (s : Session) (elements : List Expr) (operation : String) (span : Span) :
    Verdict × Session :=
  match s.env.sets.find? operation with
  | none => (.error [.single span (.undefinedOperation operation)], s)
  | some target =>
    match s.env.missingReferences elements with
    | d :: ds => (.error (d :: ds), s)
    | [] =>
      match evaluateEach s.env elements with
      | ((_, d :: ds), env) => (.error (d :: ds), { s with env := env })
      | ((values, []), env) =>
        let tested := values.flatMap Value.elements
        (.ok (.evaluated operation (tested.map fun e => ⟨e, target.contains e⟩)),
          { s with env := env })

def execute (s : Session) : Instruction → Verdict × Session
  | .define name expr _ => s.define name expr
  | .operate name expr _ => s.operate name expr
  | .evaluate elements operation span => s.evaluate elements operation span

def executeAll (s : Session) : List Instruction → List Verdict × Session
  | [] => ([], s)
  | i :: is =>
    let (verdict, s) := s.execute i
    let (verdicts, s) := s.executeAll is
    (verdict :: verdicts, s)

/-- Runs a program: forgets what was before, writes a report of the empty table, and
executes the instructions in order. -/
def run (s : Session) (instructions : List Instruction) : List Verdict × Session :=
  s.reset.writeReport.executeAll instructions

end Session
end SetLaws
