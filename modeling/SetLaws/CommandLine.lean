import SetLaws.CommandLine.Arguments
import SetLaws.CommandLine.Directory
import SetLaws.Json
import SetLaws.Program.Decode
import SetLaws.Session

/-!
# The command line

Runs a program and shows the outcomes of its instructions.  The exit code says
whether all went well; the report of the simplifications goes to a file.
-/

namespace SetLaws
namespace CommandLine

inductive ExitCode where
  | success
  /-- The program could not be read, or an instruction failed. -/
  | failure
  | usage
  /-- The places that a fault concerns cannot be marked in the source. -/
  | aborted
deriving DecidableEq, Repr

/-- The number that stands for the way in which a run ended. -/
def ExitCode.toNat : ExitCode → Nat
  | .success => 0
  | .failure => 1
  | .usage => 2
  | .aborted => 101

def lineText (lines : List String) : String :=
  String.join (lines.map (· ++ "\n"))

/-- The lines of a text; one without line breaks is a line itself. -/
def textLines (text : String) : List String :=
  (text.toList.splitOn '\n').map String.ofList

structure Result where
  exitCode : ExitCode
  /-- What is shown of the instructions and of the universal set. -/
  lines : List String
  /-- The entries of the named sets, which are shown behind that. -/
  listing : List String
  report : Option String
  faults : List Diagnostic
deriving Repr

namespace Result

/-- A run that ends before there is anything to show. -/
def silent (exitCode : ExitCode) : Result := ⟨exitCode, [], [], none, []⟩

def shown (r : Result) : String :=
  lineText (r.lines ++ r.listing)

/-- What is shown, with the lines of the listing in increasing order, so that runs can be compared
which list the sets in different orders. -/
def output (r : Result) : String :=
  lineText (r.lines ++ (r.listing.flatMap textLines).mergeSort fun a b => a ≤ b)

end Result

/-- A named set as it is listed. -/
def entryText (p : String × ElementSet) : String :=
  p.1 ++ " = " ++ p.2.display

/-- The entries of the named sets, in increasing order. -/
def listing (env : Environment) : List String :=
  (env.sets.entries.map entryText).mergeSort fun a b => a ≤ b

def outcomes (verdicts : List Verdict) : List Outcome :=
  verdicts.filterMap fun verdict => verdict.toOption

def faults (verdicts : List Verdict) : List Diagnostic :=
  verdicts.flatMap fun verdict =>
    match verdict with
    | .ok _ => []
    | .error faults => faults

def allSucceed (verdicts : List Verdict) : Bool :=
  verdicts.all fun verdict => verdict.toOption.isSome

/-- Whether a verdict can be shown: its faults have to be marked in the source. -/
def canShow (source : String) : Verdict → Bool
  | .ok _ => true
  | .error faults => faults.all (·.fits source)

def exitCode (source : String) (verdicts : List Verdict) : ExitCode :=
  if !verdicts.all (canShow source) then .aborted
  else if allSucceed verdicts then .success
  else .failure

/-- Runs a program in a new session.  Faults are marked in the source that the program
carries, or else in its own text.  After all instructions the verdicts are shown in
order, up to the first one that cannot be shown, which aborts the run. -/
def runProgram (options : Options) (text : String) (program : Program) : Result :=
  let source := program.source.getD text
  let (verdicts, session) := (Session.start options.maxPasses).run program.instructions
  let shown := verdicts.takeWhile (canShow source)
  let atEnd := options.verbose && verdicts.all (canShow source)
  { exitCode := exitCode source verdicts
    lines := (outcomes shown).map Outcome.display ++
      if atEnd then [session.env.describeUniversal] else []
    listing := if atEnd then listing session.env else []
    report := session.reports.getLast?.map Json.pretty
    faults := faults shown }

/-- How a run ends whose text holds no program; a text without a first character
cannot be marked to show that. -/
def unreadable (text : String) : ExitCode :=
  if text.isEmpty then .aborted else .failure

/-- Runs the program that a text holds, if it holds one. -/
def runText (options : Options) (text : String) : Result :=
  match Program.read text with
  | some program => runProgram options text program
  | none => .silent (unreadable text)

def version : Result :=
  { Result.silent .success with lines := ["set-rs 0.1.0"] }

def help : Result :=
  { Result.silent .success with
    lines := [
      "Usage: set-rs [OPTIONS] [PROGRAM]",
      "",
      "Options:",
      "  -r, --report <REPORT>",
      "      --no-report",
      "  -m, --max-iterations <MAX_ITERATIONS>",
      "  -v, --verbose",
      "  -h, --help",
      "  -V, --version"] }

/-- Runs the command line on the standard input in a directory: the result, and the
directory afterwards. -/
def runIn (directory : Directory) (input : String) (args : List String) : Result × Directory :=
  match readArguments .default args with
  | none => (.silent .usage, directory)
  | some .version => (version, directory)
  | some .help => (help, directory)
  | some (.run options) =>
    let text := match options.program with
      | some path => directory.read path
      | none => some input
    match text with
    | none => (.silent .failure, directory)
    | some text =>
      let result := runText options text
      match options.reportPath, result.report with
      | some path, some report => (result, directory.write path report)
      | _, _ => (result, directory)

end CommandLine
end SetLaws
