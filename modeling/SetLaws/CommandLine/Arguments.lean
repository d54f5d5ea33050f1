import SetLaws.Simplification
import SetLaws.Text

/-!
# Arguments of the command line

At most one program, the path of the report or the wish for none, the number of
passes, and flags.  Options can be written long, with their value after an equals
sign or in the next argument, or short, alone or several in one argument.  Nothing
may be given twice, and after `--` every argument is a path.
-/

namespace SetLaws
namespace CommandLine

structure Options where
  /-- The path of the program; it is read from the standard input without one. -/
  program : Option String
  report : Option String
  noReport : Bool
  passes : Option Nat
  verbose : Bool
deriving DecidableEq, Repr

namespace Options

def default : Options := ⟨none, none, false, none, false⟩

/-- Where the report goes unless another path is given. -/
def defaultReport : String := "JSON/simplificaciones.json"

def reportPath (o : Options) : Option String :=
  if o.noReport then none else some (o.report.getD defaultReport)

def maxPasses (o : Options) : Nat :=
  o.passes.getD Signature.defaultPasses

def withProgram (o : Options) (path : String) : Option Options :=
  if o.program.isSome || path.isEmpty then none else some { o with program := some path }

end Options

inductive Setting where
  | report
  | passes
deriving DecidableEq, Repr

inductive Flag where
  | noReport
  | verbose
  | version
  | help
deriving DecidableEq, Repr

inductive Request where
  | run (options : Options)
  | version
  | help
deriving DecidableEq, Repr

def longOption : String → Option (Setting ⊕ Flag)
  | "report" => some (.inl .report)
  | "max-iterations" => some (.inl .passes)
  | "no-report" => some (.inr .noReport)
  | "verbose" => some (.inr .verbose)
  | "version" => some (.inr .version)
  | "help" => some (.inr .help)
  | _ => none

def shortOption : Char → Option (Setting ⊕ Flag)
  | 'r' => some (.inl .report)
  | 'm' => some (.inl .passes)
  | 'v' => some (.inr .verbose)
  | 'V' => some (.inr .version)
  | 'h' => some (.inr .help)
  | _ => none

/-- The options with a setting, unless it is there already or its value is wrong. -/
def Options.withSetting (o : Options) (setting : Setting) (value : String) : Option Options :=
  match setting with
  | .report =>
    if o.report.isSome || value.isEmpty then none else some { o with report := some value }
  | .passes =>
    if o.passes.isSome then none
    else (Text.readCount value).map fun n => { o with passes := some n }

inductive Step where
  /-- The arguments that follow are read with the given options. -/
  | proceed (options : Options)
  /-- The next argument is the value of a setting. -/
  | needsValue (options : Options) (setting : Setting)
  /-- The arguments that follow do not matter. -/
  | stop (request : Request)
  | fail
deriving DecidableEq, Repr

def Step.ofOptions : Option Options → Step
  | some o => .proceed o
  | none => .fail

/-- What a flag leads to.  The version and the help are answered at once. -/
def Flag.step (o : Options) : Flag → Step
  | .noReport => if o.noReport then .fail else .proceed { o with noReport := true }
  | .verbose => if o.verbose then .fail else .proceed { o with verbose := true }
  | .version => .stop .version
  | .help => .stop .help

/-- What a long option leads to, from its name and the value after an equals sign. -/
def longStep (o : Options) (name : String) (value : Option String) : Step :=
  match longOption name, value with
  | some (.inl setting), some value => .ofOptions (o.withSetting setting value)
  | some (.inl setting), none => .needsValue o setting
  | some (.inr flag), none => flag.step o
  | some (.inr _), some _ => .fail
  | none, _ => .fail

/-- The value that follows the letter of a setting in the same argument. -/
def attachedValue : List Char → String
  | '=' :: cs => String.ofList cs
  | cs => String.ofList cs

def shortSteps (o : Options) : List Char → Step
  | [] => .proceed o
  | c :: cs =>
    match shortOption c with
    | none => .fail
    | some (.inl setting) =>
      if cs.isEmpty then .needsValue o setting
      else .ofOptions (o.withSetting setting (attachedValue cs))
    | some (.inr flag) =>
      match flag.step o with
      | .proceed o => shortSteps o cs
      | step => step

/-- The text before the first equals sign and the one after it. -/
def splitValue (cs : List Char) : String × Option String :=
  match cs.dropWhile (· ≠ '=') with
  | _ :: value => (String.ofList (cs.takeWhile (· ≠ '=')), some (String.ofList value))
  | [] => (String.ofList cs, none)

def argumentStep (o : Options) (arg : String) : Step :=
  match arg.toList with
  | '-' :: '-' :: cs =>
    let (name, value) := splitValue cs
    longStep o name value
  | '-' :: c :: cs => shortSteps o (c :: cs)
  | _ => .ofOptions (o.withProgram arg)

def isOption (arg : String) : Bool :=
  match arg.toList with
  | '-' :: _ :: _ => true
  | _ => false

def readPaths (o : Options) : List String → Option Options
  | [] => some o
  | arg :: args => (o.withProgram arg).bind (readPaths · args)

/-- A run with the given options, unless they exclude each other. -/
def Request.ofOptions (o : Options) : Option Request :=
  if o.noReport && o.report.isSome then none else some (.run o)

/-- Reads arguments; there is no request when they are wrong. -/
def readArguments (o : Options) : List String → Option Request
  | [] => Request.ofOptions o
  | arg :: args =>
    if arg = "--" then (readPaths o args).bind Request.ofOptions
    else match argumentStep o arg with
      | .fail => none
      | .stop request => some request
      | .proceed o => readArguments o args
      | .needsValue o setting =>
        match args with
        | [] => none
        | value :: args =>
          if isOption value then none
          else match o.withSetting setting value with
            | some o => readArguments o args
            | none => none

end CommandLine
end SetLaws
