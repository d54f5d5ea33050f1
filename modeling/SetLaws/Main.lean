import SetLaws.CommandLine

/-!
# The program

Reads the arguments and the program, and shows what the run shows.
-/

namespace SetLaws
namespace CommandLine

partial def readAll (stream : IO.FS.Stream) (text : ByteArray) : IO ByteArray := do
  let chunk ← stream.read 65536
  if chunk.isEmpty then return text else readAll stream (text ++ chunk)

def readProgram : Option String → IO (Option String)
  | some path => do
    try return some (← IO.FS.readFile path) catch _ => return none
  | none => do
    return String.fromUTF8? (← readAll (← IO.getStdin) .empty)

/-- The path of the folder that holds a file, if the path names one. -/
def folderOf (path : String) : Option String :=
  match Directory.parentParts (Directory.splitPath path) with
  | [] => none
  | parts => some ("/".intercalate parts)

/-- Writes the report; what keeps it from being written is no failure. -/
def writeReport (path report : String) : IO Unit := do
  try
    match folderOf path with
    | some folder => IO.FS.createDirAll folder
    | none => pure ()
    IO.FS.writeFile path report
  catch _ => pure ()

def conclude (result : Result) : IO UInt32 := do
  for fault in result.faults do
    IO.eprintln ("error: " ++ fault.fault.message)
  IO.print result.shown
  return UInt32.ofNat result.exitCode.toNat

end CommandLine
end SetLaws

open SetLaws SetLaws.CommandLine

def main (args : List String) : IO UInt32 := do
  match readArguments .default args with
  | none => conclude (.silent .usage)
  | some .version => conclude version
  | some .help => conclude help
  | some (.run options) =>
    match ← readProgram options.program with
    | none => conclude (.silent .failure)
    | some text =>
      let result := runText options text
      match options.reportPath, result.report with
      | some path, some report => writeReport path report
      | _, _ => pure ()
      conclude result
