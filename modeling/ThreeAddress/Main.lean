/-
The command-line program: reads the file that the arguments name and shows the
report on it.
-/
import ThreeAddress.CommandLine.Report

namespace ThreeAddress.CommandLine

/-- The bytes of a file, if it can be read. -/
def readFile? (name : String) : IO (Option ByteArray) := do
  try
    return some (← IO.FS.readBinFile name)
  catch _ =>
    return none

/-- How the program is called. -/
def usageText : String :=
  "Usage: [-v N] check FILE\n" ++
  "       [-v N] optimise FILE [-p PASS]... [-i N] [-a]\n"

/-- Reads the file, shows the report and gives the exit code. -/
def perform (words : List String) : IO UInt32 := do
  match Request.ofWords? words with
  | none =>
    (← IO.getStderr).putStr usageText
    return 2
  | some request =>
    let report := execute request (← readFile? request.file)
    (← IO.getStdout).putStr report.stdout
    (← IO.getStderr).putStr report.stderr
    return UInt32.ofNat report.exit

end ThreeAddress.CommandLine

/-- The program. -/
def main (words : List String) : IO UInt32 :=
  ThreeAddress.CommandLine.perform words
