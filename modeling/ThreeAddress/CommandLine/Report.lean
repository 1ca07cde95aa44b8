/-
Carrying out a request. The result is all that the program shows: an exit code,
what it prints, and what it reports on the way. Messages have a level and are
shown up to the verbosity asked for.
-/
import ThreeAddress.CommandLine.Request
import ThreeAddress.Listing.Reader

namespace ThreeAddress.CommandLine

/-- What a run of the program shows. -/
structure Report where
  exit : Nat := 0
  stdout : String := ""
  stderr : String := ""
deriving DecidableEq, Repr

/-- How important a message is. -/
inductive Level where
  | error
  | warning
  | info
deriving DecidableEq, Repr

/-- The name of a level. -/
def Level.name : Level → String
  | .error => "ERROR"
  | .warning => "WARN"
  | .info => "INFO"

/-- The least verbosity at which a level is shown. -/
def Level.rank : Level → Nat
  | .error => 0
  | .warning => 1
  | .info => 2

/-- A message as it is shown at a verbosity. -/
def logLine (verbosity : Nat) (level : Level) (message : String) : String :=
  if level.rank ≤ verbosity then level.name ++ " - " ++ message ++ "\n" else ""

/-- The level of an event of the optimiser. -/
def eventLevel : Event → Level
  | .round _ _ => .info
  | .unsettled _ => .warning
  | .peepholeUnsettled _ => .warning

/-- The message for an event of the optimiser. -/
def eventMessage : Event → String
  | .round number changes =>
    "Optimiser iteration " ++ toString number ++ " made " ++ toString changes ++ " change(s)"
  | .unsettled limit =>
    "Optimiser did not settle within " ++ toString limit ++ " iterations"
  | .peepholeUnsettled limit =>
    "Peephole optimisation did not settle within " ++ toString limit ++ " passes"

/-- The messages for events, one after the other. -/
def eventLog (verbosity : Nat) (events : List Event) : String :=
  events.foldl (fun log event => log ++ logLine verbosity (eventLevel event) (eventMessage event))
    ""

/-- The final line of a run that failed. -/
def failureLine (message : String) : String :=
  "Error: " ++ message ++ "\n"

/-- How many bytes a text takes in UTF-8. -/
def byteWidth (text : List Char) : Nat :=
  (String.ofList text).utf8ByteSize

/-- A character many times. -/
def filled (c : Char) (count : Nat) : String :=
  String.ofList (List.replicate count c)

/-- Shows a faulty line with its number and marks it from its first character on. Widths are
those of the text in UTF-8. -/
def showLine (e : Listing.Error) (line : List Char) : String :=
  let line := Text.trimEnd line
  let marked := Text.trimStart line
  let number := toString e.line
  number ++ "| " ++ String.ofList line ++ "\n" ++
    filled ' ' number.utf8ByteSize ++ "| " ++ filled ' ' (byteWidth line - byteWidth marked) ++
    filled '^' (max (byteWidth marked) 1) ++ "--- " ++ e.fault.message ++ "\n"

/-- The report for a listing that cannot be read. -/
def unreadable (request : Request) (content : String) (e : Listing.Error) : Report where
  exit := 1
  stdout :=
    match (Text.lines content.toList)[e.line - 1]? with
    | some line => showLine e line
    | none => ""
  stderr :=
    logLine request.verbosity .error e.message ++
      failureLine ("'" ++ request.file ++ "' is not a valid listing")

/-- The report for an inconsistent program, after the messages so far. -/
def inconsistent (log : String) (cause : Inconsistency) : Report where
  exit := 1
  stderr := log ++ failureLine cause.message

/-- Checks a program for consistency. -/
def check (request : Request) (code : List Instruction) : Report :=
  match Usage.survey code with
  | .error cause => inconsistent "" cause
  | .ok (usage, surveyed) =>
    match Flow.build surveyed with
    | .error cause => inconsistent "" cause
    | .ok flow =>
      let message :=
        toString code.length ++ " instruction(s) in " ++ toString flow.size ++
        " basic block(s), " ++ toString usage.functions.size ++ " function(s), " ++
        toString usage.vars.size ++ " variable(s)"
      { stderr := logLine request.verbosity .info message }

/-- Optimises a program and prints it. -/
def optimise (request : Request) (code : List Instruction) : Report :=
  let run := Optimiser.optimise request.config code
  let log := eventLog request.verbosity run.events
  match run.failure with
  | some cause => inconsistent log cause
  | none =>
    let message :=
      "Reduced " ++ toString code.length ++ " instruction(s) to " ++ toString run.code.length
    { stdout := if request.annotate then Listing.annotated run.code else Listing.plain run.code
      stderr := log ++ logLine request.verbosity .info message }

/-- The report for a file that cannot be read. -/
def missing (request : Request) (cause : String) : Report where
  exit := 1
  stderr :=
    failureLine ("Could not read '" ++ request.file ++ "'\n\nCaused by:\n    " ++ cause)

/-- Carries out a request on the bytes of its file, if the file exists. -/
def execute (request : Request) (bytes : Option ByteArray) : Report :=
  match bytes with
  | none => missing request "No such file or directory (os error 2)"
  | some bytes =>
    match String.fromUTF8? bytes with
    | none => missing request "stream did not contain valid UTF-8"
    | some content =>
      match Listing.read content with
      | .error e => unreadable request content e
      | .ok code =>
        match request.operation with
        | .check => check request code
        | .optimise => optimise request code

/-- What the program shows for its arguments, given the files that exist. -/
def run (words : List String) (file? : String → Option ByteArray) : Report :=
  match Request.ofWords? words with
  | none => { exit := 2 }
  | some request => execute request (file? request.file)

end ThreeAddress.CommandLine
