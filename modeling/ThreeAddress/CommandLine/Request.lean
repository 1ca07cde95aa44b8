/-
What the command line asks for. The words are read from left to right. Before
the word that names the operation there may be a verbosity; after it come one
file and, for optimising, options in any place. An option that takes a value
takes it from the same word or from the next one, which must not look like an
option. A lone `--` ends the options.
-/
import ThreeAddress.Optimiser

namespace ThreeAddress.CommandLine

/-- The operations. -/
inductive Operation where
  | check
  | optimise
deriving DecidableEq, Repr

/-- The operation with a given name. -/
def Operation.ofName? : String → Option Operation
  | "check" => some .check
  | "optimise" => some .optimise
  | _ => none

/-- The options. -/
inductive Key where
  | verbose
  | pass
  | iterations
  | annotate
deriving DecidableEq, Repr

/-- Whether an option takes a value. -/
def Key.takesValue (key : Key) : Bool :=
  key ≠ .annotate

/-- The option with a given long name. -/
def Key.ofName? (operation : Option Operation) (name : String) : Option Key :=
  match operation, name with
  | none, "verbose" => some .verbose
  | some .optimise, "pass" => some .pass
  | some .optimise, "iterations" => some .iterations
  | some .optimise, "annotate" => some .annotate
  | _, _ => none

/-- The option with a given letter. -/
def Key.ofLetter? (operation : Option Operation) (letter : Char) : Option Key :=
  match operation, letter with
  | none, 'v' => some .verbose
  | some .optimise, 'p' => some .pass
  | some .optimise, 'i' => some .iterations
  | some .optimise, 'a' => some .annotate
  | _, _ => none

/-- What the words read so far say. -/
structure Progress where
  verbosity : Option Nat := none
  operation : Option Operation := none
  file : Option String := none
  passes : List Pass := []
  iterations : Option Nat := none
  annotate : Bool := false
  /-- The option whose value is the next word. -/
  awaited : Option Key := none
  /-- Whether the options have ended. -/
  ended : Bool := false
deriving DecidableEq, Repr

/-- Reads an unsigned number of at most sixty-four bits; a plus sign may stand before it. -/
def readCount? (text : List Char) : Option Nat :=
  let digits :=
    match text with
    | '+' :: rest => rest
    | text => text
  (Text.readNatural? digits).filter fun n => n < UInt64.size

namespace Progress

/-- Takes the value of an option. Only passes may be given more than once. -/
def take? (p : Progress) (key : Key) (value : List Char) : Option Progress :=
  let p := { p with awaited := none }
  match key with
  | .verbose =>
    if p.verbosity.isSome then none
    else (readCount? value).map fun n => { p with verbosity := some n }
  | .iterations =>
    if p.iterations.isSome then none
    else (readCount? value).map fun n => { p with iterations := some n }
  | .pass =>
    (Pass.ofName? (String.ofList value)).map fun pass => { p with passes := p.passes ++ [pass] }
  | .annotate => none

/-- Takes an option that has no value. -/
def takeFlag? (p : Progress) (key : Key) : Option Progress :=
  if key = .annotate ∧ p.annotate = false then some { p with annotate := true } else none

/-- Reads a word that is not an option: the operation first, then its file. -/
def takeWord? (p : Progress) (word : String) : Option Progress :=
  match p.operation with
  | none =>
    if p.ended then none
    else (Operation.ofName? word).map fun operation => { p with operation := some operation }
  | some _ => if p.file.isSome then none else some { p with file := some word }

/-- Reads a long option, given without its dashes. -/
def takeLong? (p : Progress) (text : List Char) : Option Progress :=
  let (name, value) :=
    match Text.cut? '=' text with
    | some (name, value) => (name, some value)
    | none => (text, none)
  match Key.ofName? p.operation (String.ofList name), value with
  | none, _ => none
  | some key, some value => if key.takesValue then p.take? key value else none
  | some key, none =>
    if key.takesValue then some { p with awaited := some key } else p.takeFlag? key

/-- Reads a group of option letters. An option with a value takes the rest of the group as its
value, after an equals sign if there is one. -/
def takeLetters? (p : Progress) : List Char → Option Progress
  | [] => some p
  | letter :: rest =>
    match Key.ofLetter? p.operation letter with
    | none => none
    | some key =>
      if key.takesValue then
        match rest with
        | [] => some { p with awaited := some key }
        | '=' :: value => p.take? key value
        | value => p.take? key value
      else (p.takeFlag? key).bind fun p => p.takeLetters? rest

/-- Reads one word. -/
def take1? (p : Progress) (word : String) : Option Progress :=
  match p.awaited, word.toList with
  | some _, '-' :: _ :: _ => none
  | some key, value => p.take? key value
  | none, text =>
    if p.ended then p.takeWord? word
    else
      match text with
      | ['-', '-'] => some { p with ended := true }
      | '-' :: '-' :: long => p.takeLong? long
      | '-' :: letter :: letters => p.takeLetters? (letter :: letters)
      | _ => p.takeWord? word

end Progress

/-- What the program is asked to do. -/
structure Request where
  verbosity : Nat
  operation : Operation
  file : String
  config : Optimiser.Config := {}
  annotate : Bool := false
deriving DecidableEq, Repr

/-- The request that complete progress stands for. -/
def Progress.request? (p : Progress) : Option Request :=
  match p.awaited, p.operation, p.file with
  | none, some operation, some file =>
    let config : Optimiser.Config := {}
    some {
      verbosity := p.verbosity.getD 1
      operation, file
      config := { config with
        passes := if p.passes.isEmpty then config.passes else p.passes
        iterationLimit := p.iterations.getD config.iterationLimit }
      annotate := p.annotate }
  | _, _, _ => none

/-- Reads the command line; `none` if it is not understood. -/
def Request.ofWords? (words : List String) : Option Request :=
  (words.foldlM Progress.take1? {}).bind Progress.request?

end ThreeAddress.CommandLine
