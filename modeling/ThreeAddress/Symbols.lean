/-
The registry of variables. A reference names one making of a variable, so two
variables that were made separately have different references even if they have
the same frame and name. The registry makes a variable when it is first asked for
and hands out the same reference ever after. The scratch variables of the
temporary frame are made and registered from the start, and the registry keeps
their references by index as well.
-/
import ThreeAddress.Operand
import ThreeAddress.Table

namespace ThreeAddress

/-- The variables made so far, and how to find them. -/
structure Symbols where
  /-- All variables in the order of their making; a reference is a place in this list. -/
  made : List Variable := []
  /-- The reference to the variable with a frame and a name. -/
  registered : Table (Frame × String) Nat := {}
  /-- The references to the scratch variables, by index. -/
  pad : List Nat := []
deriving DecidableEq, Repr

namespace Symbols

/-- The variable that a reference stands for. -/
def get? (symbols : Symbols) (reference : Nat) : Option Variable :=
  symbols.made[reference]?

/-- The reference to a variable that was asked for before, or that is a scratch variable. -/
def lookup? (symbols : Symbols) (frame : Frame) (name : String) : Option Nat :=
  symbols.registered.get? (frame, name)

/-- Makes a variable and registers it; gives its reference. -/
def make (symbols : Symbols) (frame : Frame) (name : String) : Nat × Symbols :=
  (symbols.made.length,
    { symbols with
      made := symbols.made ++ [⟨frame, name⟩]
      registered := symbols.registered.put (frame, name) symbols.made.length })

/-- The reference to a variable, which is made if it was not. -/
def intern (symbols : Symbols) (frame : Frame) (name : String) : Nat × Symbols :=
  match symbols.lookup? frame name with
  | some reference => (reference, symbols)
  | none => symbols.make frame name

/-- The reference to a variable of the global frame. -/
def internGlobal (symbols : Symbols) (name : String) : Nat × Symbols :=
  symbols.intern .gf name

/-- The reference to a variable of the local frame. -/
def internLocal (symbols : Symbols) (name : String) : Nat × Symbols :=
  symbols.intern .lf name

/-- Makes a scratch variable, registers it and keeps its reference. -/
def makeScratch (symbols : Symbols) (number : Nat) : Symbols :=
  let (reference, symbols) := symbols.make .tf (Variable.scratch number).name
  { symbols with pad := symbols.pad ++ [reference] }

/-- A registry that holds the scratch variables only. -/
def initial : Symbols :=
  (List.range Variable.scratchCount).foldl (fun symbols index => symbols.makeScratch (index + 1)) {}

/-- The reference to the scratch variable with a given number, counting from one. There is none for
another number. -/
def scratch? (symbols : Symbols) (number : Nat) : Option Nat :=
  if number = 0 then none else symbols.pad[number - 1]?

/-- The number of the scratch variable that a reference stands for, counting from one. -/
def scratchNumber? (symbols : Symbols) (reference : Nat) : Option Nat :=
  (symbols.pad.idxOf? reference).map (· + 1)

end Symbols

end ThreeAddress
