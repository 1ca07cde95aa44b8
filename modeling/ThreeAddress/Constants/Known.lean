/-
What is known about the values of variables at a point of a program. A variable
is bound to a constant, or it is blocked, or nothing is noted about it. A
blocked variable stays blocked: binding it or forgetting it changes nothing.
-/
import ThreeAddress.Operand
import ThreeAddress.Table

namespace ThreeAddress.Constants

/-- What is noted about a variable. -/
inductive Note where
  | value (c : Constant)
  /-- The variable is assigned in a loop around this point and never bound there. -/
  | blocked
deriving DecidableEq, Repr

/-- What is noted about variables. -/
structure Known where
  notes : Table Variable Note := {}
deriving DecidableEq, Repr

namespace Known

/-- The constant that a variable is bound to. -/
def value? (known : Known) (v : Variable) : Option Constant :=
  match known.notes.get? v with
  | some (.value c) => some c
  | _ => none

/-- Whether a variable is blocked. -/
def isBlocked (known : Known) (v : Variable) : Bool :=
  known.notes.get? v = some .blocked

/-- Binds a variable to a constant, unless it is blocked. -/
def bind (known : Known) (v : Variable) (c : Constant) : Known :=
  if known.isBlocked v then known else ⟨known.notes.put v (.value c)⟩

/-- Blocks a variable. -/
def block (known : Known) (v : Variable) : Known :=
  ⟨known.notes.put v .blocked⟩

/-- Forgets what a variable is bound to. -/
def forget (known : Known) (v : Variable) : Known :=
  if known.isBlocked v then known else ⟨known.notes.erase v⟩

/-- Forgets what the variables of a frame are bound to. -/
def forgetFrame (known : Known) (frame : Frame) : Known :=
  ⟨known.notes.filter fun v note => note = .blocked ∨ v.frame ≠ frame⟩

/-- Forgets everything that an opcode may change besides its destination: frames are exchanged by
frame instructions, calls and returns, and a call may also store into the global frame. -/
def forgetFrames (known : Known) (changesFrames calls : Bool) : Known :=
  let known := if changesFrames then (known.forgetFrame .lf).forgetFrame .tf else known
  if calls then known.forgetFrame .gf else known

end Known

end ThreeAddress.Constants
