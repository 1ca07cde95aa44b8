/-
Control statements and functions. The condition of an `if` or a loop is on the
data stack when it is tested. An open `if` keeps two labels, of the branch to be
tried next and of its end; an open loop keeps those of its end and its start.
-/
import ThreeAddress.Builder.Basic

namespace ThreeAddress.Builder

/-! ### Branches -/

/-- Goes to a fresh label if the value on the data stack is false; the label becomes that of the
next branch. -/
def branchIfFalse (b : Builder) : Builder :=
  let b := b.emitAll [op .pushs [truth false]]
  let (label, b) := b.freshLabel "if_else"
  let b := b.emitAll [op .jumpifeqs [.label label]]
  { b with conditionLabels := label :: b.conditionLabels }

/-- Opens an `if` whose condition is on the data stack. -/
def ifAfterExpression (b : Builder) : Builder :=
  let b := { b with controlDepth := b.controlDepth + 1 }
  let (label, b) := b.freshLabel "if_end"
  { b with conditionLabels := label :: b.conditionLabels }.branchIfFalse

/-- The refusal of a step that belongs to an `if`. -/
def noIf (b : Builder) : Outcome :=
  .refused (.unbalanced "if statement") b

/-- Ends the body of a branch by going to the end of the `if`. -/
def ifEndBlock (b : Builder) : Outcome :=
  match b.conditionLabels with
  | _ :: last :: _ => .done (b.emitAll [op .jump [.label last]])
  | _ => b.noIf

/-- Starts the condition of another branch. -/
def elseIfBefore (b : Builder) : Outcome :=
  match b.conditionLabels with
  | next :: rest => .done ({ b with conditionLabels := rest }.emitAll [op .label [.label next]])
  | [] => b.noIf

/-- Tests the condition of another branch. -/
def elseIfAfter (b : Builder) : Builder :=
  b.branchIfFalse

/-- Ends the body of a branch and starts the last branch, which has no condition. -/
def elseBlock (b : Builder) : Outcome :=
  match b.conditionLabels with
  | next :: last :: rest =>
    let b := b.emitAll [op .jump [.label last], op .label [.label next]]
    let (label, b) := b.freshLabel "if_else"
    .done { b with conditionLabels := label :: last :: rest }
  | _ => b.noIf

/-- Closes an `if`. -/
def ifAfterEnd (b : Builder) : Outcome :=
  match b.conditionLabels with
  | [] => b.noIf
  | [next] => ({ b with conditionLabels := [] }.emitAll [op .label [.label next]]).noIf
  | next :: last :: rest =>
    let b := { b with conditionLabels := rest }.emitAll
      [op .label [.label next], op .label [.label last]]
    match b.controlDepth with
    | 0 => .underflow
    | depth + 1 => .done { b with controlDepth := depth }

/-! ### Loops -/

/-- Opens a loop, before its condition. -/
def whileBefore (b : Builder) : Builder :=
  let b := { b with controlDepth := b.controlDepth + 1 }
  let (label, b) := b.freshLabel "while_start"
  let b := { b with loopLabels := label :: b.loopLabels }
  let (slot, b) := b.emit (op .label [.label label])
  { b with
    loopStart := if b.loopDepth = 0 then some slot else b.loopStart
    loopDepth := b.loopDepth + 1 }

/-- Tests the condition of a loop. -/
def whileAfter (b : Builder) : Builder :=
  let b := b.emitAll [op .pushs [truth false]]
  let (label, b) := b.freshLabel "while_end"
  let b := b.emitAll [op .jumpifeqs [.label label]]
  { b with loopLabels := label :: b.loopLabels }

/-- Closes a loop. -/
def whileEnd (b : Builder) : Outcome :=
  match b.loopLabels with
  | last :: start :: rest =>
    let b := { b with loopLabels := rest }.emitAll
      [op .jump [.label start], op .label [.label last]]
    match b.controlDepth, b.loopDepth with
    | controlDepth + 1, loopDepth + 1 =>
      .done { b with
        controlDepth, loopDepth
        loopStart := if loopDepth = 0 then none else b.loopStart }
    | _, _ => .underflow
  | _ => .refused (.unbalanced "while loop") { b with loopLabels := [] }

/-! ### Functions -/

/-- Starts the body of a function. -/
def functionHeader (b : Builder) (label : String) : Slot × Builder :=
  (b.mark { functionStart := true }).emit (op .label [.label label])

/-- Ends the body of a function. Without a return before, it gives back the implicit value of its
type. -/
def functionEnd (b : Builder) (type : DataType) : Slot × Builder :=
  let b := b.emitAll [op .pushs [.const type.implicitValue]]
  (b.mark { functionEnd := true }).emit (op .ret [])

/-- Returns from a function. -/
def returnStatement (b : Builder) : Slot × Builder :=
  b.emit (op .ret [])

/-- Calls a function. -/
def call (b : Builder) (label : String) : Slot × Builder :=
  b.emit (op .call [.label label])

end ThreeAddress.Builder
