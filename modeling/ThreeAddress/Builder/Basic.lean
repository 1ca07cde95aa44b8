/-
Building code for a structured language. A builder holds the code written so
far, the labels of the statements that are open, and how deeply statements are
nested. Each operation is one point of a statement and appends the code for it.
An operation that closes a statement refuses if there is none to close; what it
had done before it noticed stays done.
-/
import ThreeAddress.Builder.Label
import ThreeAddress.Inconsistency
import ThreeAddress.Store

namespace ThreeAddress

open Builder (LabelSource)

/-- Code under construction. -/
structure Builder where
  store : Store := {}
  labels : LabelSource := {}
  /-- How many scopes are open. -/
  scopeDepth : Nat := 0
  /-- How many control statements are open. -/
  controlDepth : Nat := 0
  /-- How many loops are open. -/
  loopDepth : Nat := 0
  /-- Labels where the main scope or code behind a static declaration goes on, innermost first. -/
  codeLabels : List String := []
  /-- The labels of open `if` statements, innermost first: first the next branch, then the end. -/
  conditionLabels : List String := []
  /-- The labels of open loops, innermost first: first the end, then the start. -/
  loopLabels : List String := []
  /-- The first instruction of the outermost open loop. Declarations inside go before it. -/
  loopStart : Option Slot := none
  /-- The jump into the main scope. Flags of static variables are declared before it. -/
  entry : Option Slot := none
  /-- The markers of the next instruction. -/
  pending : Markers := {}
deriving DecidableEq, Repr

namespace Builder

/-- How an operation that closes something ends. -/
inductive Outcome where
  | done (builder : Builder)
  /-- There was nothing to close; the builder is as the operation left it. -/
  | refused (cause : Inconsistency) (builder : Builder)
  /-- More control statements or loops were closed than opened. -/
  | underflow
deriving DecidableEq, Repr

/-- The instruction with the given opcode and operands. -/
def op (opcode : Opcode) (operands : List Operand) : Instruction :=
  { opcode, operands }

/-- A truth value as an operand. -/
def truth (value : Bool) : Operand :=
  .const (.bool value)

/-- An integer as an operand. -/
def number (value : Int32) : Operand :=
  .const (.int value)

/-- A string as an operand. -/
def literal (value : String) : Operand :=
  .const (.string value)

/-- Appends an instruction, which takes the pending markers. -/
def emit (b : Builder) (i : Instruction) : Slot × Builder :=
  let (slot, store) := b.store.append { i with markers := i.markers.union b.pending }
  (slot, { b with store, pending := {} })

/-- Appends instructions. -/
def emitAll (b : Builder) (code : List Instruction) : Builder :=
  code.foldl (fun b i => (b.emit i).2) b

/-- Inserts an instruction before a slot; it is dropped if the slot is no longer used. -/
def insertBefore (b : Builder) (i : Instruction) (anchor : Slot) : Builder :=
  match b.store.insertBefore? i anchor with
  | some (_, store) => { b with store }
  | none => b

/-- A fresh label. -/
def freshLabel (b : Builder) (purpose : String) : String × Builder :=
  let (label, labels) := b.labels.next purpose b.controlDepth
  (label, { b with labels })

/-- Adds markers to those of the next instruction. -/
def mark (b : Builder) (markers : Markers) : Builder :=
  { b with pending := b.pending.union markers }

/-! ### Scopes and declarations -/

/-- Writes the jump from the start of the program to the main scope. -/
def startCode (b : Builder) : Slot × Builder :=
  let (label, b) := b.freshLabel "main_scope"
  let b := { b with codeLabels := label :: b.codeLabels }
  let (slot, b) := b.emit (op .jump [.label label])
  (slot, { b with entry := some slot })

/-- Opens a scope. The outermost one is the main scope, which gets a frame of its own. -/
def scopeStart (b : Builder) : Outcome :=
  if b.scopeDepth = 0 then
    match b.codeLabels with
    | [] => .refused (.unbalanced "main scope") b
    | label :: rest =>
      let b := { b with codeLabels := rest }
      let b := b.emitAll [op .label [.label label], op .createframe [], op .pushframe []]
      .done { b with scopeDepth := b.scopeDepth + 1 }
  else .done { b with scopeDepth := b.scopeDepth + 1 }

/-- Closes a scope. -/
def scopeEnd (b : Builder) : Outcome :=
  match b.scopeDepth with
  | 0 => .refused (.unbalanced "scope") b
  | depth + 1 =>
    let b := { b with scopeDepth := depth }
    .done (if depth = 0 then b.emitAll [op .popframe []] else b)

/-- Declares a variable and gives it the implicit value of its type. Inside a loop the declaration
goes before the outermost loop, so that it is executed once. -/
def declare (b : Builder) (v : Variable) (type : DataType) : Builder :=
  let declaration := op .defvar [.var v]
  let b :=
    match b.loopStart with
    | some start => b.insertBefore declaration start
    | none => b.emitAll [declaration]
  b.emitAll [op .move [.var v, .const type.implicitValue]]

/-- The flag that says whether a static variable of a function was given its value. -/
def staticFlag (function name : String) : Variable :=
  ⟨.gf, "IS_DECLARED__" ++ function ++ "_" ++ name⟩

/-- Inserts an instruction before an anchor, or appends it unmarked if there is none. -/
def insertAtFront (b : Builder) (i : Instruction) : Option Slot → Builder
  | some anchor => b.insertBefore i anchor
  | none => { b with store := (b.store.append i).2 }

/-- Opens the declaration of a static variable of a function. The variable lives in the global
frame and gets its value once, guarded by a flag that is declared before the program. -/
def staticStart (b : Builder) (function name : String) (type : DataType) : Variable × Builder :=
  let (skip, b) := b.freshLabel ("DECLARED__" ++ function ++ "_" ++ name)
  let b := { b with codeLabels := skip :: b.codeLabels }
  let flag := staticFlag function name
  let v : Variable := ⟨.gf, name⟩
  let anchor := b.entry.or b.store.first?
  let b := b.insertAtFront (op .defvar [.var flag]) anchor
  let b := b.insertAtFront (op .move [.var flag, truth false]) anchor
  (v, b.emitAll [
    op .jumpifeq [.label skip, truth true, .var flag],
    op .defvar [.var v],
    op .move [.var v, .const type.implicitValue]])

/-- Closes the declaration of a static variable. -/
def staticEnd (b : Builder) (function name : String) : Outcome :=
  match b.codeLabels with
  | [] => .refused (.unbalanced "static declaration") b
  | skip :: rest =>
    let b := { b with codeLabels := rest }
    .done (b.emitAll [
      op .move [.var (staticFlag function name), truth true],
      op .label [.label skip]])

/-! ### Input, output and expressions -/

/-- Asks for a value and reads it into a variable. -/
def input (b : Builder) (v : Variable) (type : DataType) : Builder :=
  b.emitAll [op .write [literal "? "], op .read [.var v, .type type]]

/-- Writes the value on top of the data stack, by way of a variable. -/
def print (b : Builder) (v : Variable) : Builder :=
  b.emitAll [op .pops [.var v], op .write [.var v]]

/-- Makes the next instruction the start of an expression. -/
def expressionStart (b : Builder) : Builder :=
  b.mark { expressionStart := true }

/-- Ends an expression by storing its value in a variable. -/
def expressionEnd (b : Builder) (v : Variable) : Slot × Builder :=
  (b.mark { expressionEnd := true }).emit (op .pops [.var v])

/-- Removes the instruction at a slot; gives the slot that followed. -/
def remove (b : Builder) (slot : Slot) : Option Slot × Builder :=
  let (next, store) := b.store.remove slot
  (next, { b with store })

end Builder

end ThreeAddress
