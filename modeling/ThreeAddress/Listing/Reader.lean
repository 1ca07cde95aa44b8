/-
Reading a listing. The code of a line is what stands before the first `#`,
without white space around it. The first line with code has to be the header;
every later line with code is one instruction, whose comment may hold
annotations that mark it. The first line that breaks these rules is reported.
-/
import ThreeAddress.Instruction
import ThreeAddress.Listing.Error
import ThreeAddress.Listing.Writer
import ThreeAddress.Text.Lines

namespace ThreeAddress.Listing

/-- The code of a line and its comment. -/
def splitComment (line : List Char) : List Char × List Char :=
  match Text.cut? '#' line with
  | some (code, comment) => (Text.trim code, comment)
  | none => (Text.trim line, [])

/-- Reads what stands after the at sign of an operand. -/
def readValue (kind value word : List Char) : Except Fault Operand :=
  let invalid := Fault.invalidOperand (String.ofList word)
  let expect : Option Operand → Except Fault Operand := fun result =>
    match result with
    | some operand => .ok operand
    | none => .error invalid
  match String.ofList kind with
  | "GF" => .ok (.var ⟨.gf, String.ofList value⟩)
  | "LF" => .ok (.var ⟨.lf, String.ofList value⟩)
  | "TF" => .ok (.var ⟨.tf, String.ofList value⟩)
  | "int" => expect ((Text.readInt32? value).map fun n => .const (.int n))
  | "float" => expect ((Number.readBinary64? value).map fun x => .const (.float x))
  | "bool" =>
    match String.ofList value with
    | "true" => .ok (.const (.bool true))
    | "false" => .ok (.const (.bool false))
    | _ => .error invalid
  | "string" =>
    match Text.unescape? value with
    | some text => .ok (.const (.string (String.ofList text)))
    | none => .error (.invalidEscape (String.ofList word))
  | _ => .error invalid

/-- Reads the operand at an index of an instruction. -/
def readOperand (opcode : Opcode) (index : Nat) (word : List Char) : Except Fault Operand :=
  let invalid := Fault.invalidOperand (String.ofList word)
  if index = 0 ∧ (opcode.isJump ∨ opcode = .label) then .ok (.label (String.ofList word))
  else if index = 1 ∧ opcode = .read then
    match DataType.ofKeyword? (String.ofList word) with
    | some type => .ok (.type type)
    | none => .error invalid
  else
    match Text.cut? '@' word with
    | none => .error invalid
    | some (kind, value) =>
      match readValue kind value word with
      | .error fault => .error fault
      | .ok operand =>
        if opcode.definesTarget ∧ index = 0 ∧ operand.var? = none then .error invalid
        else .ok operand

/-- Reads the operands of an instruction from the given index on. -/
def readOperands (opcode : Opcode) : Nat → List (List Char) → Except Fault (List Operand)
  | _, [] => .ok []
  | index, word :: rest => do
    let operand ← readOperand opcode index word
    let others ← readOperands opcode (index + 1) rest
    return operand :: others

/-- Reads the code of a line. -/
def readCode (code : List Char) : Except Fault Instruction :=
  let mnemonic := (Text.words code).headD []
  let operands := (Text.words code).tail
  match Opcode.ofMnemonic? mnemonic with
  | none => .error (.unknownOpcode (String.ofList mnemonic))
  | some opcode =>
    if operands.length ≠ opcode.arity then .error (.arity opcode operands.length)
    else (readOperands opcode 0 operands).map fun operands => { opcode, operands }

/-- The markers that an annotation stands for. -/
def noteMarkers? (word : String) : Option Markers :=
  match word with
  | "@function-start" => some { functionStart := true }
  | "@function-end" => some { functionEnd := true }
  | "@expression-start" => some { expressionStart := true }
  | "@expression-end" => some { expressionEnd := true }
  | _ => none

/-- Collects the markers of annotation words. -/
def readAnnotations : List (List Char) → Except Fault Markers
  | [] => .ok {}
  | word :: rest =>
    match noteMarkers? (String.ofList word) with
    | none => .error (.unknownNote (String.ofList word))
    | some markers => (readAnnotations rest).map markers.union

/-- The words of a comment that are annotations. -/
def annotationWords (comment : List Char) : List (List Char) :=
  (Text.words comment).filter fun word => word.head? = some '@'

/-- Reads a line after the header; a line without code holds no instruction. -/
def readLine (line : List Char) : Except Fault (Option Instruction) :=
  let (code, comment) := splitComment line
  if code.isEmpty then .ok none
  else do
    let instruction ← readCode code
    let markers ← readAnnotations (annotationWords comment)
    return some { instruction with markers }

/-- Reads the lines after the header, the first of which has the given number. -/
def readBody : Nat → List (List Char) → Except Error (List Instruction)
  | _, [] => .ok []
  | number, line :: rest =>
    match readLine line with
    | .error fault => .error ⟨fault, number⟩
    | .ok none => readBody (number + 1) rest
    | .ok (some instruction) => (readBody (number + 1) rest).map (instruction :: ·)

/-- Reads lines up to the header and then the body. -/
def readHeader : Nat → List (List Char) → Except Error (List Instruction)
  | _, [] => .error ⟨.missingHeader, 1⟩
  | number, line :: rest =>
    let code := (splitComment line).1
    if code.isEmpty then readHeader (number + 1) rest
    else if Text.sameLetters code header.toList then readBody (number + 1) rest
    else .error ⟨.missingHeader, number⟩

/-- Reads a listing. -/
def read (source : String) : Except Error (List Instruction) :=
  readHeader 1 (Text.lines source.toList)

end ThreeAddress.Listing
