/-
The written form of a program: a header line and one line per instruction. The
annotated form adds the boundary markers as a comment, in a fixed order, so that
they are there again when the listing is read.
-/
import ThreeAddress.Instruction

namespace ThreeAddress.Listing

/-- The first line of every listing. -/
def header : String := ".IFJcode17"

/-- The words for a set of markers, in the order in which they are written. -/
def annotations (m : Markers) : List String :=
  (if m.functionStart then ["@function-start"] else []) ++
  (if m.functionEnd then ["@function-end"] else []) ++
  (if m.expressionStart then ["@expression-start"] else []) ++
  (if m.expressionEnd then ["@expression-end"] else [])

/-- An instruction with its markers in a comment, if it has any. -/
def annotatedLine (i : Instruction) : String :=
  match annotations i.markers with
  | [] => i.render
  | words => i.render ++ " # " ++ String.intercalate " " words

/-- Lines with a line feed after each. -/
def joinLines (lines : List String) : String :=
  lines.foldl (fun text line => text ++ line ++ "\n") ""

/-- The listing of a program without markers. -/
def plain (code : List Instruction) : String :=
  joinLines (header :: code.map Instruction.render)

/-- The listing of a program with its markers as comments. -/
def annotated (code : List Instruction) : String :=
  joinLines (header :: code.map annotatedLine)

end ThreeAddress.Listing
