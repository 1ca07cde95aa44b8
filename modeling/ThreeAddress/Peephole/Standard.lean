/-
The standard peephole rules. An empty frame is dropped, a jump to the next
instruction is dropped together with its label if nothing else refers to it, a
push that is popped at once becomes a move, and of two moves into one variable
the first is dropped unless the second reads it.
-/
import ThreeAddress.Peephole.Rule

namespace ThreeAddress.Peephole

/-- A frame that is created, pushed and popped without use. -/
def emptyFrame : Rule where
  name := "empty frame"
  pattern := [⟨.createframe, []⟩, ⟨.pushframe, []⟩, ⟨.popframe, []⟩]
  replacement := []

/-- A jump to the next instruction, which nothing else refers to. -/
def soleJumpToNext : Rule where
  name := "jump to next, sole reference"
  pattern :=
    [⟨.jump, [.named "l" (some .anyLabel) (some (.exactly 1))]⟩,
     ⟨.label, [.named "l" none none]⟩]
  replacement := []

/-- A jump to the next instruction, which something else refers to. -/
def jumpToNext : Rule where
  name := "jump to next"
  pattern :=
    [⟨.jump, [.named "l" (some .anyLabel) (some (.atLeast 2))]⟩,
     ⟨.label, [.named "l" none none]⟩]
  replacement := [⟨.label, ["l"]⟩]

/-- A value that is pushed and popped at once. -/
def pushPop : Rule where
  name := "push then pop"
  pattern :=
    [⟨.pushs, [.named "a" none none]⟩,
     ⟨.pops, [.named "b" (some .anyVariable) none]⟩]
  replacement := [⟨.move, ["b", "a"]⟩]

/-- A move whose result the next move overwrites without reading it. -/
def overwrittenMove : Rule where
  name := "overwritten move"
  pattern :=
    [⟨.move, [.named "a" (some .anyVariable) none, .any]⟩,
     ⟨.move, [.named "a" none none, .named "c" (some (.distinctFrom "a")) none]⟩]
  replacement := [⟨.move, ["a", "c"]⟩]

/-- The standard rules, in the order in which they are tried. -/
def standard : List Rule :=
  [emptyFrame, soleJumpToNext, jumpToNext, pushPop, overwrittenMove]

end ThreeAddress.Peephole
