/-
Strongly connected components, found by one depth-first search. Nodes get numbers
in the order in which they are visited and wait on a stack until their component
is complete. Every node being worked on keeps the lowest number of a node on the
stack that it was seen to lead to, its lowlink, and hands it to the node it was
visited from when it is left. A node left with its own number as its lowlink is
the first visited of its component, and the component is what the stack holds down
to that node. Components come out behind the ones that they lead to; those without
a cycle are left out.

The search keeps its own stack of nodes being worked on, so it goes on step by
step. Reading a table outside its bounds leaves no next state.
-/
import ThreeAddress.Graph

namespace ThreeAddress.Graph

variable {α : Type}

/-- Inserts a number into an ascending list, before those that are not lower. -/
def insertSorted (n : Nat) : List Nat → List Nat
  | [] => [n]
  | m :: rest => if n ≤ m then n :: m :: rest else m :: insertSorted n rest

/-- The numbers of a list in ascending order. -/
def sorted (numbers : List Nat) : List Nat :=
  numbers.foldr insertSorted []

/-- What the search for components knows about the nodes. -/
structure Marks where
  /-- For every slot, the number given to its node. -/
  index : Array (Option Nat)
  /-- For every slot, the lowlink of its node. -/
  lowlink : Array Nat
  /-- For every slot, whether its node is on the stack. -/
  onStack : Array Bool
  /-- The nodes whose component is not complete, last visited first. -/
  stack : List Nat := []
  nextIndex : Nat := 0
  /-- The components with a cycle, in the order in which they were completed. -/
  found : List (List Nat) := []
deriving DecidableEq, Repr

namespace Marks

/-- Gives a node the next number and puts it on the stack. -/
def visit (m : Marks) (id : Nat) : Marks :=
  { m with
    index := m.index.setIfInBounds id (some m.nextIndex)
    lowlink := m.lowlink.setIfInBounds id m.nextIndex
    onStack := m.onStack.setIfInBounds id true
    stack := id :: m.stack
    nextIndex := m.nextIndex + 1 }

/-- Lowers the lowlink of a node to a number, if it is not lower. -/
def lower (m : Marks) (id number : Nat) : Marks :=
  { m with lowlink := m.lowlink.modify id (min · number) }

/-- What a stack holds down to a node, that node included, and the rest of it. -/
def popTo (id : Nat) : List Nat → List Nat × List Nat
  | [] => ([], [])
  | top :: rest =>
    if top = id then ([top], rest) else (top :: (popTo id rest).1, (popTo id rest).2)

/-- Takes the component that ends with a node off the stack, and keeps it if it has a cycle. -/
def close (g : Graph α) (m : Marks) (id : Nat) : Marks :=
  let component := (popTo id m.stack).1
  { m with
    stack := (popTo id m.stack).2
    onStack := component.foldl (fun marks member => marks.setIfInBounds member false) m.onStack
    found :=
      if component.length > 1 || g.hasEdge id id then m.found ++ [sorted component] else m.found }

end Marks

/-- Where the search for components stands. -/
structure Descent extends Marks where
  /-- The nodes being worked on, last visited first, with the successors still to look at. -/
  work : List (Nat × List Nat) := []
  /-- The nodes from which the search has still to start. -/
  roots : List Nat
deriving DecidableEq, Repr

namespace Descent

/-- A search that has visited nothing. -/
def start (g : Graph α) : Descent where
  index := Array.replicate g.nodes.size none
  lowlink := Array.replicate g.nodes.size 0
  onStack := Array.replicate g.nodes.size false
  roots := g.ids

/-- Visits a node and begins to work on it. -/
def enter (g : Graph α) (s : Descent) (id : Nat) : Descent :=
  { s with toMarks := s.visit id, work := (id, g.successors id) :: s.work }

/-- Looks at a successor of the node being worked on: enters it, or lowers the lowlink of the node
if the successor is on the stack. -/
def look? (g : Graph α) (s : Descent) (id next : Nat) : Option Descent := do
  match ← s.index[next]? with
  | none => some (s.enter g next)
  | some number =>
    if ← s.onStack[next]? then some { s with toMarks := s.lower id number } else some s

/-- Hands a lowlink to the node worked on last, if there is one. -/
def hand (s : Descent) (low : Nat) : Descent :=
  match s.work with
  | [] => s
  | (parent, _) :: _ => { s with toMarks := s.lower parent low }

/-- Ends the work on a node: its lowlink goes to the node it was visited from, and its component
is closed if it was the first visited one. -/
def leave? (g : Graph α) (s : Descent) (id : Nat) : Option Descent := do
  let low ← s.lowlink[id]?
  let number ← s.index[id]?
  let left := s.hand low
  if number = some low then some { left with toMarks := left.close g id } else some left

/-- The next state of a search, if it has one. -/
def step? (g : Graph α) (s : Descent) : Option Descent :=
  match s.work with
  | (id, next :: pending) :: work => look? g { s with work := (id, pending) :: work } id next
  | (id, []) :: work => leave? g { s with work } id
  | [] =>
    match s.roots with
    | [] => none
    | root :: roots => do
      match ← s.index[root]? with
      | none => some ({ s with roots }.enter g root)
      | some _ => some { s with roots }

/-- The state after a number of steps, if there were as many. -/
def run (g : Graph α) : Nat → Descent → Option Descent
  | 0, s => some s
  | steps + 1, s => (s.step? g).bind (run g steps)

/-- Whether nothing is left to do. -/
def finished (s : Descent) : Bool :=
  s.work.isEmpty && s.roots.isEmpty

end Descent

/-- The strongly connected components that have a cycle, each ascending. Every node is looked at as
a root, every edge is looked at once and every node is left once, which is how many steps there
are. -/
def components? (g : Graph α) : Option (List (List Nat)) :=
  ((Descent.start g).run g (2 * g.size + g.edgeCount)).bind fun s =>
    if s.finished then some s.found else none

/-- The same for callers that know that the search ends. -/
def components (g : Graph α) : List (List Nat) :=
  g.components?.getD []

end ThreeAddress.Graph
