/-
Constants across blocks. The control-flow graph is walked depth first, from
block zero and then from every block not reached, and each block is entered
once. A block that several blocks lead to, or that is called, starts with
nothing known; any other block starts from what its predecessor left. Behind a
conditional jump that is taken, this is what the nearest block on the way that
was not entered by such a jump left, less what the blocks since then may have
changed. In a block that lies on a loop, all variables assigned in the loop are
blocked.
-/
import ThreeAddress.Constants.Scan
import ThreeAddress.Edit
import ThreeAddress.Flow

namespace ThreeAddress.Constants

/-- What the walk knows about the graph before it starts. -/
structure Plan where
  flow : Flow
  /-- The summary of every block. -/
  summaries : Array Summary
  /-- The loops: blocks that can reach each other, and the variables assigned in them. -/
  loops : List (List Nat × List Variable)
deriving Repr

namespace Plan

/-- The summary of a block. -/
def summary (plan : Plan) (id : Nat) : Summary :=
  plan.summaries[id]?.getD {}

/-- The variables assigned in a loop around a block. -/
def blocked (plan : Plan) (id : Nat) : List Variable :=
  plan.loops.flatMap fun (blocks, assigned) => if blocks.contains id then assigned else []

/-- Prepares the walk through a program whose blocks are read as given. -/
def reading (read : Block → List Instruction) (flow : Flow) : Plan :=
  let summaries := flow.graph.nodes.map fun slot =>
    match slot with
    | some node => Summary.ofBlock (read node.data)
    | none => {}
  let assigned (id : Nat) : List Variable := (summaries[id]?.getD {}).assigned
  { flow, summaries
    loops := flow.graph.components.map fun component =>
      (component, component.flatMap assigned) }

/-- Prepares the walk through a program. -/
def make (code : List Instruction) (flow : Flow) : Plan :=
  reading (fun block => block.instructions code) flow

end Plan

/-- A block on the way to the current one. -/
structure Visit where
  id : Nat
  /-- What is known at the end of the block. -/
  known : Known
  /-- Whether the block was entered by a conditional jump that is taken. -/
  conditional : Bool
  /-- The successors still to look at. -/
  pending : List Nat
deriving DecidableEq, Repr

/-- The state of the walk through a program, in whatever form the program is kept. -/
structure Tour (σ : Type) where
  code : σ
  usage : Usage
  substitutions : Nat := 0
  /-- The blocks entered, last entered first. -/
  entered : List Nat := []
  /-- The way to the current block, which comes first. -/
  path : List Visit := []
  /-- The blocks that may still have to be entered without a predecessor. -/
  roots : List Nat
deriving DecidableEq, Repr

/-- What is known on entry to a block behind the given way. -/
def entryKnown (plan : Plan) (path : List Visit) (id : Nat) (conditional : Bool) : Known :=
  let joins := 1 < (plan.flow.graph.predecessors id).length
  let called := (plan.flow.block? id).any Block.called
  if joins || called then {}
  else
    let skipped := if conditional then path.takeWhile Visit.conditional else []
    let base := ((path.drop skipped.length).head?.map Visit.known).getD {}
    skipped.foldr (fun visit known => (plan.summary visit.id).apply known) base

/-- How the operands of a block are replaced in a program. -/
abbrev Replacing (σ : Type) :=
  σ → Block → Progress → σ × Progress

namespace Tour

variable {σ : Type}

/-- Enters a block and replaces operands in it. -/
def enter (plan : Plan) (replace : Replacing σ) (tour : Tour σ) (id : Nat) (known : Known)
    (conditional : Bool) : Tour σ :=
  let begun : Progress :=
    { known := (plan.blocked id).foldl Known.block known, usage := tour.usage }
  let (code, progress) :=
    match plan.flow.block? id with
    | some block => replace tour.code block begun
    | none => (tour.code, begun)
  { tour with
    code
    usage := progress.usage
    substitutions := tour.substitutions + progress.substitutions
    entered := id :: tour.entered
    path := ⟨id, progress.known, conditional, plan.flow.graph.successors id⟩ :: tour.path }

/-- One step of the walk; there is none when everything has been entered. -/
def step? (plan : Plan) (replace : Replacing σ) (tour : Tour σ) : Option (Tour σ) :=
  match tour.path with
  | [] =>
    match tour.roots with
    | [] => none
    | root :: roots =>
      let tour := { tour with roots }
      if tour.entered.contains root then some tour
      else some (tour.enter plan replace root {} false)
  | ⟨_, _, _, []⟩ :: path => some { tour with path }
  | ⟨id, known, conditional, next :: pending⟩ :: path =>
    let tour := { tour with path := ⟨id, known, conditional, pending⟩ :: path }
    if tour.entered.contains next then some tour
    else
      let taken := plan.flow.isConditional id next
      some (tour.enter plan replace next (entryKnown plan tour.path next taken) taken)

/-- Walks on for at most the given number of steps. -/
def run (plan : Plan) (replace : Replacing σ) : Nat → Tour σ → Tour σ
  | 0, tour => tour
  | steps + 1, tour =>
    match tour.step? plan replace with
    | none => tour
    | some tour => tour.run plan replace steps

/-- A walk that has not entered anything. -/
def start (plan : Plan) (code : σ) (usage : Usage) : Tour σ :=
  { code, usage, roots := plan.flow.graph.ids }

end Tour

/-- Replaces operands in a block of a list of instructions. -/
def replaceBlock (code : List Instruction) (block : Block) (p : Progress) :
    List Instruction × Progress :=
  let (replaced, p) := scan (block.instructions code) p
  (code.take block.first ++ replaced ++ code.drop (block.first + block.size), p)

/-- The walk through a list of instructions. -/
abbrev Walk :=
  Tour (List Instruction)

namespace Walk

/-- Enters a block and replaces operands in it. -/
def enter (plan : Plan) (walk : Walk) (id : Nat) (known : Known) (conditional : Bool) : Walk :=
  Tour.enter plan replaceBlock walk id known conditional

/-- One step of the walk; there is none when everything has been entered. -/
def step? (plan : Plan) (walk : Walk) : Option Walk :=
  Tour.step? plan replaceBlock walk

/-- Walks on for at most the given number of steps. -/
def run (plan : Plan) (steps : Nat) (walk : Walk) : Walk :=
  Tour.run plan replaceBlock steps walk

/-- A walk that has not entered anything. -/
def start (plan : Plan) (code : List Instruction) (usage : Usage) : Walk :=
  Tour.start plan code usage

/-- How many steps a walk takes at most: each block is a root, is entered and is left once, and
each edge is looked at once. -/
def bound (plan : Plan) : Nat :=
  3 * plan.flow.size + plan.flow.graph.edgeCount + 1

end Walk

/-- Replaces operands by constants throughout a program whose control-flow graph is given; the
changes are the operands replaced. -/
def propagate (code : List Instruction) (flow : Flow) (usage : Usage) : Edit :=
  let plan := Plan.make code flow
  let walk := (Walk.start plan code usage).run plan (Walk.bound plan)
  { code := walk.code, usage := walk.usage, changes := walk.substitutions }

end ThreeAddress.Constants
