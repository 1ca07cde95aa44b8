/-
Directed graphs whose nodes are numbered slots with a payload. A removed node
frees its slot, and a new node takes the lowest free slot. Every node lists both
its successors and its predecessors, in ascending order, and the two lists are
kept in agreement by every operation.
-/

namespace ThreeAddress

/-- Inserts a number into an ascending list, unless it is there. -/
def insertAscending (n : Nat) : List Nat → List Nat
  | [] => [n]
  | m :: rest =>
    if n < m then n :: m :: rest
    else if n = m then m :: rest
    else m :: insertAscending n rest

/-- A node with its edges. -/
structure Node (α : Type) where
  data : α
  incoming : List Nat := []
  outgoing : List Nat := []
deriving DecidableEq, Repr

/-- A directed graph. -/
structure Graph (α : Type) where
  nodes : Array (Option (Node α)) := #[]
  /-- The empty slots, ascending. -/
  free : List Nat := []
deriving Repr

namespace Graph

variable {α : Type}

/-- The node in a slot. -/
def node? (g : Graph α) (id : Nat) : Option (Node α) :=
  g.nodes[id]?.join

/-- Whether a slot holds a node. -/
def contains (g : Graph α) (id : Nat) : Bool :=
  (g.node? id).isSome

/-- The payload of a node. -/
def get? (g : Graph α) (id : Nat) : Option α :=
  (g.node? id).map Node.data

/-- The successors of a node, ascending. -/
def successors (g : Graph α) (id : Nat) : List Nat :=
  ((g.node? id).map Node.outgoing).getD []

/-- The predecessors of a node, ascending. -/
def predecessors (g : Graph α) (id : Nat) : List Nat :=
  ((g.node? id).map Node.incoming).getD []

/-- Whether there is an edge between two nodes. -/
def hasEdge (g : Graph α) (source target : Nat) : Bool :=
  (g.successors source).contains target

/-- The nodes, ascending. -/
def ids (g : Graph α) : List Nat :=
  (List.range g.nodes.size).filter g.contains

/-- How many nodes there are. -/
def size (g : Graph α) : Nat :=
  g.ids.length

/-- Changes the node in a slot, if there is one. -/
def modifyNode (g : Graph α) (id : Nat) (change : Node α → Node α) : Graph α :=
  { g with nodes := g.nodes.modify id (Option.map change) }

/-- Changes the payload of a node. -/
def modify (g : Graph α) (id : Nat) (change : α → α) : Graph α :=
  g.modifyNode id fun node => { node with data := change node.data }

/-- Adds a node without edges in the lowest free slot. -/
def add (g : Graph α) (data : α) : Nat × Graph α :=
  match g.free with
  | slot :: rest =>
    (slot, { nodes := g.nodes.setIfInBounds slot (some { data }), free := rest })
  | [] => (g.nodes.size, { g with nodes := g.nodes.push (some { data }) })

/-- Adds an edge; nothing happens if one of the nodes does not exist. -/
def connect (g : Graph α) (source target : Nat) : Graph α :=
  if g.contains source && g.contains target then
    (g.modifyNode source fun node =>
        { node with outgoing := insertAscending target node.outgoing }).modifyNode target
      fun node => { node with incoming := insertAscending source node.incoming }
  else g

/-- Removes a node and every edge that touches it; gives its payload. -/
def remove? (g : Graph α) (id : Nat) : Option (α × Graph α) :=
  (g.node? id).map fun node =>
    let emptied : Graph α :=
      { nodes := g.nodes.setIfInBounds id none, free := insertAscending id g.free }
    let withoutIncoming := node.outgoing.foldl (fun g target =>
      g.modifyNode target fun other =>
        { other with incoming := other.incoming.filter (· ≠ id) }) emptied
    let withoutOutgoing := node.incoming.foldl (fun g source =>
      g.modifyNode source fun other =>
        { other with outgoing := other.outgoing.filter (· ≠ id) }) withoutIncoming
    (node.data, withoutOutgoing)

/-- The graph with every edge reversed. -/
def transpose (g : Graph α) : Graph α :=
  { g with
    nodes := g.nodes.map (Option.map fun node =>
      { node with incoming := node.outgoing, outgoing := node.incoming }) }

/-- How many edges there are. -/
def edgeCount (g : Graph α) : Nat :=
  (g.ids.flatMap g.successors).length

end Graph

end ThreeAddress
