import FourWorlds.Frame

/-! # Frames as graphs

A frame is a directed graph: its nodes are the worlds, and each relation is an edge.

* `GraphMap`, `Frame.graphIn`: a way to make graphs, and the graph of a frame made in it, each edge
  weighted by its relation.
* `Graph`, `Frame.graph`: graphs as lists, and the graph of a frame as one.
* `Graph.dot`: a graph in the DOT language, nodes numbered by the places of their worlds. -/

namespace FourWorlds

/-- An edge between two worlds. -/
structure Edge where
  /-- The world the edge leaves. -/
  source : World
  /-- The world the edge enters. -/
  target : World
  /-- The relation the edge stands for. -/
  weight : Relation
  deriving DecidableEq, Repr

/-- How directed graphs on worlds are made and looked at, with a relation as the weight of an edge. -/
structure GraphMap (γ : Type) where
  /-- The graph without nodes. -/
  empty : γ
  /-- The graph with one more node, unless it is there already. -/
  addNode : γ → World → γ
  /-- The graph with an edge from one world to another, and with this weight if it is there already. -/
  addEdge : γ → World → World → Relation → γ
  /-- The nodes of a graph. -/
  nodes : γ → List World
  /-- The edges of a graph. -/
  edges : γ → List Edge

/-- The graph of a frame: every world is added, and then an edge for each relation. -/
def Frame.graphIn {γ : Type} (M : GraphMap γ) (F : Frame) : γ :=
  F.relations.foldl (fun G r => M.addEdge G r.source r.target r) (World.all.foldl M.addNode M.empty)

/-- A directed graph on worlds, its nodes and edges in the order in which they were added. -/
structure Graph where
  /-- The worlds of the graph. -/
  nodes : List World
  /-- The edges of the graph. -/
  edges : List Edge
  deriving DecidableEq, Repr

namespace Graph

/-- The graph with one more node, unless it is there already. -/
def addNode (G : Graph) (w : World) : Graph :=
  if w ∈ G.nodes then G else { G with nodes := G.nodes ++ [w] }

/-- The graph with an edge from one world to another, and with this weight if it is there already. Both
worlds are nodes of it. -/
def addEdge (G : Graph) (v w : World) (r : Relation) : Graph :=
  let between := fun e : Edge => e.source = v ∧ e.target = w
  let edges :=
    if G.edges.any between then G.edges.map fun e => if between e then ⟨v, w, r⟩ else e
    else G.edges ++ [⟨v, w, r⟩]
  { (G.addNode v).addNode w with edges := edges }

/-- Graphs as they are made and looked at. -/
def map : GraphMap Graph := ⟨⟨[], []⟩, addNode, addEdge, nodes, edges⟩

end Graph

/-- The graph of a frame. -/
def Frame.graph (F : Frame) : Graph := F.graphIn Graph.map

namespace Graph

/-- The line of a node: its number and its letter. -/
def nodeLine (w : World) : String :=
  s!"    {w.index.val} [ label = \"{w.letter}\" ]\n"

/-- The line of an edge: the numbers of its ends. -/
def edgeLine (e : Edge) : String :=
  s!"    {e.source.index.val} -> {e.target.index.val} [ ]\n"

/-- A graph in the DOT language, nodes first. -/
def dot (G : Graph) : String :=
  "digraph \x7b\n" ++ String.join (G.nodes.map nodeLine) ++ String.join (G.edges.map edgeLine)
    ++ "\x7d\n"

end Graph

end FourWorlds
