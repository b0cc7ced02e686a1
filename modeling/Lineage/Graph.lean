import Lineage.Edge
import Lineage.Path
/-! # Graphs

A directed multigraph. Nodes and edges are numbered in the order of their insertion and are never
removed. Only the low 32 bits of a number select a node or an edge. Main statements:
`nodes_addNode`, `edges_addEdge`, `addEdge_eq_none_iff`.
-/
namespace Lineage

structure Graph where
  nodes : List Node
  edges : List Edge
  deriving DecidableEq, Inhabited

/-- The position in a table that a number selects. -/
def slot (number : Nat) : Nat := number % UInt32.size

namespace Graph

def empty : Graph := ⟨[], []⟩

instance : EmptyCollection Graph := ⟨empty⟩

def nextNode (g : Graph) : NodeId := ⟨g.nodes.length⟩

def nextEdge (g : Graph) : EdgeId := ⟨g.edges.length⟩

def addNode (g : Graph) (n : Node) : NodeId × Graph :=
  (g.nextNode, { g with nodes := g.nodes ++ [{ n with id := g.nextNode }] })

def node? (g : Graph) (id : NodeId) : Option Node := g.nodes[slot id.number]?

def edge? (g : Graph) (id : EdgeId) : Option Edge := g.edges[slot id.number]?

def hasNode (g : Graph) (id : NodeId) : Bool := (g.node? id).isSome

/-- Adds an edge under the next number, unless one of its ends is missing. -/
def addEdge (g : Graph) (e : Edge) : Option (EdgeId × Graph) :=
  if g.hasNode e.source && g.hasNode e.target then
    some (g.nextEdge, { g with edges := g.edges ++ [{ e with id := g.nextEdge }] })
  else none

def tryEdge (g : Graph) (e : Edge) : Graph := ((g.addEdge e).map (·.2)).getD g

def modifyNode (g : Graph) (id : NodeId) (f : Node → Node) : Graph :=
  { g with nodes := g.nodes.modify (slot id.number) f }

def modifyEdge (g : Graph) (id : EdgeId) (f : Edge → Edge) : Graph :=
  { g with edges := g.edges.modify (slot id.number) f }

/-- The edges that leave a node, the newest first. -/
def edgesFrom (g : Graph) (id : NodeId) : List Edge :=
  (g.edges.filter fun e => slot e.source.number = slot id.number).reverse

def edgesTo (g : Graph) (id : NodeId) : List Edge :=
  (g.edges.filter fun e => slot e.target.number = slot id.number).reverse

def hasEdge (g : Graph) (source target : NodeId) (kind : EdgeKind) : Bool :=
  (g.edgesFrom source).any fun e => e.target = target && e.kind = kind

def findQualified? (g : Graph) (name : String) : Option NodeId :=
  (g.nodes.find? (·.qualifiedName = name)).map (·.id)

/-- The first node that stands for an entity. -/
def findKey? (g : Graph) (key : EntityKey) : Option NodeId :=
  (g.nodes.find? (·.key = key)).map (·.id)

def ofKind (g : Graph) (kind : NodeKind) : List NodeId :=
  (g.nodes.filter (·.kind = kind)).map (·.id)

def inFile (g : Graph) (path : String) : List Node :=
  g.nodes.filter fun n => Path.same n.filePath path

def enclosingType? (g : Graph) (member : NodeId) : Option NodeId :=
  ((g.edgesTo member).find? fun e =>
    e.kind = .declares && (g.node? e.source).any (·.kind = .type)).map (·.source)

def stamp (g : Graph) (commit : String) : Graph :=
  { g with nodes := g.nodes.map (Node.stamp commit) }

def keys (g : Graph) : List EntityKey := g.nodes.map Node.key

def triples (g : Graph) : List Triple := g.edges.map Edge.triple

/-- A graph with the given nodes, and those of the given edges whose ends exist. -/
def ofLists (nodes : List Node) (edges : List Edge) : Graph :=
  edges.foldl tryEdge (nodes.foldl (fun g n => (g.addNode n).2) empty)

@[simp] theorem nodes_addNode (g : Graph) (n : Node) :
    (g.addNode n).2.nodes = g.nodes ++ [{ n with id := g.nextNode }] := rfl

@[simp] theorem edges_addNode (g : Graph) (n : Node) : (g.addNode n).2.edges = g.edges := rfl

theorem addEdge_eq_none_iff {g : Graph} {e : Edge} :
    g.addEdge e = none ↔ g.node? e.source = none ∨ g.node? e.target = none := by
  unfold addEdge hasNode
  cases hs : g.node? e.source <;> cases ht : g.node? e.target <;> simp

theorem edges_addEdge {g h : Graph} {e : Edge} {id : EdgeId} (he : g.addEdge e = some (id, h)) :
    id = g.nextEdge ∧ h.edges = g.edges ++ [{ e with id := g.nextEdge }] ∧ h.nodes = g.nodes := by
  unfold addEdge at he
  split at he
  · cases he; exact ⟨rfl, rfl, rfl⟩
  · cases he

end Graph

end Lineage
