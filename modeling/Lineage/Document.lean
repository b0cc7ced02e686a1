import Lineage.Commit
import Lineage.Graph
/-! # Graphs as documents

The JSON form of nodes, edges and graph statistics.
-/
namespace Lineage

namespace Node

def fields (n : Node) : List (String × Json) :=
  [("id", .nat n.id.number),
   ("kind", .text n.kind.name),
   ("name", .text n.name),
   ("qualifiedName", .text n.qualifiedName),
   ("filePath", .text n.filePath),
   ("lineStart", .option (fun l => .nat l.toNat) n.lineStart),
   ("lineEnd", .option (fun l => .nat l.toNat) n.lineEnd),
   ("source", .option .text n.source),
   ("doc", .option .text n.doc),
   ("summary", .option .text n.summary),
   ("metadata", .ofTextMap n.metadata),
   ("versions", .texts n.versions.toList),
   ("versionStatus", .option (fun s => .text s.name) n.status),
   ("firstVersion", .option .text n.firstVersion),
   ("lastVersion", .option .text n.lastVersion)]

def toJson (n : Node) : Json := .record n.fields

end Node

namespace Edge

def fields (e : Edge) : List (String × Json) :=
  [("id", .nat e.id.number),
   ("source", .nat e.source.number),
   ("target", .nat e.target.number),
   ("kind", .text e.kind.name),
   ("confidence", .real e.confidence),
   ("label", .option .text e.label),
   ("attributes", .ofTextMap e.attributes)]

def toJson (e : Edge) : Json := .record e.fields

end Edge

namespace Graph

def toJson (g : Graph) : Json :=
  .record [("nodes", .list (g.nodes.map Node.toJson)), ("edges", .list (g.edges.map Edge.toJson))]

def describe (g : Graph) : String :=
  s!"Graph \x7b node_count: {g.nodes.length}, edge_count: {g.edges.length} \x7d"

end Graph

/-- How often each text occurs, for those that do. -/
def tally (xs : List String) : TextMap Nat :=
  xs.foldl (fun m x => m.insert x ((m.get? x).getD 0 + 1)) .empty

structure Statistics where
  nodeCount : Nat
  edgeCount : Nat
  evolutionEdgeCount : Nat
  nodesByKind : TextMap Nat
  edgesByKind : TextMap Nat
  nodesByStatus : TextMap Nat
  deriving DecidableEq

namespace Statistics

def ofGraph (g : Graph) : Statistics where
  nodeCount := g.nodes.length
  edgeCount := g.edges.length
  evolutionEdgeCount := (g.edges.filter (·.kind.isEvolution)).length
  nodesByKind := tally (g.nodes.map (·.kind.name))
  edgesByKind := tally (g.edges.map (·.kind.label))
  nodesByStatus := tally (g.nodes.filterMap fun n => n.status.map Status.name)

def countsJson (m : TextMap Nat) : Json := .record (m.entries.map fun e => (e.1, .nat e.2))

def toJson (s : Statistics) : Json :=
  .record
    [("nodeCount", .nat s.nodeCount),
     ("edgeCount", .nat s.edgeCount),
     ("evolutionEdgeCount", .nat s.evolutionEdgeCount),
     ("nodesByKind", countsJson s.nodesByKind),
     ("edgesByKind", countsJson s.edgesByKind),
     ("nodesByStatus", countsJson s.nodesByStatus)]

end Statistics

end Lineage
