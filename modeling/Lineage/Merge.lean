import Lineage.EdgeStore
import Lineage.Evolution
import Lineage.Matching
/-! # Merging two versions

One graph for two matched versions. Its nodes are the older version's entities, paired ones in their
newer form, followed by the entities that only the newer version has. Its edges are those of both
versions, then an evolution edge for each operation that can be placed, then edges between the types
around members that moved from one type to another.
-/
namespace Lineage

open Refactoring (Operation Location resolve? target?)

def defaultDetector : String := "RefactoringMiner"

structure Span where
  older : Commit
  newer : Commit
  deriving DecidableEq, Repr

structure Merged where
  graph : Graph
  ids1 : List (NodeId × NodeId)
  ids2 : List (NodeId × NodeId)
  span : Span
  deriving DecidableEq

/-- A node of the merged graph before it is numbered, and the canonical nodes behind it. -/
structure MergedNode where
  node : Node
  v1 : Option NodeId
  v2 : Option NodeId
  deriving DecidableEq

structure Contribution where
  edge : Edge
  v1 : NodeId
  v2 : NodeId
  deriving DecidableEq

/-- A location that points at an entity: its canonical node, and the merged one. -/
structure Endpoint where
  canonical : NodeId
  merged : NodeId
  deriving DecidableEq, Repr

namespace Merge

def kept (span : Span) (m : Matching) (old new : Node) (p : Pair) : Node :=
  { new with
    versions := ((new.versions.union old.versions).insert span.older.id).insert span.newer.id
    firstVersion := old.firstVersion <|> some span.older.id
    lastVersion := some span.newer.id
    status := some p.status
    metadata := match m.rekeyOf2? p.v2 with
      | some r => new.metadata.insert Meta.renamedFrom r.oldKey
      | none => new.metadata }

def olderNode (span : Span) (m : Matching) (e : Entity) : MergedNode :=
  match m.pairOf1? e.id with
  | some p =>
    match m.index2.node? p.v2 with
    | some new => ⟨kept span m e.node new p, some e.id, some p.v2⟩
    | none => ⟨{ e.node.stamp span.older.id with status := some .deleted }, some e.id, none⟩
  | none => ⟨{ e.node.stamp span.older.id with status := some .deleted }, some e.id, none⟩

def newerNode? (span : Span) (m : Matching) (e : Entity) : Option MergedNode :=
  match m.pairOf2? e.id with
  | some _ => none
  | none => some ⟨{ e.node.stamp span.newer.id with status := some .added }, none, some e.id⟩

def nodes (span : Span) (m : Matching) : List MergedNode :=
  m.index1.entities.map (olderNode span m) ++ m.index2.entities.filterMap (newerNode? span m)

/-- The number of the last node of a list that comes from a canonical node. -/
def position? (origin : MergedNode → Option NodeId) (ns : List MergedNode) (id : NodeId) :
    Option NodeId :=
  (ns.zipIdx.reverse.find? fun e => origin e.1 = some id).map fun e => ⟨e.2⟩

/-- Where the nodes of a version went, those that collided with the canonical one. -/
def idMap (g : Graph) (x : Index) (origin : MergedNode → Option NodeId) (ns : List MergedNode) :
    List (NodeId × NodeId) :=
  g.nodes.filterMap fun n =>
    ((x.canonical? n.id).bind (position? origin ns)).map fun merged => (n.id, merged)

def relocated (g : Graph) (ids : List (NodeId × NodeId)) : List Edge :=
  g.edges.filterMap fun e => do
    return e.withEndpoints (← ids.lookup e.source) (← ids.lookup e.target)

def endpoint? (g : Graph) (x : Index) (ids : List (NodeId × NodeId)) (op : Operation)
    (l : Location) : Option Endpoint := do
  let canonical ← x.canonical? (← target? g l (op.hint? l))
  return ⟨canonical, ← ids.lookup canonical⟩

/-- What a side's locations point at, in order and each merged node once. -/
def endpoints (g : Graph) (x : Index) (ids : List (NodeId × NodeId)) (op : Operation)
    (ls : List Location) : List Endpoint :=
  (ls.filterMap (endpoint? g x ids op)).foldl
    (fun seen e => if seen.any (·.merged = e.merged) then seen else seen ++ [e]) []

def unresolved (op : Operation) (side : Side) : Warning :=
  .unresolvedLocation op.kind.name side
    (((op.side side).head?.map Location.describe).getD "<none>")

def contribution? (span : Span) (detector : String) (m : Matching) (op : Operation)
    (sources targets : List Endpoint) (ends : NodeId × NodeId) : Option Contribution := do
  let s ← sources.find? (·.merged = ends.1)
  let t ← targets.find? (·.merged = ends.2)
  let old ← m.index1.node? s.canonical
  let new ← m.index2.node? t.canonical
  return ⟨Evolution.edge op ends.1 ends.2 old new ⟨span.older.id, span.newer.id, detector⟩,
    s.canonical, t.canonical⟩

/-- The evolution edges that an operation contributes, or why it cannot be placed. -/
def contributions (span : Span) (detector : String) (v1 v2 : Graph) (m : Matching)
    (ids1 ids2 : List (NodeId × NodeId)) (op : Operation) : Except Warning (List Contribution) :=
  let sources := endpoints v1 m.index1 ids1 op op.before
  let targets := endpoints v2 m.index2 ids2 op op.after
  if sources.isEmpty then .error (unresolved op .before)
  else if targets.isEmpty then .error (unresolved op .after)
  else .ok <|
    (Evolution.endpoints op.kind.family (sources.map (·.merged)) (targets.map (·.merged))).filterMap
      (contribution? span detector m op sources targets)

def failures (rs : List (Except Warning (List Contribution))) : List Warning :=
  rs.filterMap fun
    | .error w => some w
    | .ok _ => none

def placed (rs : List (Except Warning (List Contribution))) : List Contribution :=
  rs.flatMap fun
    | .error _ => []
    | .ok cs => cs

def emit (acc : EdgeStore × List Contribution) (c : Contribution) :
    EdgeStore × List Contribution :=
  let (isNew, store) := acc.1.insert c.edge
  (store, if isNew then acc.2 ++ [c] else acc.2)

/-- The edge between the types around the members that an evolution edge joins, if the members are
declared by two different types. -/
def propagated? (v1 v2 : Graph) (ids1 ids2 : List (NodeId × NodeId)) (g : Graph)
    (c : Contribution) : Option Edge := do
  let old ← g.node? c.edge.source
  let new ← g.node? c.edge.target
  guard (old.kind.isMember && new.kind.isMember)
  let source ← ids1.lookup (← v1.enclosingType? c.v1)
  let target ← ids2.lookup (← v2.enclosingType? c.v2)
  guard (source ≠ target)
  let stored ← (g.edgesFrom c.edge.source).find? fun e =>
    e.target = c.edge.target && e.kind = c.edge.kind
  return Evolution.memberEdge source target old.kind stored

def stops (v1 v2 : Graph) (ops : List Operation) : Bool :=
  ops.any fun op =>
    op.before.any (fun l => (resolve? v1 l (op.hint? l)).isNone) ||
      op.after.any fun l => (resolve? v2 l (op.hint? l)).isNone

/-- Merges two matched versions, in a run that does not stop; the warnings are those of operations
that cannot be placed. -/
def run (detector : String) (v1 v2 : Graph) (m : Matching) (ops : List Operation) (span : Span) :
    Merged × List Warning :=
  let ns := nodes span m
  let ids1 := idMap v1 m.index1 MergedNode.v1 ns
  let ids2 := idMap v2 m.index2 MergedNode.v2 ns
  let bare := ns.foldl (fun g n => (g.addNode n.node).2) Graph.empty
  let structural := (EdgeStore.ofGraph bare).insertAll (relocated v1 ids1 ++ relocated v2 ids2)
  let outcomes := ops.map (contributions span detector v1 v2 m ids1 ids2)
  let (evolved, emitted) := (placed outcomes).foldl emit (structural, [])
  let final := evolved.insertAll (emitted.filterMap (propagated? v1 v2 ids1 ids2 evolved.graph))
  (⟨final.graph, ids1, ids2, span⟩, failures outcomes)

def run? (detector : String) (v1 v2 : Graph) (m : Matching) (ops : List Operation) (span : Span) :
    Option (Merged × List Warning) :=
  if stops v1 v2 ops then none else some (run detector v1 v2 m ops span)

end Merge

namespace Merged

def catalog (m : Merged) : TextMap Commit :=
  (TextMap.empty.insert m.span.older.id m.span.older).insert m.span.newer.id m.span.newer

def counts (m : Merged) : StatusCounts := .ofStatuses (m.graph.nodes.filterMap (·.status))

def evolutionEdges (m : Merged) : List Edge := m.graph.edges.filter (·.kind.isEvolution)

end Merged

end Lineage
