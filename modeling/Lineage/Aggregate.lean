import Lineage.Merge
/-! # Aggregation over a history

Folds a chain of merged pairs, oldest first, into one graph over all versions. Nodes of different
pairs are joined by entity; a node that goes on under a new key is found under its former one.
-/
namespace Lineage

structure Aggregate where
  store : EdgeStore
  index : List (EntityKey × NodeId)
  commits : List Commit
  catalog : TextMap Commit
  pairs : Nat

namespace Aggregate

def empty : Aggregate := ⟨.ofGraph .empty, [], [], .empty, 0⟩

instance : Inhabited Aggregate := ⟨empty⟩

def graph (a : Aggregate) : Graph := a.store.graph

def recordCommit (commits : List Commit) (c : Commit) : List Commit :=
  if commits.any (·.id = c.id) then commits else commits ++ [c]

/-- The newer form of a node that keeps its number, its versions and its beginning. -/
def update (current newer : Node) : Node :=
  { newer with
    id := current.id
    versions := current.versions.union newer.versions
    firstVersion := current.firstVersion <|> newer.firstVersion
    metadata := match current.metadatum Meta.renamedFrom with
      | some old => newer.metadata.insertNew Meta.renamedFrom old
      | none => newer.metadata }

/-- The node of a renamed entity, now indexed under its new key. -/
def reindexed? (index : List (EntityKey × NodeId)) (n : Node) :
    Option (NodeId × List (EntityKey × NodeId)) := do
  let oldKey : EntityKey := ⟨n.kind, ← n.metadatum Meta.renamedFrom⟩
  let id ← index.lookup oldKey
  return (id, (n.key, id) :: index.filter (·.1 ≠ oldKey))

/-- The entities joined so far, and where the nodes of the pair went. -/
structure Join where
  graph : Graph
  index : List (EntityKey × NodeId)
  ids : List (NodeId × NodeId)

def joinNode (j : Join) (n : Node) : Join :=
  let known := match j.index.lookup n.key with
    | some id => some (id, j.index)
    | none => reindexed? j.index n
  match known with
  | some (id, index) =>
    ⟨j.graph.modifyNode id (update · n), index, j.ids ++ [(n.id, id)]⟩
  | none =>
    let (id, graph) := j.graph.addNode n
    ⟨graph, (n.key, id) :: j.index, j.ids ++ [(n.id, id)]⟩

def fold (a : Aggregate) (m : Merged) : Aggregate :=
  let j := m.graph.nodes.foldl joinNode ⟨a.graph, a.index, []⟩
  { store := { a.store with graph := j.graph }.insertAll (Merge.relocated m.graph j.ids)
    index := j.index
    commits := recordCommit (recordCommit a.commits m.span.older) m.span.newer
    catalog := a.catalog.fillFrom m.catalog
    pairs := a.pairs + 1 }

def ofMerged (ms : List Merged) : Aggregate := ms.foldl fold empty

/-- The label of a version: `V0` for the newest commit, `V-1` for the one before it, and so on. -/
def label? (a : Aggregate) (commit : String) : Option String := do
  let position ← a.commits.findIdx? (·.id = commit)
  let back := a.commits.length - 1 - position
  return if back = 0 then "V0" else s!"V-{back}"

def labels (a : Aggregate) : List (String × Commit) :=
  a.commits.filterMap fun c => (a.label? c.id).map (·, c)

def counts (a : Aggregate) : StatusCounts := .ofStatuses (a.graph.nodes.filterMap (·.status))

end Aggregate

end Lineage
