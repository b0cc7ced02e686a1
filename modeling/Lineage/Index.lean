import Lineage.Graph
import Lineage.Warning
/-! # Index of a version

A version's nodes by entity. The first node that stands for an entity is its canonical one; nodes
that stand for it too are collisions, and the canonical node takes over what it lacks from them.
-/
namespace Lineage

/-- An entity of a version: its canonical node, with what its collisions add to it. -/
structure Entity where
  key : EntityKey
  id : NodeId
  node : Node
  deriving DecidableEq, Inhabited

structure Collision where
  key : EntityKey
  id : NodeId
  canonical : NodeId
  deriving DecidableEq, Repr

structure Index where
  entities : List Entity
  /-- In the order in which the nodes were added. -/
  collisions : List Collision
  deriving DecidableEq, Inhabited

namespace Index

def empty : Index := ⟨[], []⟩

def find? (x : Index) (key : EntityKey) : Option Entity := x.entities.find? (·.key = key)

def lookup? (x : Index) (key : EntityKey) : Option NodeId := (x.find? key).map (·.id)

def insert (x : Index) (n : Node) : Index :=
  match x.find? n.key with
  | some first =>
    { entities := x.entities.map fun e =>
        if e.id = first.id then { e with node := e.node.absorb n } else e
      collisions := x.collisions ++ [⟨n.key, n.id, first.id⟩] }
  | none => { x with entities := x.entities ++ [⟨n.key, n.id, n⟩] }

def ofNodes (ns : List Node) : Index := ns.foldl insert empty

def ofGraph (g : Graph) : Index := ofNodes g.nodes

def ids (x : Index) : List NodeId := x.entities.map (·.id)

def size (x : Index) : Nat := x.entities.length

def isEmpty (x : Index) : Bool := x.entities.isEmpty

def canonical? (x : Index) (id : NodeId) : Option NodeId :=
  if x.entities.any (·.id = id) then some id
  else (x.collisions.find? (·.id = id)).map (·.canonical)

/-- A canonical node with what its collisions add to it. -/
def node? (x : Index) (id : NodeId) : Option Node :=
  (x.entities.find? (·.id = id)).map (·.node)

def warnings (x : Index) : List Warning := x.collisions.map fun c => .identityCollision c.key

end Index

end Lineage
