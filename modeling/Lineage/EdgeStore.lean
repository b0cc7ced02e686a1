import Lineage.Graph
/-! # Edges without repetition

A graph that grows by edges, at most one for each triple that was inserted: of several copies the
one of highest confidence stays, the earliest of these, in the place of the first.
-/
namespace Lineage

structure EdgeStore where
  graph : Graph
  seen : List (Triple × EdgeId)
  deriving DecidableEq, Inhabited

namespace EdgeStore

/-- A store that knows none of the graph's own edges. -/
def ofGraph (g : Graph) : EdgeStore := ⟨g, []⟩

def find? (s : EdgeStore) (t : Triple) : Option EdgeId := s.seen.lookup t

def size (s : EdgeStore) : Nat := s.seen.length

/-- The stored edge with what the copy says, if the copy is more confident. -/
def improve (copy stored : Edge) : Edge :=
  if stored.confidence < copy.confidence then
    { stored with
      confidence := copy.confidence, label := copy.label, attributes := copy.attributes }
  else stored

/-- Inserts an edge; tells whether it is the first of its triple and its ends exist. -/
def insert (s : EdgeStore) (e : Edge) : Bool × EdgeStore :=
  match s.find? e.triple with
  | some id => (false, { s with graph := s.graph.modifyEdge id (improve e) })
  | none =>
    match s.graph.addEdge e with
    | some (id, g) => (true, ⟨g, s.seen ++ [(e.triple, id)]⟩)
    | none => (false, s)

def insertAll (s : EdgeStore) (es : List Edge) : EdgeStore :=
  es.foldl (fun s e => (s.insert e).2) s

end EdgeStore

end Lineage
