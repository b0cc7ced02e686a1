import Lineage.Index
import Lineage.Json
import Lineage.Refactoring.Operation
import Lineage.Refactoring.Resolve
/-! # Matching two versions

Entities of an older and a newer version are paired by key. Refactorings that change the key of a
method pair the renamed method with its former self: each old and each new method takes part in at
most one such rekey, and of competing ones the best ranked is accepted.
-/
namespace Lineage

open Refactoring (Operation Location resolve? target?)

structure Rekey where
  v1 : NodeId
  v2 : NodeId
  oldKey : String
  newKey : String
  operation : Refactoring.Kind
  deriving DecidableEq, Repr

namespace Rekey

structure Candidate where
  rekey : Rekey
  confidence : Confidence
  path : String
  line : UInt32
  order : Nat
  deriving DecidableEq, Repr

/-- Higher confidence first, then the smaller path, the smaller line and the earlier operation. -/
def Candidate.before (a b : Candidate) : Bool :=
  if a.confidence.position ≠ b.confidence.position then b.confidence < a.confidence
  else if a.path ≠ b.path then a.path < b.path
  else if a.line ≠ b.line then a.line < b.line
  else a.order ≤ b.order

def endpoint? (g : Graph) (x : Index) (l : Location) : Option (NodeId × String) := do
  let id ← target? g l (some .method)
  let canonical ← x.canonical? id
  let node ← x.node? canonical
  return (canonical, node.keyText)

/-- An operation is eligible if it keeps a method whose old key is gone and whose new key is new. -/
def candidate? (v1 v2 : Graph) (x1 x2 : Index) (op : Operation) (order : Nat) :
    Option Candidate := do
  guard op.kind.rekeysMethod
  let before ← op.before.head?
  let after ← op.after.head?
  let (old, oldKey) ← endpoint? v1 x1 before
  let (new, newKey) ← endpoint? v2 x2 after
  guard (oldKey ≠ newKey)
  guard (x2.lookup? ⟨.method, oldKey⟩).isNone
  guard (x1.lookup? ⟨.method, newKey⟩).isNone
  return ⟨⟨old, new, oldKey, newKey, op.kind⟩, op.confidence, before.filePath, before.startLine,
    order⟩

def candidates (v1 v2 : Graph) (x1 x2 : Index) (ops : List Operation) : List Candidate :=
  (ops.mapIdx fun i op => candidate? v1 v2 x1 x2 op i).filterMap id

/-- Whether a run stops at a location of some operation. -/
def stops (v1 v2 : Graph) (ops : List Operation) : Bool :=
  ops.any fun op => op.kind.rekeysMethod &&
    match op.before.head?, op.after.head? with
    | some before, some after =>
      (resolve? v1 before (some .method)).isNone || (resolve? v2 after (some .method)).isNone
    | _, _ => false

/-- Takes a rekey unless one of its methods is taken. -/
def accept (accepted : List Rekey) (r : Rekey) : List Rekey :=
  if accepted.any fun a => a.v1 = r.v1 || a.v2 = r.v2 then accepted else accepted ++ [r]

def select (cs : List Candidate) : List Rekey :=
  (cs.mergeSort Candidate.before).foldl (fun acc c => accept acc c.rekey) []

end Rekey

structure Pair where
  v1 : NodeId
  v2 : NodeId
  status : Status
  deriving DecidableEq, Repr

structure StatusCounts where
  unchanged : Nat := 0
  modified : Nat := 0
  added : Nat := 0
  deleted : Nat := 0
  deriving DecidableEq, Repr, Inhabited

namespace StatusCounts

def ofStatuses (ss : List Status) : StatusCounts where
  unchanged := ss.count .unchanged
  modified := ss.count .modified
  added := ss.count .added
  deleted := ss.count .deleted

def total (c : StatusCounts) : Nat := c.unchanged + c.modified + c.added + c.deleted

def toJson (c : StatusCounts) : Json :=
  .record [("unchanged", .nat c.unchanged), ("modified", .nat c.modified),
    ("added", .nat c.added), ("deleted", .nat c.deleted)]

end StatusCounts

structure Matching where
  index1 : Index
  index2 : Index
  rekeys : List Rekey
  pairs : List Pair
  deriving DecidableEq

namespace Matching

/-- The newer version's entities under the keys by which they are looked for: those of rekeyed
methods are replaced by the old ones. -/
def searchKeys (x2 : Index) (rekeys : List Rekey) : List (EntityKey × NodeId) :=
  rekeys.foldl
    (fun keys r =>
      ⟨⟨.method, r.oldKey⟩, r.v2⟩ ::
        keys.filter fun e => e.1 ≠ ⟨.method, r.newKey⟩ && e.1 ≠ ⟨.method, r.oldKey⟩)
    (x2.entities.map fun e => (e.key, e.id))

def pair? (x2 : Index) (keys : List (EntityKey × NodeId)) (old : Entity) : Option Pair := do
  let v2 ← keys.lookup old.node.key
  let new ← x2.node? v2
  return ⟨old.id, v2, if old.node.fingerprint = new.fingerprint then .unchanged else .modified⟩

/-- Pairs the entities of an older and a newer version under the given refactorings, in a run that
does not stop. -/
def ofGraphs (v1 v2 : Graph) (ops : List Operation) : Matching :=
  let x1 := Index.ofGraph v1
  let x2 := Index.ofGraph v2
  let rekeys := Rekey.select (Rekey.candidates v1 v2 x1 x2 ops)
  ⟨x1, x2, rekeys, x1.entities.filterMap (pair? x2 (searchKeys x2 rekeys))⟩

def ofGraphs? (v1 v2 : Graph) (ops : List Operation) : Option Matching :=
  if Rekey.stops v1 v2 ops then none else some (ofGraphs v1 v2 ops)

def pairOf1? (m : Matching) (v1 : NodeId) : Option Pair := m.pairs.find? (·.v1 = v1)

/-- The last pair that a newer entity takes part in. -/
def pairOf2? (m : Matching) (v2 : NodeId) : Option Pair := m.pairs.reverse.find? (·.v2 = v2)

def status1 (m : Matching) (v1 : NodeId) : Status := ((m.pairOf1? v1).map (·.status)).getD .deleted

def status2 (m : Matching) (v2 : NodeId) : Status := ((m.pairOf2? v2).map (·.status)).getD .added

def statuses1 (m : Matching) : List (NodeId × Status) := m.index1.ids.map fun v => (v, m.status1 v)

def statuses2 (m : Matching) : List (NodeId × Status) := m.index2.ids.map fun v => (v, m.status2 v)

/-- One count for each entity; those of a pair count once. -/
def counts (m : Matching) : StatusCounts :=
  .ofStatuses <|
    m.statuses1.map (·.2) ++
      (m.statuses2.filter fun e => (m.pairOf2? e.1).isNone).map (·.2)

def rekeyOf2? (m : Matching) (v2 : NodeId) : Option Rekey := m.rekeys.find? (·.v2 = v2)

def warnings (m : Matching) : List Warning := m.index1.warnings ++ m.index2.warnings

end Matching

end Lineage
