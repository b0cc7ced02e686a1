import Lineage.Graph
import Lineage.Refactoring.Location
/-! # Resolving locations

The node that a location points at. Candidates have a kind that locations can point at, lie in a
matching file and on matching lines; those named like the location's element go before the others,
and of these the nearest wins.
-/
namespace Lineage.Refactoring

inductive Resolution where
  | found (id : NodeId)
  | unmatched
  | ambiguous (ids : List NodeId)
  deriving DecidableEq, Repr

def Resolution.node? : Resolution → Option NodeId
  | found id => some id
  | unmatched | ambiguous _ => none

/-- How many lines a detector's range may miss a node's. -/
def lineTolerance : UInt32 := 2

def lineDistance (a b : UInt32) : UInt32 := if a ≤ b then b - a else a - b

/-- How a program adds words; without a sum it stops. -/
abbrev Addition := UInt32 → UInt32 → Option UInt32

namespace Addition

def checked : Addition := fun a b =>
  if a.toNat + b.toNat < UInt32.size then some (a + b) else none

def wrapping : Addition := fun a b => some (a + b)

end Addition

def pathsMatch (nodePath target : String) : Bool :=
  nodePath ≠ "" && (Path.hasEnding nodePath target || Path.hasEnding target nodePath)

/-- Whether lines overlap those of a location. The second sum is made only where the first decides
nothing. -/
def overlaps (plus : Addition) (first last : UInt32) (l : Location) : Option Bool := do
  let reach ← plus (max l.endLine l.startLine) lineTolerance
  if first ≤ reach then
    let reach ← plus last lineTolerance
    return l.startLine ≤ reach
  else
    return false

/-- Fields begin near the location; methods and types overlap it. -/
def linesMatch (plus : Addition) (n : Node) (l : Location) : Option Bool :=
  match n.lineStart, n.lineEnd with
  | some first, some last =>
    if first = 0 then some false
    else
      match n.kind with
      | .field => some (lineDistance first l.startLine ≤ lineTolerance)
      | .method | .type => overlaps plus first last l
      | .project | .package | .file => some false
  | _, _ => some false

def distance (n : Node) (l : Location) : Nat :=
  let first := n.lineStart.getD 0
  let last := n.lineEnd.getD first
  (lineDistance first l.startLine).toNat + (lineDistance last l.endLine).toNat

def kindMatches (hint : Option NodeKind) (k : NodeKind) : Bool :=
  match hint with
  | some h => k = h
  | none => k = .method || k = .type || k = .field

def compared (g : Graph) (l : Location) (hint : Option NodeKind) : List Node :=
  g.nodes.filter fun n =>
    kindMatches hint n.kind && pathsMatch (slashed n.filePath) (slashed l.filePath)

def pool (l : Location) (ns : List Node) : List Node :=
  match l.elementName? with
  | some name =>
    let named := ns.filter (·.name = name)
    if named.isEmpty then ns else named
  | none => ns

def nearest (l : Location) (ns : List Node) : List Node :=
  ns.filter fun n => ns.all fun m => distance n l ≤ distance m l

def pick (l : Location) (candidates : List Node) : Resolution :=
  match nearest l (pool l candidates) with
  | [] => .unmatched
  | [n] => .found n.id
  | ns => .ambiguous (ns.map (·.id))

def resolveBy (plus : Addition) (g : Graph) (l : Location) (hint : Option NodeKind) :
    Option Resolution :=
  if l.startLine = 0 ∨ l.filePath = "" then some .unmatched
  else ((compared g l hint).filterM (linesMatch plus · l)).map (pick l)

/-- Resolves a location; none if a sum of lines is too large and the program stops. -/
def resolve? (g : Graph) (l : Location) (hint : Option NodeKind) : Option Resolution :=
  resolveBy .checked g l hint

def target? (g : Graph) (l : Location) (hint : Option NodeKind) : Option NodeId :=
  (resolve? g l hint).bind Resolution.node?

end Lineage.Refactoring
