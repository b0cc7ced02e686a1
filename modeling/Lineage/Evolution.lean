import Lineage.Refactoring.Operation
/-! # Evolution edges

The edges that an operation gives between the nodes it leads from and to, and the edges between the
types around those nodes.
-/
namespace Lineage.Evolution

open Refactoring (Operation Location)

/-- The value that marks edges between the types around members. -/
def memberChanged : String := "MEMBER_CHANGED"

/-- The pairs of nodes that an operation joins: an extraction leads from its first source to every
target, an inlining from every source to its first target, all else from first to first. -/
def endpoints (family : Refactoring.Family) (sources targets : List NodeId) :
    List (NodeId × NodeId) :=
  match sources, targets with
  | s :: _, t :: _ =>
    match family with
    | .extract => targets.map fun t' => (s, t')
    | .inline => sources.map fun s' => (s', t)
    | .rename | .move | .changeSignature | .other => [(s, t)]
  | _, _ => []

structure Origin where
  fromVersion : String
  toVersion : String
  detector : String

def listing (xs : List String) : Option String :=
  let distinct := xs.foldl (fun seen x => if seen.contains x then seen else seen ++ [x]) []
  if distinct.isEmpty then none else some (Text.join "; " distinct)

def elements (ls : List Location) : List String :=
  (ls.filterMap (·.element)).map Text.trim |>.filter (· ≠ "")

def particulars (op : Operation) (old new : Node) : List (String × Option String) :=
  match op.kind.edgeKind with
  | .renamed => [("oldName", some old.name), ("newName", some new.name)]
  | .moved => [("oldLocation", some old.qualifiedName), ("newLocation", some new.qualifiedName)]
  | .changedSignature =>
    [("oldSignature", some old.qualifiedName), ("newSignature", some new.qualifiedName),
     ("changeType", op.kind.subtype?)]
  | .extracted => [("extractType", op.kind.subtype?)]
  | .inlined => [("inlineType", op.kind.subtype?)]
  | .refactored => [("subType", some (op.kind.subtype?.getD op.kind.name))]
  | _ => []

def attributes (op : Operation) (old new : Node) (o : Origin) : List (String × Option String) :=
  [("refactoringType", some op.kind.name),
   ("detectedBy", some o.detector),
   ("description", if op.description = "" then none else some op.description),
   ("leftLocations", listing (op.before.map Location.describe)),
   ("rightLocations", listing (op.after.map Location.describe)),
   ("leftElements", listing (elements op.before)),
   ("rightElements", listing (elements op.after)),
   ("fromVersion", some o.fromVersion),
   ("toVersion", some o.toVersion),
   ("versionFlow", some (o.fromVersion ++ "->" ++ o.toVersion))] ++ particulars op old new

def collect (xs : List (String × Option String)) : TextMap String :=
  .ofList (xs.filterMap fun (k, v) => v.map (k, ·))

/-- The edge of an operation between two nodes; `old` and `new` are what stands behind them in the
two versions. -/
def edge (op : Operation) (source target : NodeId) (old new : Node) (o : Origin) : Edge where
  source := source
  target := target
  kind := op.kind.edgeKind
  confidence := op.confidence
  label := some op.kind.name
  attributes := collect (attributes op old new o)

def memberEdge (source target : NodeId) (memberKind : NodeKind) (e : Edge) : Edge where
  source := source
  target := target
  kind := .refactored
  confidence := e.confidence
  label := some memberChanged
  attributes := collect <|
    [("refactoringType", some memberChanged),
     ("subType", some memberChanged),
     ("propagatedMemberType", some memberKind.name),
     ("propagatedMemberRefactoring", some ((e.attr "refactoringType").getD e.kind.label))] ++
    ["detectedBy", "fromVersion", "toVersion", "versionFlow"].map fun k => (k, e.attr k)

end Lineage.Evolution
