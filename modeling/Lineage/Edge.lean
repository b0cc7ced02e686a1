import Lineage.Confidence
import Lineage.Node
/-! # Edges

Relations between nodes: structural ones, found in one version, and evolution ones, which lead from
an entity to what a refactoring made of it.
-/
namespace Lineage

structure EdgeId where
  number : Nat
  deriving DecidableEq, Repr, Inhabited

inductive EdgeKind where
  | contains
  | hasPackage
  | inPackage
  | declaresType
  | declares
  | inherits
  | implements
  | overrides
  | calls
  | reads
  | writes
  | hasParam
  | returnType
  | throws
  | tests
  | renamed
  | moved
  | extracted
  | inlined
  | changedSignature
  | refactored
  | refactoredTo
  | evolvesFrom
  deriving DecidableEq, Repr, Inhabited

namespace EdgeKind

def all : List EdgeKind :=
  [.contains, .hasPackage, .inPackage, .declaresType, .declares, .inherits, .implements, .overrides,
   .calls, .reads, .writes, .hasParam, .returnType, .throws, .tests, .renamed, .moved, .extracted,
   .inlined, .changedSignature, .refactored, .refactoredTo, .evolvesFrom]

def isEvolution : EdgeKind → Bool
  | contains | hasPackage | inPackage | declaresType | declares | inherits | implements | overrides
  | calls | reads | writes | hasParam | returnType | throws | tests => false
  | renamed | moved | extracted | inlined | changedSignature | refactored | refactoredTo
  | evolvesFrom => true

/-- The name in a document's `kind` field. -/
def name : EdgeKind → String
  | contains => "Contains"
  | hasPackage => "HasPackage"
  | inPackage => "InPackage"
  | declaresType => "DeclaresType"
  | declares => "Declares"
  | inherits => "Extends"
  | implements => "Implements"
  | overrides => "Overrides"
  | calls => "Calls"
  | reads => "Reads"
  | writes => "Writes"
  | hasParam => "HasParam"
  | returnType => "ReturnType"
  | throws => "Throws"
  | tests => "Tests"
  | renamed => "Renamed"
  | moved => "Moved"
  | extracted => "Extracted"
  | inlined => "Inlined"
  | changedSignature => "ChangedSignature"
  | refactored => "Refactored"
  | refactoredTo => "RefactoredTo"
  | evolvesFrom => "EvolvesFrom"

/-- The name in statistics and in a document's `type` field. -/
def label : EdgeKind → String
  | contains => "CONTAINS"
  | hasPackage => "HAS_PACKAGE"
  | inPackage => "IN_PACKAGE"
  | declaresType => "DECLARES_TYPE"
  | declares => "DECLARES"
  | inherits => "EXTENDS"
  | implements => "IMPLEMENTS"
  | overrides => "OVERRIDES"
  | calls => "CALLS"
  | reads => "READS"
  | writes => "WRITES"
  | hasParam => "HAS_PARAM"
  | returnType => "RETURN_TYPE"
  | throws => "THROWS"
  | tests => "TESTS"
  | renamed => "RENAMED"
  | moved => "MOVED"
  | extracted => "EXTRACTED"
  | inlined => "INLINED"
  | changedSignature => "CHANGED_SIGNATURE"
  | refactored => "REFACTORED"
  | refactoredTo => "REFACTORED_TO"
  | evolvesFrom => "EVOLVES_FROM"

def ofName? (s : String) : Option EdgeKind := all.find? (·.name == s)

end EdgeKind

structure Triple where
  source : NodeId
  kind : EdgeKind
  target : NodeId
  deriving DecidableEq, Repr

structure Edge where
  id : EdgeId := ⟨0⟩
  source : NodeId
  target : NodeId
  kind : EdgeKind
  /-- One for structural edges, the detector's confidence for evolution edges. -/
  confidence : Confidence := .one
  label : Option String := none
  attributes : TextMap String := .empty
  deriving DecidableEq, Inhabited

namespace Edge

def triple (e : Edge) : Triple := ⟨e.source, e.kind, e.target⟩

def attr (e : Edge) (key : String) : Option String := e.attributes.get? key

def withAttr (e : Edge) (key value : String) : Edge :=
  { e with attributes := e.attributes.insert key value }

def withEndpoints (e : Edge) (source target : NodeId) : Edge :=
  { e with id := ⟨0⟩, source, target }

@[simp] theorem triple_withEndpoints (e : Edge) (s t : NodeId) :
    (e.withEndpoints s t).triple = ⟨s, e.kind, t⟩ := rfl

end Edge

end Lineage
