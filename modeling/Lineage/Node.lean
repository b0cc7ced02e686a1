import Lineage.Sorted
import Lineage.Text
/-! # Nodes

The entities of a code base as nodes of a graph: what kind they are, where they are declared, and in
which versions they occur. `Node.key` names the entity behind a node independently of the version,
and `Node.fingerprint` collects what must stay the same for the entity to count as unchanged.
-/
namespace Lineage

structure NodeId where
  number : Nat
  deriving DecidableEq, Repr, Inhabited

instance : LT NodeId := ⟨fun a b => a.number < b.number⟩
instance : LE NodeId := ⟨fun a b => a.number ≤ b.number⟩
instance (a b : NodeId) : Decidable (a < b) := inferInstanceAs (Decidable (a.number < b.number))
instance (a b : NodeId) : Decidable (a ≤ b) := inferInstanceAs (Decidable (a.number ≤ b.number))

inductive NodeKind where
  | project
  | package
  | file
  | type
  | method
  | field
  deriving DecidableEq, Repr, Inhabited

namespace NodeKind

def all : List NodeKind := [.project, .package, .file, .type, .method, .field]

def name : NodeKind → String
  | project => "Project"
  | package => "Package"
  | file => "File"
  | type => "Type"
  | method => "Method"
  | field => "Field"

def ofName? (s : String) : Option NodeKind := all.find? (·.name == s)

def isMember : NodeKind → Bool
  | method | field => true
  | project | package | file | type => false

end NodeKind

inductive Status where
  | unchanged
  | modified
  | added
  | deleted
  deriving DecidableEq, Repr, Inhabited

namespace Status

def all : List Status := [.unchanged, .modified, .added, .deleted]

def name : Status → String
  | unchanged => "UNCHANGED"
  | modified => "MODIFIED"
  | added => "ADDED"
  | deleted => "DELETED"

def ofName? (s : String) : Option Status := all.find? (·.name == s)

end Status

/-! The names of metadata entries. -/
namespace Meta

def type : String := "type"
def returnType : String := "returnType"
def modifiers : String := "modifiers"
def package : String := "package"
def imports : String := "imports"
def typeKind : String := "typeKind"
def methodKind : String := "methodKind"
def renamedFrom : String := "renamedFrom"

end Meta

structure Node where
  id : NodeId := ⟨0⟩
  kind : NodeKind
  name : String
  qualifiedName : String
  filePath : String := ""
  lineStart : Option UInt32 := none
  lineEnd : Option UInt32 := none
  source : Option String := none
  doc : Option String := none
  summary : Option String := none
  metadata : TextMap String := .empty
  versions : TextSet := .empty
  status : Option Status := none
  firstVersion : Option String := none
  lastVersion : Option String := none
  deriving DecidableEq, Inhabited

/-- The name of an entity: its kind, and a text that is the same in every version. -/
structure EntityKey where
  kind : NodeKind
  text : String
  deriving DecidableEq, Repr, Inhabited

/-- What must stay the same for an entity to count as unchanged. -/
structure Fingerprint where
  kind : NodeKind
  attributes : List (Option String)
  deriving DecidableEq

def slashed (path : String) : String := Text.replaceChar '\\' '/' path

namespace Node

def metadatum (n : Node) (key : String) : Option String := n.metadata.get? key

def withMetadatum (n : Node) (key value : String) : Node :=
  { n with metadata := n.metadata.insert key value }

/-- Takes from `other` what `n` lacks, and all its versions. -/
def absorb (n other : Node) : Node :=
  { n with
    source := n.source <|> other.source
    doc := n.doc <|> other.doc
    summary := n.summary <|> other.summary
    lineStart := n.lineStart <|> other.lineStart
    lineEnd := if n.lineStart.isNone then other.lineEnd else n.lineEnd
    metadata := n.metadata.fillFrom other.metadata
    versions := n.versions.union other.versions }

/-- Files go by their path, fields by their name and type, all else by the qualified name. -/
def keyText (n : Node) : String :=
  match n.kind with
  | .project | .package | .type | .method => n.qualifiedName
  | .file => slashed n.filePath
  | .field => n.qualifiedName ++ ":" ++ (n.metadatum Meta.type).getD ""

def key (n : Node) : EntityKey := ⟨n.kind, n.keyText⟩

/-- A type's source is its header, so that an edit inside its body leaves the type unchanged. -/
def fingerprint (n : Node) : Fingerprint :=
  ⟨n.kind,
    match n.kind with
    | .method =>
      [n.source, some n.qualifiedName, n.metadatum Meta.modifiers, n.metadatum Meta.returnType]
    | .field => [n.source, n.metadatum Meta.type, n.metadatum Meta.modifiers]
    | .type => [n.source, n.metadatum Meta.modifiers]
    | .file => [n.metadatum Meta.package, n.metadatum Meta.imports]
    | .project | .package => [some n.qualifiedName]⟩

def stamp (commit : String) (n : Node) : Node :=
  { n with
    versions := n.versions.insert commit
    firstVersion := n.firstVersion <|> some commit
    lastVersion := some commit }

end Node

end Lineage
