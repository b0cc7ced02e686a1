import Lineage.FileTree
import Lineage.Warning
/-! # Export

The four documents that describe a graph: its nodes, its edges, the versions it covers, and a
summary; and how they are written below a folder of the project.
-/
namespace Lineage

structure Version where
  label : String
  commit : Commit
  deriving DecidableEq, Repr, Inhabited

structure Export where
  project : String
  graph : Graph
  versions : List Version
  diagnostics : Diagnostics
  deriving Inhabited

namespace Export

def toolVersion : String := "0.1.0"

def nodesFile : String := "nodes.json"
def edgesFile : String := "edges.json"
def versionsFile : String := "versions.json"
def summaryFile : String := "summary.json"

def statistics (e : Export) : Statistics := .ofGraph e.graph

def nodeJson (n : Node) : Json := .record (n.fields ++ [("identityKey", .text n.keyText)])

def edgeJson (e : Edge) : Json :=
  .record (e.fields ++ [("type", .text e.kind.label), ("evolution", .bool e.kind.isEvolution)])

def versionJson (v : Version) : Json := .record (("label", .text v.label) :: v.commit.fields)

def summaryJson (e : Export) (time : String) : Json :=
  .record
    [("project", .text e.project),
     ("exportedAt", .text time),
     ("toolVersion", .text toolVersion),
     ("statistics", e.statistics.toJson),
     ("versionCount", .nat e.versions.length),
     ("warningCount", .nat e.diagnostics.count),
     ("warningsByKind", Statistics.countsJson e.diagnostics.byKind)]

def documents (e : Export) (time : String) : List (String × Json) :=
  [(nodesFile, .list (e.graph.nodes.map nodeJson)),
   (edgesFile, .list (e.graph.edges.map edgeJson)),
   (versionsFile, .list (e.versions.map versionJson)),
   (summaryFile, e.summaryJson time)]

def texts (e : Export) (pretty : Bool) (time : String) : List (String × String) :=
  (e.documents time).map fun (name, j) => (name, if pretty then j.indented else j.compact)

/-- A project's name without what separates the parts of a path. -/
def folderName (project : String) : String :=
  project.map fun c => if c = '/' ∨ c = '\\' ∨ c = ':' then '_' else c

def directory (baseDir project : String) : String := Path.join baseDir (folderName project)

structure Failure where
  path : String
  deriving DecidableEq, Repr

def Failure.message (f : Failure) : String := s!"Failed to write {f.path}"

def writeOne (place shown : String) (t : FileTree) (f : String × String) :
    Except Failure FileTree :=
  let path := Path.below place f.1
  if t.isFolder path then .error ⟨Path.join shown f.1⟩ else .ok (t.writeText path f.2)

/-- Writes the documents below a folder, itself below the place where paths start: the files in the
order of writing, and the tree after it. What was written before a failure stays. -/
def write (t : FileTree) (start baseDir : String) (files : List (String × String))
    (project : String) : Except Failure Unit × FileTree :=
  let shown := directory baseDir project
  match t.makeFolders? start shown with
  | none => (.error ⟨shown⟩, t)
  | some (t, place) =>
    files.foldl
      (fun (r, t) f =>
        match r with
        | .error e => (.error e, t)
        | .ok () =>
          match writeOne place shown t f with
          | .ok t => (.ok (), t)
          | .error e => (.error e, t))
      (.ok (), t)

end Export

end Lineage
