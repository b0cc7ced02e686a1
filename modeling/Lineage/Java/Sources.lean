import Lineage.Commit
import Lineage.IgnoreRules
import Lineage.Java.Snapshot
/-! # The Java sources of a file tree

Which files below a folder are Java sources, and the graph of all of them. Hidden files and what
ignore rules leave out do not count; rules for version control hold only in a repository.
-/
namespace Lineage.Java.Sources

/-- The folders around a path up to the nearest repository, if there is one. -/
def upToRepository (t : FileTree) : List String → Option (List String)
  | [] => none
  | f :: fs =>
    let mark := Path.below f ".git"
    if t.isFolder mark || t.isFile mark then some [f] else (upToRepository t fs).map (f :: ·)

def isLeftOut (t : FileTree) (path : String) : Bool :=
  let isFolder := t.isFolder path
  let around := Path.around path
  let byIgnore := IgnoreRules.verdictOf? .name t ".ignore" around path isFolder
  let byRepository :=
    (upToRepository t around).bind fun fs =>
      IgnoreRules.verdictOf? .name t ".gitignore" fs path isFolder <|>
        IgnoreRules.verdictOf? .name t ".git/info/exclude" fs path isFolder
  match byIgnore <|> byRepository with
  | some verdict => verdict
  | none => Text.startsWith "." (Path.lastName path)

/-- Whether a walk from a folder reaches a path inside it. -/
def isReached (t : FileTree) (root inner : String) : Bool :=
  (inner :: (Path.around inner).filter (· ≠ "")).all fun p => !isLeftOut t (Path.below root p)

def isSource (path : String) : Bool := Path.extension? path = some "java"

def discover (t : FileTree) (root : String) : List String :=
  let paths := ((t.filesIn root).map (·.1)).filter fun p => isSource p && isReached t root p
  (paths.map slashed).mergeSort fun a b => decide (a ≤ b)

/-- The declarations of a source; none if there is no such file or it is no text. -/
def facts? (parser : Parser) (t : FileTree) (root path : String) : Option FileFacts :=
  match t.file? (Path.below root path) with
  | some (.text source) => some (.ofSource parser path source)
  | _ => none

def folderName (root : String) : String := if root = "" then "project" else Path.lastName root

def graph (parser : Parser) (t : FileTree) (projectName : Option String) (root : String) : Graph :=
  Snapshot.graph (projectName.getD (folderName root))
    ((discover t root).filterMap (facts? parser t root))

inductive Error where
  | notAFolder (root : String)
  deriving DecidableEq, Repr

def Error.chain : Error → List String
  | notAFolder root => [s!"Failed to read {root}: not a directory", "not a directory"]

def folder? (t : FileTree) (start root : String) : Except Error String :=
  match t.locate? start root with
  | some path => if t.isFolder path then .ok path else .error (.notAFolder root)
  | none => .error (.notAFolder root)

def parse (parser : Parser) (t : FileTree) (projectName : Option String) (start root : String) :
    Except Error Graph :=
  (folder? t start root).map (graph parser t projectName)

def parseFailure (root : String) (c : Commit) (e : Error) : List String :=
  s!"Failed to parse {root} at {c.shortId}" :: e.chain

end Lineage.Java.Sources
