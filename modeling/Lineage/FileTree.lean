import Lineage.Path
import Lineage.Sorted
/-! # Trees of files

Files and folders below one root, by their paths. Such a path has no empty, single-dot or double-dot
parts and no slash at an end; the root itself is the empty path.
-/
namespace Lineage

inductive Content where
  | text (s : String)
  | bytes
  deriving DecidableEq, Repr, Inhabited

inductive FileError where
  | missing
  | notAFolder
  | isAFolder
  | notText
  deriving DecidableEq, Repr

def FileError.message : FileError → String
  | .missing => "No such file or directory (os error 2)"
  | .notAFolder => "Not a directory (os error 20)"
  | .isAFolder => "Is a directory (os error 21)"
  | .notText => "stream did not contain valid UTF-8"

namespace Path

def around (path : String) : List String :=
  let names := Text.pieces (· == '/') path
  (List.range names.length).reverse.map fun n => Text.join "/" (names.take n)

def parent (path : String) : String := ((around path).head?).getD ""

def lastName (path : String) : String := ((Text.pieces (· == '/') path).getLast?).getD ""

def inside? (folder path : String) : Option String :=
  if folder = "" then some path else Text.after? (folder ++ "/") path

def below (folder name : String) : String :=
  if folder = "" then name else if name = "" then folder else folder ++ "/" ++ name

end Path

structure FileTree where
  files : TextMap Content
  folders : TextSet
  deriving DecidableEq, Inhabited

namespace FileTree

def empty : FileTree := ⟨.empty, .empty⟩

def file? (t : FileTree) (path : String) : Option Content := t.files.get? path

def isFile (t : FileTree) (path : String) : Bool := (t.file? path).isSome

def isFolder (t : FileTree) (path : String) : Bool := path = "" || t.folders.contains path

def addFolder (t : FileTree) (path : String) : FileTree :=
  { t with folders := ((path :: Path.around path).filter (· ≠ "")).foldl TextSet.insert t.folders }

def write (t : FileTree) (path : String) (c : Content) : FileTree :=
  { t.addFolder (Path.parent path) with files := t.files.insert path c }

def writeText (t : FileTree) (path text : String) : FileTree := t.write path (.text text)

def isAtOrBelow (folder path : String) : Bool :=
  path = folder || (Path.inside? folder path).isSome

def remove (t : FileTree) (path : String) : FileTree where
  files := .ofList (t.files.entries.filter fun e => !isAtOrBelow path e.1)
  folders := .ofList (t.folders.toList.filter fun f => !isAtOrBelow path f)

def filesIn (t : FileTree) (folder : String) : List (String × Content) :=
  t.files.entries.filterMap fun e => (Path.inside? folder e.1).map fun p => (p, e.2)

def enter? (t : FileTree) (here name : String) : Option String :=
  if !t.isFolder here then none
  else if name = "" ∨ name = "." then some here
  else if name = ".." then some (Path.parent here)
  else
    let next := Path.below here name
    if t.isFile next || t.isFolder next then some next else none

/-- The file or folder that a written path leads to, from a folder. -/
def locate? (t : FileTree) (start path : String) : Option String :=
  (Text.pieces (· == '/') path).foldlM t.enter? (if Path.isAbsolute path then "" else start)

def readText (t : FileTree) (start path : String) : Except FileError String :=
  match t.locate? start path with
  | none => .error .missing
  | some place =>
    match t.file? place with
    | some (.text s) => .ok s
    | some .bytes => .error .notText
    | none => .error .isAFolder

/-- Whether a name can be that of a file: it has no zero character and at most 255 bytes. -/
def isFileName (name : String) : Bool := !name.toList.contains '\x00' && name.utf8ByteSize ≤ 255

def enterNew? (at' : FileTree × String) (name : String) : Option (FileTree × String) :=
  let (t, here) := at'
  if name = "" ∨ name = "." then some (t, here)
  else if name = ".." then some (t, Path.parent here)
  else
    let next := Path.below here name
    if t.isFile next || !isFileName name then none else some (t.addFolder next, next)

/-- Makes the folders that a written path needs, and gives the last one. A path that ends in a dot
needs a folder that is there. -/
def makeFolders? (t : FileTree) (start path : String) : Option (FileTree × String) :=
  if path = "." || Text.endsWith "/." path then
    (t.locate? start path).bind fun p => if t.isFolder p then some (t, p) else none
  else
    (Text.pieces (· == '/') path).foldlM enterNew? (t, if Path.isAbsolute path then "" else start)

end FileTree

end Lineage
