import Lineage.Git.Log
/-! # Disks

A tree of files with the repositories in it. A repository with a working tree belongs to the folder
of that tree, which holds a folder `.git`; a bare one to a folder of its own.
-/
namespace Lineage.Git

structure Disk where
  tree : FileTree := .empty
  repositories : TextMap Repository := .empty
  deriving DecidableEq

instance : Inhabited Disk := ⟨{}⟩

namespace Disk

def gitFolder : String := ".git"

def addRepository (d : Disk) (folder : String) (isBare : Bool) : Disk where
  tree := if isBare then d.tree.addFolder folder else d.tree.addFolder (Path.below folder gitFolder)
  repositories := d.repositories.insert folder { isBare }

def repository (d : Disk) (folder : String) : Repository :=
  (d.repositories.get? folder).getD default

def setRepository (d : Disk) (folder : String) (r : Repository) : Disk :=
  { d with repositories := d.repositories.insert folder r }

def modifyRepository (d : Disk) (folder : String) (f : Repository → Repository) : Disk :=
  d.setRepository folder (f (d.repository folder))

def discover? (d : Disk) (start path : String) : Option String :=
  (d.tree.locate? start path).bind fun place =>
    (place :: Path.around place).find? d.repositories.contains

def workFiles (d : Disk) (folder : String) : Tree :=
  .ofList ((d.tree.filesIn folder).filter fun e => !FileTree.isAtOrBelow gitFolder e.1)

/-! ## Writing versions -/

/-- Removes a folder and those around it, up to a working tree, as long as they are empty. -/
def pruneFolders (t : FileTree) (folder : String) : List String → FileTree
  | [] => t
  | f :: fs =>
    let place := Path.below folder f
    if f = "" || !t.isFolder place then t
    else if (t.filesIn place).isEmpty && !(t.folders.toList.any fun g =>
        (Path.inside? place g).isSome) then
      pruneFolders (t.remove place) folder fs
    else t

def removeFile (folder : String) (t : FileTree) (path : String) : FileTree :=
  pruneFolders (t.remove (Path.below folder path)) folder (Path.around path)

def placeFile (folder : String) (t : FileTree) (e : String × Content) : FileTree :=
  let place := Path.below folder e.1
  let t := ((Path.around e.1).map (Path.below folder)).foldl
    (fun t f => if t.isFile f then t.remove f else t) t
  let t := if t.isFolder place then t.remove place else t
  t.write place e.2

/-- Makes the working tree and the index hold what is checked out; other files stay. -/
def reset (d : Disk) (folder : String) : Disk :=
  let r := d.repository folder
  if r.isBare then d
  else
    let target := r.headTree
    let gone := r.index.paths.filter fun p =>
      !target.contains p && d.tree.isFile (Path.below folder p)
    let tree := target.entries.foldl (placeFile folder) (gone.foldl (removeFile folder) d.tree)
    { d with tree }.setRepository folder { r with index := target }

def commit (d : Disk) (folder name : String) (draft : Repository.Draft) : Disk :=
  let isOn := (d.repository folder).isOn name
  let d := d.modifyRepository folder (·.commit name draft)
  if isOn then d.reset folder else d

def setHead (d : Disk) (folder : String) (head : Head) : Disk :=
  (d.modifyRepository folder ({ · with head })).reset folder

end Disk

end Lineage.Git
