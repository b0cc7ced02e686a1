import Lineage.Git.Disk
import Lineage.IgnoreRules
/-! # Status

How a working tree differs from the version that is checked out, and which of its files that version
knows nothing of.
-/
namespace Lineage.Git.Status

def ownVerdict? (t : FileTree) (folder path : String) : Option Bool :=
  let place := Path.below folder path
  let isFolder := t.isFolder place
  let around := (Path.around path).map (Path.below folder)
  IgnoreRules.verdictOf? .plainName t ".gitignore" around place isFolder <|>
    IgnoreRules.verdictOf? .plainName t ".git/info/exclude" [folder] place isFolder

def withFolders (path : String) : List String := path :: (Path.around path).filter (· ≠ "")

/-- Whether rules leave a path out, those of the folders around it if none are its own. -/
def isIgnored (t : FileTree) (folder path : String) : Bool :=
  ((withFolders path).findSome? (ownVerdict? t folder)).getD false

def holdsAny (index : Tree) (folder : String) : Bool :=
  index.paths.any fun p => (Path.inside? folder p).isSome

/-- Whether an untracked file does not show: it is ignored, or it lies in an ignored folder without
tracked files. -/
def isHidden (t : FileTree) (index : Tree) (folder path : String) : Bool :=
  isIgnored t folder path ||
    ((withFolders path).drop 1).any fun f => isIgnored t folder f && !holdsAny index f

/-- Whether a path differs between the version, the index and the working tree. -/
def isDirty (d : Disk) (folder : String) (head index files : Tree) (path : String) : Bool :=
  head.get? path ≠ index.get? path ||
    match index.get? path, files.get? path with
    | some c, now => now ≠ some c
    | none, some _ => !isHidden d.tree index folder path
    | none, none => false

def dirtyFiles (d : Disk) (folder : String) : List String :=
  let r := d.repository folder
  let head := r.headTree
  let files := d.workFiles folder
  ((TextSet.ofList (head.paths ++ r.index.paths ++ files.paths)).toList).filter
    (isDirty d folder head r.index files)

def untracked (d : Disk) (folder : String) : List String :=
  let index := (d.repository folder).index
  (d.workFiles folder).paths.filter (!index.contains ·)

def cleanUp (globs : List Glob) (folder : String) (d : Disk) : Nat × Disk :=
  let stale := (untracked d folder).filter fun p => globs.any (·.accepts p)
  (stale.length, { d with tree := stale.foldl (fun t p => t.remove (Path.below folder p)) d.tree })

end Lineage.Git.Status
