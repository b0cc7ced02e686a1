import Lineage.Git.Status
/-! # Checkouts

Takes a working tree from the version that is checked out to another one. Only paths that differ
between the two are touched, and if one of them would lose what is in the working tree, nothing is.
-/
namespace Lineage.Git.Checkout

inductive Change where
  | write (path : String) (c : Content)
  | remove (path : String)
  deriving DecidableEq, Repr

def differences (old new : Tree) : List (String × Option Content × Option Content) :=
  (Repository.differing old new).map fun p => (p, old.get? p, new.get? p)

/-- The files that only the old version has and that are as it left them. -/
def removable (old new files : Tree) : List String :=
  (old.entries.filter fun e => !new.contains e.1 && files.get? e.1 = some e.2).map (·.1)

def isObstructed (files : Tree) (path : String) : Bool :=
  (Path.around path).any files.contains || Status.holdsAny files path

/-- What happens to a path: the change, if any, or none at all where it would lose something.
`left` are the files without the removable ones. -/
def change? (files left : Tree) (isIgnored : String → Bool) (path : String) :
    Option Content → Option Content → Option (List Change)
  | none, none => some []
  | some old, none =>
    match files.get? path with
    | none => some []
    | some now => if now = old then some [.remove path] else none
  | none, some new =>
    if isObstructed left path then none
    else if left.contains path && !isIgnored path then none
    else some [.write path new]
  | some old, some new =>
    match files.get? path with
    | none => none
    | some now => if now = old ∨ now = new then some [.write path new] else none

def plan? (files : Tree) (isIgnored : String → Bool) (old new : Tree) : Option (List Change) :=
  let gone := removable old new files
  let left := gone.foldl TextMap.erase files
  ((differences old new).mapM fun (path, o, n) => change? files left isIgnored path o n).map
    List.flatten

def applyToIndex (index : Tree) : Change → Tree
  | .write path c => index.put path c
  | .remove path => index.erase path

def removals (cs : List Change) : List String :=
  cs.filterMap fun
    | .remove path => some path
    | .write .. => none

def writes (cs : List Change) : List (String × Content) :=
  cs.filterMap fun
    | .write path c => some (path, c)
    | .remove _ => none

def applyAll (d : Disk) (folder : String) (cs : List Change) : Disk :=
  let tree := (writes cs).foldl (Disk.placeFile folder)
    ((removals cs).foldl (Disk.removeFile folder) d.tree)
  { d with tree }.modifyRepository folder fun r =>
    { r with index := cs.foldl applyToIndex r.index }

/-- The files of the version that is checked out, which is refused if it is lost. -/
def baseline? (r : Repository) : Option Tree :=
  match r.headId? with
  | some id => r.treeOf? id
  | none => some .empty

/-- Puts a commit's version into the working tree; what is checked out stays the same. -/
def run? (folder : String) (id : Id) (d : Disk) : Option Disk := do
  let r := d.repository folder
  let start ← baseline? r
  let target ← r.treeOf? id
  let cs ← plan? (d.workFiles folder) (Status.isIgnored d.tree folder) start target
  return applyAll d folder cs

end Lineage.Git.Checkout
