import Lineage.Git.Object
/-! # Repositories

Objects, the names that lead to them, the version that is checked out, and the index of the files
that it put into the working tree.
-/
namespace Lineage.Git

inductive Head where
  | branch (name : String)
  | detached (id : Id)
  deriving DecidableEq, Repr

instance : Inhabited Head := ⟨.branch "refs/heads/main"⟩

structure Repository where
  objects : Store := .empty
  refs : TextMap Id := .empty
  head : Head := default
  index : Tree := .empty
  isBare : Bool := false
  deriving DecidableEq

instance : Inhabited Repository := ⟨{}⟩

namespace Repository

def headId? (r : Repository) : Option Id :=
  match r.head with
  | .branch name => r.refs.get? name
  | .detached id => some id

def reference? (r : Repository) (name : String) : Option Id :=
  if name = "HEAD" then r.headId? else r.refs.get? name

def treeOf? (r : Repository) (id : Id) : Option Tree :=
  ((r.objects.peel? id).bind r.objects.commit?).map (·.tree)

/-- The files of the version that is checked out; none without one. -/
def headTree (r : Repository) : Tree := ((r.headId?.bind r.treeOf?).getD .empty)

def headName (r : Repository) : String :=
  match r.head with
  | .branch name => name
  | .detached id => id

/-! ## Changes -/

def setRef (r : Repository) (name : String) (id : Id) : Repository :=
  { r with refs := r.refs.insert name id }

def deleteRef (r : Repository) (name : String) : Repository := { r with refs := r.refs.erase name }

def addObject (r : Repository) (id : Id) (o : Object) : Repository :=
  { r with objects := r.objects.insert id o }

def lose (r : Repository) (id : Id) : Repository := { r with objects := r.objects.erase id }

/-- Adds a tag with an object of its own, or one that leads straight to an object. -/
def addTagged (r : Repository) (name : String) (id : Id) (o : Object) : Repository :=
  (r.addObject id o).setRef ("refs/tags/" ++ name) id

def isOn (r : Repository) (name : String) : Bool :=
  name = "HEAD" || r.head = .branch name

/-- Moves a reference; the head moves its branch, if it is on one. -/
def advance (r : Repository) (name : String) (id : Id) : Repository :=
  if name = "HEAD" then
    match r.head with
    | .branch branch => r.setRef branch id
    | .detached _ => { r with head := .detached id }
  else r.setRef name id

structure Draft where
  id : Id
  changes : List (String × Option Content)
  time : Int
  message : String
  author : String
  parents : Option (List Id)

def commit (r : Repository) (name : String) (d : Draft) : Repository :=
  let parents := d.parents.getD (r.reference? name).toList
  let start := (parents.head?.bind r.treeOf?).getD .empty
  let object : CommitObject :=
    ⟨d.changes.foldl Tree.change start, parents, trimmedName d.author, d.time, d.message⟩
  (r.addObject d.id (.commit object)).advance name d.id

end Repository

end Lineage.Git
