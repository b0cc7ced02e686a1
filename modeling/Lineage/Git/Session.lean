import Lineage.Git.Checkout
/-! # Sessions

Work on one repository that may check versions out and in the end goes back to what was checked
out when it was opened. The rules of checkouts stand on steps that may fail, over any kind of
repository; `steps` gives them for disks.
-/
namespace Lineage.Git

/-- The steps of checkouts, over repositories of type `ρ`. -/
structure Steps (ρ : Type) where
  cleanUp : StateM ρ (Except RepositoryError Nat)
  dirtyFiles : StateM ρ (Except RepositoryError (List String))
  resolve : String → StateM ρ (Except RepositoryError Id)
  tip : String → StateM ρ (Except RepositoryError Id)
  /-- Puts a commit's version, asked for by a reference, into the working tree. -/
  place : String → Id → StateM ρ (Except RepositoryError Unit)
  detach : Id → StateM ρ (Except RepositoryError Unit)
  attach : String → StateM ρ (Except RepositoryError Unit)

structure Session (ρ : Type) where
  repository : ρ
  home : Head
  /-- Whether something else may be checked out now. -/
  moved : Bool := false

namespace Session

variable {ρ α : Type}

/-- Work of a session that may fail; what it did before stays done. -/
abbrev Work (ρ : Type) := ExceptT RepositoryError (StateM (Session ρ))

def step (s : StateM ρ (Except RepositoryError α)) : Work ρ α := fun session =>
  let (answer, repository) := s session.repository
  (answer, { session with repository })

def setMoved (moved : Bool) : Work ρ Unit := modify ({ · with moved })

def checkout (s : Steps ρ) (reference : String) : Work ρ Unit := do
  let _ ← step s.cleanUp
  let dirty ← step s.dirtyFiles
  if !dirty.isEmpty then throw (.dirty reference dirty)
  let id ← step (s.resolve reference)
  step (s.place reference id)
  step (s.detach id)
  setMoved true

/-- Goes back to what was checked out at first, if something else may be now. -/
def restore (s : Steps ρ) : Work ρ Unit := do
  let session ← get
  if session.moved then
    let _ ← step s.cleanUp
    match session.home with
    | .branch name =>
      let id ← step (s.tip name)
      step (s.place name id)
      step (s.attach name)
    | .detached commit =>
      let id ← step (s.resolve commit)
      step (s.place commit id)
      step (s.detach commit)
    setMoved false

end Session

structure Workplace where
  folder : String
  stale : List Glob := []

namespace Workplace

def shown (folder : String) : String := if folder = "" then "/" else "/" ++ folder ++ "/"

def answer {α : Type} (w : Workplace) (f : Repository → Except RepositoryError α) :
    StateM Disk (Except RepositoryError α) := fun d => (f (d.repository w.folder), d)

def cleanUp (w : Workplace) : StateM Disk Nat := fun d => Status.cleanUp w.stale w.folder d

def tip (r : Repository) (name : String) : Except RepositoryError Id :=
  match (r.refs.get? name).bind r.objects.peel? with
  | some id => .ok id
  | none => .error (.unresolved name)

/-- Where the lock stands while a program records what is checked out. -/
def headLock (w : Workplace) : String := Path.below w.folder (Disk.gitFolder ++ "/HEAD.lock")

def record (w : Workplace) (head : Head) : StateM Disk (Except RepositoryError Unit) := fun d =>
  if d.tree.isFile w.headLock || d.tree.isFolder w.headLock then
    (.error (.locked ("/" ++ w.headLock)), d)
  else (.ok (), d.modifyRepository w.folder ({ · with head }))

def steps (w : Workplace) : Steps Disk where
  cleanUp := do return .ok (← w.cleanUp)
  dirtyFiles := fun d => (.ok (Status.dirtyFiles d w.folder), d)
  resolve reference := w.answer (·.resolve reference)
  tip name := w.answer (tip · name)
  place reference id := fun d =>
    match Checkout.run? w.folder id d with
    | some d => (.ok (), d)
    | none => (.error (.checkout reference), d)
  detach id := w.record (.detached id)
  attach name := w.record (.branch name)

def asked {α : Type} (question : StateM Disk α) : StateM (Session Disk) α := fun session =>
  let (answer, repository) := question session.repository
  (answer, { session with repository })

def history (w : Workplace) : History (Session Disk) where
  info reference := asked (w.answer (·.info reference))
  parent reference := asked (w.answer (·.parent reference))
  linear reference depth := asked (w.answer (·.linear reference depth))
  changedFiles reference := asked (w.answer (·.changedFiles reference))
  checkout reference := Session.checkout w.steps reference
  restore := Session.restore w.steps

def home? (r : Repository) : Option Head :=
  r.headId?.map fun id =>
    match r.head with
    | .branch name => if Text.startsWith "refs/heads/" name then .branch name else .detached id
    | .detached id => .detached id

def opened (d : Disk) (start path : String) : Except RepositoryError (Workplace × Head) :=
  match d.discover? start path with
  | none => .error (.absent path)
  | some folder =>
    let r := d.repository folder
    if r.isBare then .error (.bare (shown folder))
    else
      match home? r with
      | some head => .ok ({ folder }, head)
      | none => .error (.unresolved "HEAD")

def withStale (w : Workplace) (patterns : List String) : Except RepositoryError Workplace := do
  let globs ← patterns.mapM fun p =>
    (Glob.ofText .path p).mapError (RepositoryError.badPattern p)
  return { w with stale := globs }

end Workplace

end Lineage.Git
