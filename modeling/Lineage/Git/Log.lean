import Lineage.Git.Revision
import Lineage.History
/-! # What a repository says of its commits -/
namespace Lineage.Git.Repository

def resolve (r : Repository) (reference : String) : Except RepositoryError Id :=
  match Revision.commit? r reference with
  | some id => .ok id
  | none => .error (.unresolved reference)

def resolved (r : Repository) (reference : String) :
    Except RepositoryError (Id × CommitObject) := do
  let id ← r.resolve reference
  match r.objects.commit? id with
  | some c => return (id, c)
  | none => throw (.unresolved reference)

def info (r : Repository) (reference : String) : Except RepositoryError Commit :=
  (r.resolved reference).map fun (id, c) => c.toCommit id

/-- The first parent of a commit; it is an error if the commit has one that is lost. -/
def parent (r : Repository) (reference : String) : Except RepositoryError (Option Commit) := do
  let (id, c) ← r.resolved reference
  if c.parents.isEmpty then return none
  match r.objects.parent? id 0 with
  | some p => return (r.objects.commit? p).map (·.toCommit p)
  | none => throw (.missingParent reference)

/-- Up to a number of commits that end at a reference, oldest first, and that one in any case. -/
def linear (r : Repository) (reference : String) (depth : Nat) :
    Except RepositoryError (List Commit) :=
  (r.resolve reference).map fun id => (r.objects.lineage (max depth 1) id).reverse

def differing (old new : Tree) : List String :=
  ((TextSet.ofList (old.paths ++ new.paths)).toList).filter fun p => old.get? p ≠ new.get? p

/-- The paths that differ between a commit and its first parent, with forward slashes, in order; all
paths of a commit whose parent is not there. -/
def changedFiles (r : Repository) (reference : String) : Except RepositoryError (List String) := do
  let (id, c) ← r.resolved reference
  let before := (((r.objects.parent? id 0).bind r.objects.commit?).map (·.tree)).getD .empty
  return (TextSet.ofList ((differing before c.tree).map (Text.replaceChar '\\' '/'))).toList

end Lineage.Git.Repository
