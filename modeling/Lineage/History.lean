import Lineage.Commit
import Lineage.Glob
/-! # History

What can be asked of a repository: commits, their first parents, what they changed; and that it puts
a version into the working tree and takes it back. Answers depend on a world that asking may change.
-/
namespace Lineage

inductive RepositoryError where
  | absent (path : String)
  | bare (path : String)
  | unresolved (reference : String)
  | missingParent (commit : String)
  | dirty (reference : String) (files : List String)
  | checkout (reference : String)
  | badPattern (pattern : String) (reason : GlobError)
  | locked (path : String)
  deriving DecidableEq, Repr

def RepositoryError.message : RepositoryError → String
  | absent path => s!"Failed to open git repository at {path}"
  | bare path => s!"Repository at {path} has no working directory"
  | unresolved reference => s!"Cannot resolve reference `{reference}`"
  | missingParent commit => s!"Parent of {commit} is not available (shallow history?)"
  | dirty reference files =>
    s!"Working tree has uncommitted changes, refusing to check out `{reference}`: " ++
      Text.join ", " files
  | checkout reference => s!"Checkout of `{reference}` failed"
  | badPattern pattern reason =>
    s!"Invalid stale-artifact pattern {Text.quoted pattern}: {Glob.problem pattern reason}"
  | locked path => s!"failed to lock file '{path}' for writing: ; class=Os (2); code=Locked (-14)"

/-- The answers of a repository, over worlds of type `σ`. -/
structure History (σ : Type) where
  info : String → StateM σ (Except RepositoryError Commit)
  parent : String → StateM σ (Except RepositoryError (Option Commit))
  /-- Up to a number of commits that end at a reference, each the first parent of the next. -/
  linear : String → Nat → StateM σ (Except RepositoryError (List Commit))
  /-- The paths that differ between a commit and its first parent. -/
  changedFiles : String → StateM σ (Except RepositoryError (List String))
  checkout : String → StateM σ (Except RepositoryError Unit)
  restore : StateM σ (Except RepositoryError Unit)

/-- The same answers over worlds that hold more. -/
def History.widen {σ τ : Type} (h : History σ) (lift : {α : Type} → StateM σ α → StateM τ α) :
    History τ where
  info reference := lift (h.info reference)
  parent reference := lift (h.parent reference)
  linear reference depth := lift (h.linear reference depth)
  changedFiles reference := lift (h.changedFiles reference)
  checkout reference := lift (h.checkout reference)
  restore := lift h.restore

end Lineage
