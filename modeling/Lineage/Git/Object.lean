import Lineage.Commit
import Lineage.FileTree
import Lineage.Git.Summary
/-! # Objects

What a repository stores under ids: commits with the files of their versions, tags, and loose files.
-/
namespace Lineage.Git

/-- Forty digits of base sixteen. -/
abbrev Id := String

abbrev Tree := TextMap Content

namespace Tree

def paths (t : Tree) : List String := t.keys

/-- Removes a file, and all files of a folder of that name. -/
def clear (t : Tree) (path : String) : Tree :=
  ⟨t.entries.filter fun e => !FileTree.isAtOrBelow path e.1, t.sorted.filter _⟩

def put (t : Tree) (path : String) (c : Content) : Tree :=
  ((Path.around path).foldl TextMap.erase (t.clear path)).insert path c

def change (t : Tree) (e : String × Option Content) : Tree :=
  match e.2 with
  | some c => t.put e.1 c
  | none => t.erase e.1

end Tree

structure CommitObject where
  tree : Tree
  parents : List Id
  author : String
  time : Int
  message : String
  deriving DecidableEq

def CommitObject.toCommit (c : CommitObject) (id : Id) : Commit :=
  { Commit.new id c.time with message := Summary.ofMessage c.message, author := c.author }

inductive Object where
  | commit (c : CommitObject)
  | tag (target : Id)
  | blob (content : String)
  deriving DecidableEq

abbrev Store := TextMap Object

namespace Store

def commit? (s : Store) (id : Id) : Option CommitObject :=
  match s.get? id with
  | some (.commit c) => some c
  | _ => none

def isTag (s : Store) (id : Id) : Bool :=
  match s.get? id with
  | some (.tag _) => true
  | _ => false

def peelWithin (s : Store) : Nat → Id → Option Id
  | 0, _ => none
  | n + 1, id =>
    match s.get? id with
    | some (.commit _) => some id
    | some (.tag target) => peelWithin s n target
    | _ => none

/-- The commit that an object is or is a tag of. -/
def peel? (s : Store) (id : Id) : Option Id := s.peelWithin (s.entries.length + 1) id

def parent? (s : Store) (id : Id) (place : Nat) : Option Id := do
  let p ← (← s.commit? id).parents[place]?
  if (s.commit? p).isSome then some p else none

def ancestor? (s : Store) : Nat → Id → Option Id
  | 0, id => some id
  | n + 1, id => (s.parent? id 0).bind (s.ancestor? n)

/-- Up to a number of commits from one on, each the first parent of the one before. -/
def lineage (s : Store) : Nat → Id → List Commit
  | 0, _ => []
  | n + 1, id =>
    match s.commit? id with
    | none => []
    | some c =>
      c.toCommit id ::
        match s.parent? id 0 with
        | some p => s.lineage n p
        | none => []

end Store

end Lineage.Git
