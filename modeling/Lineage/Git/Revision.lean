import Lineage.Git.Repository
/-! # Revisions

How commits are named: by an id or the start of one, by a reference, and by the way from there to an
ancestor (`main~2`, `v1^2`, `HEAD^{commit}`).
-/
namespace Lineage.Git.Revision

inductive Step where
  | back (count : Nat)
  /-- To a parent by its number; zero stays at the commit. -/
  | parent (number : Nat)
  | commit
  | tag
  /-- To whatever is no tag. -/
  | untagged
  deriving DecidableEq, Repr

def countAfter (cs : List Char) : Nat × List Char :=
  let digits := cs.takeWhile Text.isDigit
  (if digits.isEmpty then 1 else Text.digitsValue digits, cs.dropWhile Text.isDigit)

def ofBraces? : String → Option Step
  | "commit" => some .commit
  | "tag" => some .tag
  | "" => some .untagged
  | _ => none

def stepsWithin : Nat → List Char → Option (List Step)
  | _, [] => some []
  | 0, _ :: _ => none
  | n + 1, '~' :: cs =>
    let (count, rest) := countAfter cs
    (stepsWithin n rest).map (.back count :: ·)
  | n + 1, '^' :: '{' :: cs => do
    let (name, rest) ← Text.splitAtFirst ['}'] cs
    let step ← ofBraces? (String.ofList name)
    return step :: (← stepsWithin n rest)
  | n + 1, '^' :: cs =>
    let (number, rest) := countAfter cs
    (stepsWithin n rest).map (.parent number :: ·)
  | _, _ => none

def isMark (c : Char) : Bool := c == '~' || c == '^'

def parse? (revision : String) : Option (String × List Step) :=
  let cs := revision.toList
  let rest := cs.dropWhile (!isMark ·)
  (stepsWithin rest.length rest).map fun steps => (String.ofList (cs.takeWhile (!isMark ·)), steps)

/-- The full names that a short one may stand for, the first one found being meant. -/
def fullNames (name : String) : List String :=
  [name, "refs/" ++ name, "refs/tags/" ++ name, "refs/heads/" ++ name, "refs/remotes/" ++ name,
   "refs/remotes/" ++ name ++ "/HEAD"]

def leastDigits : Nat := 4

/-- The object whose id starts with given digits, if there is just one. -/
def ofDigits? (s : Store) (name : String) : Option Id :=
  let digits := name.map Text.asciiLower
  if name.length < leastDigits then none
  else
    match s.keys.filter (Text.startsWith digits ·) with
    | [id] => some id
    | _ => none

def object? (r : Repository) (name : String) : Option Id :=
  if name = "" then none
  else
    let id := name.map Text.asciiLower
    if r.objects.contains id then some id
    else
      match (fullNames name).findSome? r.reference? with
      | some id => if r.objects.contains id then some id else none
      | none => ofDigits? r.objects name

def take? (s : Store) (id : Id) : Step → Option Id
  | .back count => (s.peel? id).bind (s.ancestor? count)
  | .parent 0 => s.peel? id
  | .parent (n + 1) => (s.peel? id).bind (s.parent? · n)
  | .commit | .untagged => s.peel? id
  | .tag => if s.isTag id then some id else none

def commit? (r : Repository) (revision : String) : Option Id := do
  let (name, steps) ← parse? (if revision = "@" then "HEAD" else revision)
  let id ← steps.foldlM (take? r.objects) (← object? r name)
  r.objects.peel? id

end Lineage.Git.Revision
