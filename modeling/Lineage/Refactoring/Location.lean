import Lineage.Node
/-! # Code locations

A range of lines in one file, with the code element that a detector found there. Elements are
written as signatures (`public foo(a int) : void`), as variables (`count : int`) or as names.
-/
namespace Lineage.Refactoring

structure Location where
  filePath : String
  startLine : UInt32
  endLine : UInt32
  element : Option String := none
  elementKind : Option NodeKind := none
  deriving DecidableEq, Repr, Inhabited

namespace Location

def describe (l : Location) : String :=
  s!"{l.filePath}:{l.startLine.toNat}-{l.endLine.toNat}" ++
    match l.element with
    | some e => "::" ++ Text.trim e
    | none => ""

/-- What stands before the parameters or else before the type. -/
def elementHead (element : String) : String :=
  match Text.splitOnce "(" element with
  | some (head, _) => head
  | none =>
    match Text.splitOnce " : " element with
    | some (head, _) => head
    | none => element

def lastName? (head : String) : Option String := do
  let word ← (Text.words head).getLast?
  let name ← (Text.pieces (· == '.') word).getLast?
  if name = "" then none else some name

/-- The simple name of the element. -/
def elementName? (l : Location) : Option String :=
  l.element.bind fun e => lastName? (elementHead (Text.trim e))

def isMethod (l : Location) : Bool :=
  l.element.any fun e => e.toList.contains '(' && e.toList.contains ')'

/-- The name under which a method is followed through history. -/
def methodKey? (l : Location) : Option String :=
  if l.isMethod then l.element.map fun e => l.filePath ++ "::" ++ Text.trim e else none

end Location

end Lineage.Refactoring
