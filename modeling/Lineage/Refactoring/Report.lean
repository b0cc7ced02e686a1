import Lineage.Json.Reader
import Lineage.Refactoring.Operation
/-! # Refactoring reports

The reports that a refactoring miner writes: commits with their refactorings, each with the
locations it starts from and those it leads to. `Report.operations` turns one into operations.
-/
namespace Lineage.Refactoring

namespace Report

structure Location where
  filePath : String := ""
  startLine : Nat := 0
  endLine : Nat := 0
  /-- What the code element is, in the report's words. -/
  elementType : Option String := none
  element : Option String := none
  deriving DecidableEq, Repr, Inhabited

structure Entry where
  type : String := ""
  description : String := ""
  left : List Location := []
  right : List Location := []
  deriving DecidableEq, Repr, Inhabited

structure Commit where
  id : String := ""
  refactorings : List Entry := []
  deriving DecidableEq, Repr, Inhabited

end Report

structure Report where
  commits : List Report.Commit := []
  deriving DecidableEq, Repr, Inhabited

namespace Report

/-! ## Reading -/

open Json Reader

def location : Reader Location :=
  record
    [⟨"filePath", true, fun l => return { l with filePath := ← text }⟩,
     ⟨"startLine", true, fun l => return { l with startLine := ← below UInt32.size }⟩,
     ⟨"endLine", true, fun l => return { l with endLine := ← below UInt32.size }⟩,
     ⟨"codeElementType", false, fun l => return { l with elementType := ← nullable text }⟩,
     ⟨"codeElement", false, fun l => return { l with element := ← nullable text }⟩]
    {}

def refactoring : Reader Entry :=
  record
    [⟨"type", true, fun r => return { r with type := ← text }⟩,
     ⟨"description", false, fun r => return { r with description := ← text }⟩,
     ⟨"leftSideLocations", false, fun r => return { r with left := ← list location }⟩,
     ⟨"rightSideLocations", false, fun r => return { r with right := ← list location }⟩]
    {}

def commit : Reader Report.Commit :=
  record
    [⟨"sha1", false, fun c => return { c with id := ← text }⟩,
     ⟨"refactorings", false, fun c => return { c with refactorings := ← list refactoring }⟩]
    {}

def report : Reader Report :=
  record [⟨"commits", false, fun r => return { r with commits := ← list commit }⟩] {}

def ofText (s : String) : Except Fault Report := document report s

/-! ## Operations -/

def Location.kind? (l : Location) : Option NodeKind :=
  match l.elementType with
  | some "METHOD_DECLARATION" => some .method
  | some "FIELD_DECLARATION" => some .field
  | some "TYPE_DECLARATION" => some .type
  | _ => none

def Location.isDeclaration (l : Location) : Bool := l.kind?.isSome

def Location.resolved (l : Location) : Refactoring.Location where
  filePath := slashed l.filePath
  startLine := UInt32.ofNat l.startLine
  endLine := UInt32.ofNat l.endLine
  element := l.element.filter fun e => Text.trim e ≠ ""
  elementKind := l.kind?

/-- The declarations of a side if it has any, else all of its locations. -/
def side (ls : List Location) : List Refactoring.Location :=
  let kept := if ls.any (·.isDeclaration) then ls.filter (·.isDeclaration) else ls
  kept.map Location.resolved

def Entry.operation (r : Entry) : Operation where
  kind := (Kind.parse r.type).1
  description := r.description
  before := side r.left
  after := side r.right

def refactorings (r : Report) : List Entry := r.commits.flatMap (·.refactorings)

def operations (r : Report) : List Operation × List Warning :=
  (r.refactorings.map Entry.operation, r.refactorings.flatMap fun x => (Kind.parse x.type).2)

/-- Reads the operations that a report lists; a text that is no report gives no warnings. -/
def parse (s : String) : Except Fault (List Operation × List Warning) := (ofText s).map operations

end Report

end Lineage.Refactoring
