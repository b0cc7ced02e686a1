import Lineage.Document
/-! # Warnings

Problems that are skipped instead of ending a run. A run threads one `Diagnostics` through its
stages; `Diagnostics.record` appends, so warnings stand in the order of their discovery.
-/
namespace Lineage

inductive Side where
  | before
  | after
  deriving DecidableEq, Repr

def Side.name : Side → String
  | .before => "Before"
  | .after => "After"

def Side.word : Side → String
  | .before => "before"
  | .after => "after"

inductive Warning where
  | identityCollision (key : EntityKey)
  /-- A side of an operation has no location that points at a node. -/
  | unresolvedLocation (operation : String) (side : Side) (location : String)
  /-- An operation's type name is no name at all. -/
  | malformedOperation (raw : String)
  deriving DecidableEq, Repr

inductive WarningKind where
  | identityCollision
  | unresolvedLocation
  | malformedOperation
  deriving DecidableEq, Repr

def WarningKind.name : WarningKind → String
  | .identityCollision => "IdentityCollision"
  | .unresolvedLocation => "UnresolvedRefactoringLocation"
  | .malformedOperation => "MalformedOperationDescriptor"

namespace Warning

def kind : Warning → WarningKind
  | identityCollision _ => .identityCollision
  | unresolvedLocation .. => .unresolvedLocation
  | malformedOperation _ => .malformedOperation

def message : Warning → String
  | identityCollision key =>
    s!"identity collision on {key.kind.name} `{key.text}`, first-seen node kept"
  | unresolvedLocation operation side location =>
    s!"unresolved {side.word} location `{location}` for {operation}"
  | malformedOperation raw =>
    s!"malformed refactoring descriptor `{raw}`, treated as a generic refactoring"

def toJson (w : Warning) : Json :=
  .record [(w.kind.name, .record <| match w with
    | identityCollision key => [("kind", .text key.kind.name), ("key", .text key.text)]
    | unresolvedLocation operation side location =>
      [("operation", .text operation), ("side", .text side.name), ("location", .text location)]
    | malformedOperation raw => [("raw", .text raw)])]

end Warning

structure Diagnostics where
  warnings : List Warning
  deriving DecidableEq, Repr, Inhabited

namespace Diagnostics

def empty : Diagnostics := ⟨[]⟩

instance : EmptyCollection Diagnostics := ⟨empty⟩

def record (d : Diagnostics) (w : Warning) : Diagnostics := ⟨d.warnings ++ [w]⟩

def recordAll (d : Diagnostics) (ws : List Warning) : Diagnostics := ⟨d.warnings ++ ws⟩

def absorb (d other : Diagnostics) : Diagnostics := d.recordAll other.warnings

def count (d : Diagnostics) : Nat := d.warnings.length

def isEmpty (d : Diagnostics) : Bool := d.warnings.isEmpty

def countOf (d : Diagnostics) (k : WarningKind) : Nat :=
  (d.warnings.filter (·.kind = k)).length

def byKind (d : Diagnostics) : TextMap Nat := tally (d.warnings.map (·.kind.name))

end Diagnostics

end Lineage
