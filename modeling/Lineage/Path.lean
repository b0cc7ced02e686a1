import Lineage.Text
/-! # Paths

Slash-separated paths read as a list of components: repeated and trailing slashes and single dots
mean nothing, except a dot that a relative path begins with.
-/
namespace Lineage.Path

structure Components where
  absolute : Bool
  names : List String
  deriving DecidableEq, Repr

def isAbsolute (path : String) : Bool := Text.startsWith "/" path

def components (path : String) : Components :=
  let segments := (Text.pieces (· == '/') path).filter (· ≠ "")
  let kept := segments.filter (· ≠ ".")
  if isAbsolute path then ⟨true, kept⟩
  else if segments.head? = some "." then ⟨false, "." :: kept⟩
  else ⟨false, kept⟩

def same (a b : String) : Bool := components a == components b

/-- The last component, unless it is a dot, two dots or missing. -/
def fileName? (path : String) : Option String :=
  match (components path).names.getLast? with
  | some name => if name = ".." ∨ name = "." then none else some name
  | none => none

def join (base path : String) : String :=
  if isAbsolute path then path
  else if base = "" then path
  else if Text.endsWith "/" base then base ++ path
  else base ++ "/" ++ path

def extension? (path : String) : Option String := do
  let name ← fileName? path
  let parts := Text.pieces (· == '.') name
  match parts.getLast?, parts.dropLast with
  | some last, start =>
    if start = [] ∨ start = [""] then none else some last
  | none, _ => none

/-- Whether `ending` is `path`, or what follows one of its slashes. -/
def hasEnding (path ending : String) : Bool :=
  path == ending || Text.endsWith ("/" ++ ending) path

end Lineage.Path
