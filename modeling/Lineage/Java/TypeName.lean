import Lineage.Text
/-! # Type names

Types as they are written in a source, without type arguments and blanks, and their simple names.
-/
namespace Lineage.Java.TypeName

/-- The characters outside angle brackets that are not blank; a closing bracket too many is
ignored. -/
def eraseChars : Nat → List Char → List Char
  | _, [] => []
  | depth, c :: cs =>
    if c = '<' then eraseChars (depth + 1) cs
    else if c = '>' then eraseChars (depth - 1) cs
    else if depth = 0 ∧ !Text.isBlank c then c :: eraseChars depth cs
    else eraseChars depth cs

/-- A type without arguments and blanks: `Map<String, List<Foo>>` becomes `Map`, and `int []`
becomes `int[]`. -/
def erase (raw : String) : String := String.ofList (eraseChars 0 raw.toList)

def withoutBlanks (raw : String) : String :=
  String.ofList (raw.toList.filter fun c => !Text.isBlank c)

def dropEndings (ending : List Char) : Nat → List Char → List Char
  | 0, reversed => reversed
  | fuel + 1, reversed =>
    if ending ≠ [] ∧ ending.isPrefixOf reversed then
      dropEndings ending fuel (reversed.drop ending.length)
    else reversed

def trimEndings (ending s : String) : String :=
  let cs := s.toList
  String.ofList (dropEndings ending.toList.reverse cs.length cs.reverse).reverse

def trimStarts (start s : String) : String :=
  let cs := s.toList
  String.ofList (dropEndings start.toList cs.length cs)

def element (s : String) : String := trimEndings "[]" (trimEndings "..." s)

def lastSegment (s : String) : String := ((Text.pieces (· == '.') s).getLast?).getD s

/-- The last name of an element type: `java.util.List[]` becomes `List`. -/
def simple (erased : String) : String := lastSegment (element erased)

end Lineage.Java.TypeName
