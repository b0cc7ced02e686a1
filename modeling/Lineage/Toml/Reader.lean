import Lineage.Toml.Scalar
import Lineage.Toml.Table
/-! # Reading TOML documents

`Toml.ofText?` reads a document into the entries of its outermost table, or fails.
-/
namespace Lineage.Toml

def isSpace (c : Char) : Bool := c = ' ' || c = '\t'

def isKeyChar (c : Char) : Bool := c.isAlphanum || c = '_' || c = '-'

def dropSpaces (cs : List Char) : List Char := cs.dropWhile isSpace

def lineEnd? (cs : List Char) : Option (List Char) :=
  let cs := dropSpaces cs
  let cs := if cs.head? = some '#' then (cs.drop 1).dropWhile isPlain else cs
  match cs with
  | [] => some []
  | '\n' :: rest => some rest
  | '\r' :: '\n' :: rest => some rest
  | _ => none

def dropBlankLines : Nat → List Char → List Char
  | 0, cs => cs
  | fuel + 1, cs =>
    let rest := dropSpaces cs
    if rest.isEmpty then []
    else
      match lineEnd? rest with
      | some after => dropBlankLines fuel after
      | none => rest

def skipBlanks (cs : List Char) : List Char := dropBlankLines (cs.length + 1) cs

/-! ## Keys -/

def simpleKey? (cs : List Char) : Option (String × List Char) :=
  match cs with
  | '"' :: rest => (basic? rest).map fun (xs, rest) => (String.ofList xs, rest)
  | '\'' :: rest => (raw? rest).map fun (xs, rest) => (String.ofList xs, rest)
  | _ =>
    let name := cs.takeWhile isKeyChar
    if name.isEmpty then none else some (String.ofList name, cs.dropWhile isKeyChar)

/-- The number of levels up to which lists, tables and dotted keys may nest. -/
def maxDepth : Nat := 79

def key? : Nat → List Char → Option (List String × List Char)
  | 0, _ => none
  | depth + 1, cs => do
    let (k, rest) ← simpleKey? (dropSpaces cs)
    match dropSpaces rest with
    | '.' :: rest =>
      let (ks, rest) ← key? depth rest
      return (k :: ks, rest)
    | rest => return ([k], rest)

/-! ## Values -/

def elements? (value? : List Char → Option (Toml × List Char)) :
    Nat → List Char → Option (List Toml × List Char)
  | 0, _ => none
  | fuel + 1, cs =>
    match skipBlanks cs with
    | ']' :: rest => some ([], rest)
    | cs => do
      let (v, rest) ← value? cs
      match skipBlanks rest with
      | ',' :: rest =>
        let (vs, rest) ← elements? value? fuel rest
        return (v :: vs, rest)
      | ']' :: rest => return ([v], rest)
      | _ => none

def pair? (value? : List Char → Option (Toml × List Char)) (cs : List Char) :
    Option ((List String × Toml) × List Char) := do
  let (k, rest) ← key? maxDepth cs
  match rest with
  | '=' :: rest =>
    let (v, rest) ← value? (dropSpaces rest)
    return ((k, v), rest)
  | _ => none

def inlineEntries? (value? : List Char → Option (Toml × List Char)) :
    Nat → Entries → List Char → Option (Entries × List Char)
  | 0, _, _ => none
  | fuel + 1, es, cs => do
    let ((k, v), rest) ← pair? value? cs
    let es ← Entries.set? v .header false k es
    match dropSpaces rest with
    | ',' :: rest => inlineEntries? value? fuel es rest
    | '\x7d' :: rest => return (es, rest)
    | _ => none

def value? : Nat → List Char → Option (Toml × List Char)
  | 0, _ => none
  | depth + 1, cs =>
    match cs with
    | '[' :: rest =>
      (elements? (value? depth) cs.length rest).map fun (vs, rest) => (.list vs, rest)
    | '\x7b' :: rest =>
      match dropSpaces rest with
      | '\x7d' :: rest => some (.table [], rest)
      | rest =>
        (inlineEntries? (value? depth) cs.length [] rest).map fun (es, rest) =>
          (.table (entriesToToml es), rest)
    | '"' :: _ | '\'' :: _ => (quoted? cs).map fun (s, rest) => (.text s, rest)
    | _ => word? cs

/-! ## Documents -/

/-- A document read so far: its entries, and the path of the table that the last header opened. -/
structure Document where
  entries : Entries := []
  here : List String := []

def header? (isElement : Bool) (d : Document) (cs : List Char) : Option (Document × List Char) := do
  let (path, rest) ← key? maxDepth cs
  let rest ← match isElement, rest with
    | true, ']' :: ']' :: rest => some rest
    | false, ']' :: rest => some rest
    | _, _ => none
  let name ← path.getLast?
  let opening := if isElement then Entries.openElement? name else Entries.openTable? name
  let entries ← Entries.update? opening path.dropLast d.entries
  return (⟨entries, path⟩, rest)

def line? (d : Document) (cs : List Char) : Option (Document × List Char) :=
  match cs with
  | '[' :: '[' :: rest => header? true d rest
  | '[' :: rest => header? false d rest
  | _ => do
    let ((k, v), rest) ← pair? (value? maxDepth) cs
    let entries ← Entries.update? (Entries.set? v .header false k) d.here d.entries
    return ({ d with entries }, rest)

def lines? : Nat → Document → List Char → Option Document
  | 0, _, _ => none
  | fuel + 1, d, cs =>
    match skipBlanks cs with
    | [] => some d
    | cs => do
      let (d, rest) ← line? d cs
      lines? fuel d (← lineEnd? rest)

/-- Reads a document; a mark of byte order at its start is skipped. -/
def ofText? (s : String) : Option (List (String × Toml)) :=
  let cs := match s.toList with
    | '\ufeff' :: cs => cs
    | cs => cs
  (lines? (cs.length + 1) {} cs).map fun d => entriesToToml d.entries

end Lineage.Toml
