import Lineage.Confidence
import Lineage.Sorted
import Lineage.Text
/-! # JSON documents

Values with ordered fields, and their two written forms: compact, and indented by two spaces.
-/
namespace Lineage

inductive Json where
  | null
  | bool (b : Bool)
  | int (n : Int)
  | real (c : Confidence)
  | text (s : String)
  | list (xs : List Json)
  | record (fields : List (String × Json))

namespace Json

instance : Inhabited Json := ⟨null⟩

def nat (n : Nat) : Json := .int n

def option {α : Type} (f : α → Json) : Option α → Json
  | none => null
  | some a => f a

def texts (xs : List String) : Json := .list (xs.map .text)

/-- Controls are escaped, by a letter where there is one; quotes and backslashes are too, and all
else stands for itself. -/
def escapedChar (c : Char) : List Char :=
  if c = '"' then ['\\', '"']
  else if c = '\\' then ['\\', '\\']
  else if c = '\n' then ['\\', 'n']
  else if c = '\r' then ['\\', 'r']
  else if c = '\t' then ['\\', 't']
  else if c = '\x08' then ['\\', 'b']
  else if c = '\x0c' then ['\\', 'f']
  else if c.toNat < 0x20 then
    ['\\', 'u', '0', '0', Nat.digitChar (c.toNat / 16), Nat.digitChar (c.toNat % 16)]
  else [c]

def literal (s : String) : String :=
  String.ofList ('"' :: s.toList.flatMap escapedChar ++ ['"'])

/-- A number that is not finite has no written form and becomes `null`. -/
def realText (c : Confidence) : String :=
  if c.isFinite then c.toDecimal.text .document else "null"

/-- Layout of a written document: what follows an opening bracket or a comma at some depth, and what
follows a field's name. -/
structure Layout where
  lineBreak : Nat → String
  colon : String

def Layout.compact : Layout := ⟨fun _ => "", ":"⟩

def Layout.indented : Layout :=
  ⟨fun depth => String.ofList ('\n' :: List.replicate (2 * depth) ' '), ": "⟩

def bracketed (l : Layout) (depth : Nat) (left right : String) (parts : List String) : String :=
  if parts.isEmpty then left ++ right
  else
    left ++ l.lineBreak (depth + 1) ++ Text.join ("," ++ l.lineBreak (depth + 1)) parts ++
      l.lineBreak depth ++ right

mutual

def write (l : Layout) (depth : Nat) : Json → String
  | .null => "null"
  | .bool b => if b then "true" else "false"
  | .int n => toString n
  | .real c => realText c
  | .text s => literal s
  | .list xs => bracketed l depth "[" "]" (writeItems l (depth + 1) xs)
  | .record fs => bracketed l depth "\x7b" "\x7d" (writeFields l (depth + 1) fs)

def writeItems (l : Layout) (depth : Nat) : List Json → List String
  | [] => []
  | x :: xs => write l depth x :: writeItems l depth xs

def writeFields (l : Layout) (depth : Nat) : List (String × Json) → List String
  | [] => []
  | (k, v) :: fs => (literal k ++ l.colon ++ write l depth v) :: writeFields l depth fs

end

def compact (j : Json) : String := write .compact 0 j

def indented (j : Json) : String := write .indented 0 j

def ofTextMap (m : TextMap String) : Json := .record (m.entries.map fun e => (e.1, .text e.2))

end Json

end Lineage
