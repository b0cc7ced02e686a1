import Lineage.Text
/-! # TOML values

The values of a configuration file, and how the plain ones are written.
-/
namespace Lineage

inductive Toml where
  | text (s : String)
  | int (n : Int)
  | real
  | bool (b : Bool)
  | moment
  | list (xs : List Toml)
  | table (entries : List (String × Toml))
  deriving Inhabited

namespace Toml

def texts (xs : List String) : Toml := .list (xs.map .text)

def escapedChar (c : Char) : List Char :=
  if c = '"' then ['\\', '"']
  else if c = '\\' then ['\\', '\\']
  else if c = '\n' then ['\\', 'n']
  else if c = '\r' then ['\\', 'r']
  else if c = '\t' then ['\\', 't']
  else if c.toNat < 0x20 ∨ c.toNat = 0x7F then
    "\\u".toList ++ (Text.paddedHex 4 c.toNat).toList
  else [c]

def literal (s : String) : String :=
  String.ofList ('"' :: s.toList.flatMap escapedChar ++ ['"'])

/-- The members of a list, each on a line of its own. -/
def writeItems : List Toml → String
  | [] => ""
  | .text s :: xs => "    " ++ literal s ++ ",\n" ++ writeItems xs
  | .int n :: xs => "    " ++ toString n ++ ",\n" ++ writeItems xs
  | .bool b :: xs => "    " ++ (if b then "true" else "false") ++ ",\n" ++ writeItems xs
  | _ :: xs => writeItems xs

/-- Writes a plain value, or a list of them; others have no written form here. -/
def write : Toml → String
  | .text s => literal s
  | .int n => toString n
  | .bool b => if b then "true" else "false"
  | .list [] => "[]"
  | .list xs => "[\n" ++ writeItems xs ++ "]"
  | .real | .moment | .table _ => ""

def writeEntry (e : String × Toml) : String := e.1 ++ " = " ++ e.2.write ++ "\n"

def writeTable (t : String × List (String × Toml)) : String :=
  "\n[" ++ t.1 ++ "]\n" ++ String.join (t.2.map writeEntry)

def writeDocument (entries : List (String × Toml)) (tables : List (String × List (String × Toml))) :
    String :=
  String.join (entries.map writeEntry) ++ String.join (tables.map writeTable)

end Toml

end Lineage
