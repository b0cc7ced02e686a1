import Lineage.Text
/-! # The environment

Variables by name, and the file that adds to them. Each of its entries is `NAME=value`; a value
may be quoted, also over several lines, and may refer to variables (`$NAME`, `${NAME}`). Reading
stops at the first entry that is none; the ones before it hold.
-/
namespace Lineage.CommandLine

abbrev Environment := List (String × String)

namespace Environment

/-! ## Entries

An entry is a line, or several lines that an open quote or a bar at the end of a line joins.
-/

inductive Opening where
  | none
  | blank
  | escape
  | double
  | doubleEscape
  | single
  | singleEscape
  deriving DecidableEq, Repr

def Opening.bare (c : Char) : Opening :=
  if c = '\\' then .escape else if c = '"' then .double else if c = '\'' then .single else .none

def Opening.next (c : Char) : Opening → Opening
  | .none => if Text.isBlank c && c ≠ '\n' && c ≠ '\r' then .blank else bare c
  | .blank => bare c
  | .escape => .none
  | .double => if c = '\\' then .doubleEscape else if c = '"' then .none else .double
  | .doubleEscape => .double
  | .single => if c = '\\' then .singleEscape else if c = '\'' then .none else .single
  | .singleEscape => .single

/-- The part of a line before its comment, whether there is one, and what stays open after it. -/
def beforeComment : Opening → List Char → List Char × Bool × Opening
  | o, [] => ([], false, o)
  | o, c :: cs =>
    if o = .blank && c = '#' then ([], true, .none)
    else
      let (kept, cut, after) := beforeComment (o.next c) cs
      (c :: kept, cut, after)

def rows (cs : List Char) : List (List Char) :=
  let pieces := Text.piecesChars (· == '\n') cs
  pieces.dropLast.map (· ++ ['\n']) ++ (pieces.getLast?.filter (!·.isEmpty)).toList

def withoutEnd (cs : List Char) : List Char :=
  if cs.getLast? = some '\n' then
    let cs := cs.dropLast
    if cs.getLast? = some '\r' then cs.dropLast else cs
  else cs

/-- The entries of some lines, none in place of what an open quote leaves unfinished. `started` are
the lines of the entry so far. -/
def entries (started : List Char) (o : Opening) : List (List Char) → List (Option (List Char))
  | [] => if started.isEmpty then [] else [Option.none]
  | row :: rest =>
    if (Text.trimStartChars (started ++ row)).head? = some '#' then entries [] .none rest
    else
      let (kept, cut, after) := beforeComment o row
      if cut || after = .none then some (withoutEnd (started ++ kept)) :: entries [] .none rest
      else entries (started ++ row) after rest

/-! ## Values -/

/-- Where the reading of a value stands. -/
structure Scan where
  output : List Char := []
  single : Bool := false
  double : Bool := false
  escaped : Bool := false
  ended : Bool := false
  reference : Option (List Char × Bool) := none

def Scan.push (s : Scan) (c : Char) : Scan := { s with output := s.output ++ [c] }

def Scan.refer (get : String → String) (s : Scan) : Scan :=
  match s.reference with
  | some (name, _) =>
    { s with output := s.output ++ (get (String.ofList name)).toList, reference := none }
  | none => s

def Scan.afterBackslash? (s : Scan) (c : Char) : Option Scan :=
  let s := { s with escaped := false }
  if c = 'n' then some (s.push '\n')
  else if "\\'\"$ ".toList.contains c then some (s.push c)
  else none

def Scan.inReference (get : String → String) (s : Scan) (name : List Char) (braced : Bool)
    (c : Char) : Scan :=
  if c.isAlphanum then { s with reference := some (name ++ [c], braced) }
  else if braced then
    if c = '\x7d' then s.refer get else { s with reference := some (name ++ [c], braced) }
  else if c = '\x7b' && name.isEmpty then { s with reference := some ([], true) }
  else if c = '$' then { s.refer get with reference := some ([], false) }
  else (s.refer get).push c

def Scan.next? (get : String → String) (s : Scan) (c : Char) : Option Scan :=
  if s.escaped then s.afterBackslash? c
  else if s.single then some (if c = '\'' then { s with single := false } else s.push c)
  else
    match s.reference with
    | some (name, braced) => some (s.inReference get name braced c)
    | none =>
      if c = '$' then some { s with reference := some ([], false) }
      else if c = '\\' then some { s with escaped := true }
      else if s.double then some (if c = '"' then { s with double := false } else s.push c)
      else if c = '\'' then some { s with single := true }
      else if c = '"' then some { s with double := true }
      else if c = ' ' || c = '\t' then some { s with ended := true }
      else some (s.push c)

def Scan.isOpen (s : Scan) : Bool := s.single || s.double || s.reference.any (·.2)

def value? (get : String → String) (s : Scan) : List Char → Option String
  | [] => if s.isOpen then none else some (String.ofList (s.refer get).output)
  | c :: cs =>
    if s.ended then
      if c = ' ' || c = '\t' then value? get s cs
      else if c = '#' then value? get s []
      else none
    else (s.next? get c).bind fun s => value? get s cs

/-! ## The file -/

def isNameStart (c : Char) : Bool := c.isAlpha || c == '_'

def isNamePart (c : Char) : Bool := c.isAlphanum || c == '_' || c == '.'

def name? (cs : List Char) : Option (String × List Char) :=
  if cs.head?.any isNameStart then
    some (String.ofList (cs.takeWhile isNamePart), Text.trimStartChars (cs.dropWhile isNamePart))
  else none

def afterEquals? : List Char → Option (List Char)
  | '=' :: cs => some cs
  | _ => none

def assignment? (cs : List Char) : Option (String × List Char) := do
  let (name, rest) ← name? cs
  match afterEquals? rest with
  | some value => return (name, value)
  | none =>
    if name = "export" then
      let (name, rest) ← name? rest
      return (name, ← afterEquals? rest)
    else none

structure Loading where
  env : Environment
  named : Environment := []

/-- A variable's value: that in the environment, else the last one in the file, else nothing. -/
def Loading.get (l : Loading) (name : String) : String :=
  ((l.env.lookup name <|> l.named.lookup name)).getD ""

/-- Names a variable; it is set unless it is set already. -/
def Loading.set (l : Loading) (name value : String) : Loading where
  env :=
    if (l.env.lookup name).isSome then l.env else l.env ++ [(name, value)]
  named := (name, value) :: l.named

def Loading.entry? (l : Loading) (cs : List Char) : Option Loading :=
  let cs := Text.trimStartChars (Text.trimEndChars cs)
  if cs.isEmpty || cs.head? = some '#' then some l
  else do
    let (name, rest) ← assignment? cs
    let rest := Text.trimStartChars rest
    if rest.isEmpty || rest.head? = some '#' then return l.set name ""
    return l.set name (← value? l.get {} rest)

def Loading.run (l : Loading) : List (Option (List Char)) → Loading
  | [] | none :: _ => l
  | some cs :: rest =>
    match l.entry? cs with
    | some l => l.run rest
    | none => l

def load (env : Environment) (text : String) : Environment :=
  let cs := ((Text.after? "\ufeff" text).getD text).toList
  (Loading.run ⟨env, []⟩ (entries [] .none (rows cs))).env

end Environment

end Lineage.CommandLine
