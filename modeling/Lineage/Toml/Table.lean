import Lineage.Toml
/-! # Tables under construction

A document names its tables in any order, by headers and by dotted keys. While it is read, each
table remembers how it came about, because that decides what may still be added to it.
-/
namespace Lineage.Toml

/-- How a table came about. -/
inductive Origin where
  | header
  | implied
  | dotted
  deriving DecidableEq, Repr

inductive Item where
  | value (v : Toml)
  | table (origin : Origin) (entries : List (String × Item))
  | tables (elements : List (List (String × Item)))

abbrev Entries := List (String × Item)

mutual

def Item.toToml : Item → Toml
  | .value v => v
  | .table _ es => .table (entriesToToml es)
  | .tables ess => .list (elementsToToml ess)

def entriesToToml : Entries → List (String × Toml)
  | [] => []
  | (k, i) :: es => (k, i.toToml) :: entriesToToml es

def elementsToToml : List Entries → List Toml
  | [] => []
  | es :: ess => .table (entriesToToml es) :: elementsToToml ess

end

namespace Entries

def get? (es : Entries) (k : String) : Option Item := List.lookup k es

def put (es : Entries) (k : String) (i : Item) : Entries :=
  if (get? es k).isSome then es.map fun e => if e.1 = k then (k, i) else e else es ++ [(k, i)]

/-- Sets a new key. The table that holds it must have come about as the key was written: by dots if
there are any, else by a header. -/
def set? (v : Toml) : (origin : Origin) → (dotted : Bool) → List String → Entries → Option Entries
  | _, _, [], _ => none
  | origin, dotted, [k], es =>
    if (get? es k).isSome || (origin == .dotted) != dotted then none else some (put es k (.value v))
  | _, _, k :: ks, es =>
    match get? es k with
    | none => (set? v .dotted true ks []).map fun inner => put es k (.table .dotted inner)
    | some (.table .header _) => none
    | some (.table origin inner) =>
      (set? v origin true ks inner).map fun inner => put es k (.table origin inner)
    | some (.tables elements) =>
      (elements.getLast?).bind fun inner =>
        (set? v .header true ks inner).map fun inner =>
          put es k (.tables (elements.dropLast ++ [inner]))
    | some (.value _) => none

def update? (change : Entries → Option Entries) : List String → Entries → Option Entries
  | [], es => change es
  | k :: ks, es =>
    match get? es k with
    | none => (update? change ks []).map fun inner => put es k (.table .implied inner)
    | some (.table origin inner) =>
      (update? change ks inner).map fun inner => put es k (.table origin inner)
    | some (.tables elements) =>
      (elements.getLast?).bind fun inner =>
        (update? change ks inner).map fun inner => put es k (.tables (elements.dropLast ++ [inner]))
    | some (.value _) => none

/-- Opens a table by its header; a table has one header at most. -/
def openTable? (k : String) (es : Entries) : Option Entries :=
  match get? es k with
  | none => some (put es k (.table .header []))
  | some (.table .implied inner) => some (put es k (.table .header inner))
  | some _ => none

def openElement? (k : String) (es : Entries) : Option Entries :=
  match get? es k with
  | none => some (put es k (.tables [[]]))
  | some (.tables elements) => some (put es k (.tables (elements ++ [[]])))
  | some _ => none

end Entries

end Lineage.Toml
