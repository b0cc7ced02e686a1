import Lineage.FileTree
import Lineage.Glob
/-! # Ignore rules

Files that list which paths to leave out, a pattern a line. The last rule that fits a path decides;
a rule after an exclamation mark takes back what earlier ones said.
-/
namespace Lineage

structure IgnoreRule where
  readmits : Bool
  foldersOnly : Bool
  glob : Glob

namespace IgnoreRule

/-- A pattern with a slash fits whole paths, one without fits names in any folder. -/
def anchored (absolute : Bool) (pattern : String) : String :=
  let p :=
    if absolute || Text.contains "/" pattern || pattern = "**" then pattern else "**/" ++ pattern
  if Text.endsWith "/**" p then p ++ "/*" else p

def ofPattern? (style : Glob.Style) (readmits absolute : Bool) (pattern : String) :
    Option IgnoreRule :=
  let stripped := Text.before? "/" pattern
  let pattern := stripped.getD pattern
  let pattern := if stripped.isSome then (Text.before? "\\" pattern).getD pattern else pattern
  match Glob.ofText style (anchored absolute pattern) with
  | .ok glob => some ⟨readmits, stripped.isSome, glob⟩
  | .error _ => none

/-- Reads a line; none if it is blank, a comment or no pattern. -/
def ofLine? (style : Glob.Style) (line : String) : Option IgnoreRule :=
  let line := if Text.endsWith "\\ " line then line else Text.trimEnd line
  if line = "" || Text.startsWith "#" line then none
  else if Text.startsWith "\\!" line || Text.startsWith "\\#" line then
    ofPattern? style false false (String.ofList (line.toList.drop 1))
  else
    let readmits := Text.startsWith "!" line
    let line := (Text.after? "!" line).getD line
    ofPattern? style readmits (Text.startsWith "/" line) ((Text.after? "/" line).getD line)

def fits (r : IgnoreRule) (path : String) (isFolder : Bool) : Bool :=
  (!r.foldersOnly || isFolder) && r.glob.accepts path

end IgnoreRule

namespace IgnoreRules

def ofText (style : Glob.Style) (text : String) : List IgnoreRule :=
  (Text.lines ((Text.after? "\ufeff" text).getD text)).filterMap (IgnoreRule.ofLine? style)

def verdict? (rules : List IgnoreRule) (path : String) (isFolder : Bool) : Option Bool :=
  (rules.reverse.find? (·.fits path isFolder)).map fun r => !r.readmits

/-- The verdict of the nearest folder whose rules fit a path, among given folders. -/
def verdictOf? (style : Glob.Style) (t : FileTree) (fileName : String) (folders : List String)
    (path : String) (isFolder : Bool) : Option Bool :=
  folders.findSome? fun folder =>
    match t.file? (Path.below folder fileName), Path.inside? folder path with
    | some (.text rules), some inner => verdict? (ofText style rules) inner isFolder
    | _, _ => none

end IgnoreRules

end Lineage
