import Lineage.CommandLine.Run
import Lineage.Java.Grammar
import Std.Time.DateTime.Timestamp
/-! # The program

Takes what a command line is about from the machine, runs it, and brings the changes back. The
machine's repositories are not read and no program is launched: what needs one of them fails as it
does where there is none.
-/
namespace Lineage.CommandLine

/-! ## Taking -/

def onMachine (place : String) : IO.FS.DirEntry := ⟨"/" ++ Path.parent place, Path.lastName place⟩

def readContent (place : String) : IO Content := do
  return match String.fromUTF8? (← IO.FS.readBinFile (onMachine place).path) with
  | some s => .text s
  | none => .bytes

def takePlace (t : FileTree) (place : String) : IO FileTree := do
  let entry := onMachine place
  if ← entry.path.isDir then return t.addFolder place
  if ← entry.path.pathExists then return t.write place (← readContent place)
  return t

/-- Takes a folder with the folders in it and those of their files that have a wanted name. Links
are not followed. -/
partial def takeAll (wanted : String → Bool) (t : FileTree) (folder : String) : IO FileTree := do
  let mut t := t.addFolder folder
  for entry in ← (onMachine folder).path.readDir do
    let place := Path.below folder entry.fileName
    match (← entry.path.symlinkMetadata).type with
    | .dir =>
      if entry.fileName = ".git" then t := t.addFolder place
      else t ← takeAll wanted t place
    | .file => if wanted entry.fileName then t := t.write place (← readContent place)
    | _ => pure ()
  return t

def trail (here : String) : List String → List String
  | [] => [here]
  | name :: names =>
    here :: trail
      (if name = "" ∨ name = "." then here
        else if name = ".." then Path.parent here
        else Path.below here name) names

def trailOf (here path : String) : List String :=
  trail (if Path.isAbsolute path then "" else here) (Text.pieces (· == '/') path)

/-- Takes what a written path leads through and, if that is a folder, its wanted files. -/
def takePath (wanted : String → Bool) (here : String) (t : FileTree) (path : String) :
    IO FileTree := do
  let t ← (trailOf here path).foldlM takePlace t
  match t.locate? here path with
  | some place => if t.isFolder place then takeAll wanted t place else return t
  | none => return t

def takeRules (t : FileTree) (folder : String) : IO FileTree :=
  let names := [".ignore", ".gitignore", ".git"]
  ((Path.around folder).flatMap fun f => names.map (Path.below f)).foldlM takePlace t

def namesIn (text : String) : List String :=
  let words (isPart : Char → Bool) := (Text.pieces (fun c => !isPart c) text).filter (· ≠ "")
  words Char.isAlphanum ++ words Environment.isNamePart

def takeVariables (t : FileTree) : IO Environment := do
  let referred := t.files.entries.flatMap fun (place, content) =>
    match content with
    | .text s => if Path.lastName place = environmentFile then namesIn s else []
    | .bytes => []
  (Config.Setting.all.map (·.variableName) ++ referred).eraseDups.filterMapM fun name => do
    return (← IO.getEnv name).map fun value => (name, value)

def takeSettings (here : String) (i : Invocation) : IO FileTree := do
  let places := (here :: Path.around here).map fun f => Path.below f environmentFile
  let t ← places.foldlM takePlace .empty
  (configFile :: i.config.toList).foldlM (fun t path => takePath (fun _ => false) here t path)
    (t.addFolder here)

def isSourceOrRules (name : String) : Bool :=
  Java.Sources.isSource name || name = ".ignore" || name = ".gitignore"

/-- Takes what a configured run is about. -/
def takeWork (here : String) (c : Config) (t : FileTree) : IO FileTree := do
  let t ← takePath isSourceOrRules here t c.project.path
  let t ← match t.locate? here c.project.path with
    | some place => takeRules t place
    | none => pure t
  let t ← c.evolution.reportDir.toList.foldlM (takePath (fun _ => true) here) t
  let t ← c.log.directory.toList.foldlM (takePath (· = logFile) here) t
  takePath (fun _ => false) here t c.export.baseDir

def takeWorld (arguments : List String) : IO World := do
  let current := (← IO.currentDir).toString
  let here := (Text.after? "/" current).getD current
  let now ← Std.Time.Timestamp.now
  let w : World :=
    { disk := { tree := FileTree.empty.addFolder here }, here, env := [],
      launch := fun _ _ => none, parser := Java.Tree.ofSource?, reportPath := "",
      now := now.toSecondsSinceUnixEpoch.val }
  match Request.ofArguments arguments with
  | .ok (.run i) =>
    let tree ← takeSettings here i
    let w := { w with disk := { tree }, env := ← takeVariables tree }
    match configure w i with
    | .ok c => return { w with disk := { tree := ← takeWork here c tree } }
    | .error _ => return w
  | _ => return w

/-! ## Bringing back -/

/-- Brings back the folders and the files of text that a run made or changed. -/
def bringBack (before after : FileTree) : IO Unit := do
  for folder in after.folders.toList do
    if !before.isFolder folder then IO.FS.createDirAll (onMachine folder).path
  for (place, content) in after.files.entries do
    if before.file? place ≠ some content then
      if let .text s := content then IO.FS.writeFile (onMachine place).path s

end Lineage.CommandLine

open Lineage.CommandLine in
def main (arguments : List String) : IO UInt32 := do
  let w ← takeWorld arguments
  let outcome := run w arguments
  bringBack w.disk.tree outcome.disk.tree
  outcome.output.forM IO.println
  outcome.complaintLines.forM IO.eprintln
  return UInt32.ofNat outcome.exitCode
