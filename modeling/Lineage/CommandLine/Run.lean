import Lineage.CommandLine.Arguments
import Lineage.CommandLine.Environment
import Lineage.Config.Overrides
import Lineage.Config.Reading
import Lineage.Config.Validation
import Lineage.Git.Session
import Lineage.Java.Sources
import Lineage.LogQueue
import Lineage.Pipeline
/-! # Running a command line

What a command does to the disk, what it prints, and how it ends. A failure is one line; the chain
of its causes starts with it.
-/
namespace Lineage.CommandLine

open Refactoring (Detector)
open Git (Disk Session Workplace)

structure World where
  disk : Disk
  here : String
  env : Environment
  launch : Refactoring.Miner.Launcher
  parser : Java.Parser
  reportPath : String
  now : Int

inductive Failure where
  | config (e : ConfigError)
  | log (e : FileError)
  | noRepository (path : String) (e : RepositoryError)
  | repository (e : RepositoryError)
  | noReportDir
  | run (e : RunError)

namespace Failure

def chain : Failure → List String
  | config e => [e.message]
  | log e => [e.message]
  | noRepository path e => [s!"No git repository at {path}", e.message]
  | repository e => [e.message]
  | noReportDir => ["evolution.detector = \"report\" needs evolution.report_dir"]
  | run e => e.chain

def message (f : Failure) : String := f.chain.head?.getD ""

end Failure

/-! ## Configuration -/

def configFile : String := "strata.toml"

def environmentFile : String := ".env"

def World.environment (w : World) : Environment :=
  let tree := w.disk.tree
  let places := (w.here :: Path.around w.here).map fun f => Path.below f environmentFile
  match places.findSome? tree.file? with
  | some (.text s) => Environment.load w.env s
  | _ => w.env

def readConfig (w : World) (path : String) : Except ConfigError Config :=
  match w.disk.tree.readText w.here path with
  | .ok s => Config.ofText s
  | .error e => .error (.unreadable path e)

/-- The configuration of a file: the named one, else the usual one if it is there. -/
def fileConfig (w : World) (i : Invocation) : Except ConfigError Config :=
  match i.config with
  | some path => readConfig w path
  | none =>
    if (w.disk.tree.locate? w.here configFile).isSome then readConfig w configFile
    else .ok .default

def withOptions (c : Config) : Command → Except ConfigError Config
  | .analyze mode commit => do
    let c ← match mode with
      | some m => (Config.chooseMode m).map fun mode => { c with mode }
      | none => pure c
    return match commit with
      | some r => { c with evolution.commit := r }
      | none => c
  | _ => .ok c

/-- The configuration: the file's, then that of variables, then that of options. -/
def configure (w : World) (i : Invocation) : Except ConfigError Config := do
  let c ← fileConfig w i
  let c ← match c.overrideAll w.environment with
    | (none, c) => pure c
    | (some e, _) => throw e
  let c := match i.root with
    | some path => { c with project.path := path }
    | none => c
  let c ← withOptions c i.command
  c.validate
  return c

/-! ## Work -/

structure Activity where
  session : Session Disk
  launches : List (List String) := []

namespace Activity

def disk (a : Activity) : Disk := a.session.repository

def tree (a : Activity) : FileTree := a.disk.tree

def setTree (a : Activity) (tree : FileTree) : Activity :=
  { a with session.repository := { a.disk with tree } }

def inSession {α : Type} (work : StateM (Session Disk) α) : StateM Activity α := fun a =>
  let (answer, session) := work a.session
  (answer, { a with session })

end Activity

abbrev Work := ExceptT Failure (StateM Activity)

def orFail {α ε : Type} (wrap : ε → Failure) : Except ε α → Work α
  | .ok a => return a
  | .error e => throw (wrap e)

/-- Opens the project's repository. -/
def openRepository (w : World) (c : Config) : Work Workplace := do
  let a ← get
  let (place, home) ← orFail (.noRepository c.project.path)
    (Workplace.opened a.disk w.here c.project.path)
  let place ← orFail .repository (place.withStale c.staleArtifacts)
  set { a with session.home := home, session.moved := false }
  return place

def openRepository? (w : World) (c : Config) : Work (Option Workplace) := fun a =>
  match openRepository w c a with
  | (.ok place, a) => (.ok (some place), a)
  | (.error _, _) => (.ok none, a)

def projectName (w : World) (c : Config) : String :=
  c.projectName fun path => (w.disk.tree.locate? w.here path).map ("/" ++ ·)

def minerDetector (w : World) (program repository : String) : Detector Activity where
  name := Refactoring.Miner.name
  detect older newer := do
    let arguments := Refactoring.Miner.arguments repository older.id newer.id w.reportPath
    let run := Refactoring.Miner.run w.launch program arguments
    if run.isSome then modify fun a => { a with launches := a.launches ++ [arguments] }
    return Refactoring.Miner.detection program w.reportPath run

def reportDetector (w : World) (dir : String) : Detector Activity where
  name := Refactoring.Reports.name
  detect older newer := do
    let tree := (← get).tree
    let file? (f : String) := (tree.locate? w.here (Path.join dir f)).bind tree.file?
    return Refactoring.Reports.detection file? (Path.join dir) older newer

def noDetector : Detector Activity where
  name := Refactoring.Nothing.name
  detect _ _ := return Refactoring.Nothing.detection

def detector (w : World) (c : Config) (place : Option Workplace) :
    Except Failure (Detector Activity) :=
  match c.evolution.detector, c.evolution.reportDir with
  | .refactoringMiner, _ =>
    let repository := match place with
      | some p => Workplace.shown p.folder
      | none => c.project.path
    .ok (minerDetector w c.evolution.miner repository)
  | .report, some dir => .ok (reportDetector w dir)
  | .report, none => .error .noReportDir
  | .none, _ => .ok noDetector

def history (place : Workplace) : History Activity := place.history.widen Activity.inSession

/-! ## Commands -/

def parse (w : World) (c : Config) (commit : Commit) :
    StateM Activity (Except (List String) Graph) := do
  let tree := (← get).tree
  let parsed := Java.Sources.parse w.parser tree (some (projectName w c)) w.here c.project.path
  return parsed.mapError (Java.Sources.parseFailure c.project.path commit)

def write (w : World) (c : Config) (e : Export) :
    StateM Activity (Except Export.Failure Exported) := do
  let a ← get
  let files := e.texts c.export.pretty (Calendar.stamp w.now)
  let (written, tree) := Export.write a.tree w.here c.export.baseDir files e.project
  set (a.setTree tree)
  return written.map fun _ => ⟨Export.directory c.export.baseDir e.project, files.map (·.1)⟩

def analyze (w : World) (c : Config) : Work (List String) := do
  let place ← match c.mode with
    | .single => openRepository? w c
    | .evolution | .multiEvolution => some <$> openRepository w c
  let d ← orFail id (detector w c place)
  let team : Collaborators Activity :=
    { history := place.map history, parse := parse w c, detector := d, write := write w c
      now := return w.now }
  let report ← orFail .run (← Pipeline.run team c (projectName w c))
  return match report.exported with
    | some e => [s!"Exported {e.files.length} files to {e.directory}"]
    | none => [s!"Nothing exported: {report.commits.length} commit(s) in the timeline"]

def dateOf (c : Commit) : String := (c.time?.map (·.date)).getD ""

def firstLine (s : String) : String := ((Text.lines s).head?).getD ""

def padRight (width : Nat) (s : String) : String :=
  s ++ String.ofList (List.replicate (width - s.length) ' ')

def padLeft (width : Nat) (s : String) : String :=
  String.ofList (List.replicate (width - s.length) ' ') ++ s

def timelineLine (e : TimelineEntry) : String :=
  s!"{e.commit.shortId}  {dateOf e.commit}  {padLeft 3 (toString e.operations.length)} ops  " ++
    firstLine e.commit.message

def timeline (w : World) (c : Config) (reference : String) : Work (List String) := do
  let place ← openRepository w c
  let d ← orFail id (detector w c (some place))
  let budget : Budget := ⟨c.timeline.maxDepth, c.timeline.maxDays⟩
  let (built, a, _) := (Timeline.build (history place) d budget reference).run (← get)
  set a
  let t ← orFail .repository built
  return s!"{t.relevant} relevant of {t.analyzed} analyzed commits" :: t.entries.map timelineLine

def historyLine (c : Commit) : String :=
  s!"{c.shortId}  {dateOf c}  {padRight 20 c.author}  {firstLine c.message}"

def linearHistory (w : World) (c : Config) (reference : String) (depth : Nat) :
    Work (List String) := do
  let place ← openRepository w c
  let commits ← orFail .repository (← (history place).linear reference depth)
  return commits.map historyLine

def versionLine : String := s!"Strata v{Export.toolVersion}"

def command (w : World) (c : Config) : Command → Work (List String)
  | .analyze .. => analyze w c
  | .timeline reference => timeline w c reference
  | .history reference depth => linearHistory w c reference depth
  | .version => return [versionLine]

/-! ## The log -/

def logFile : String := "strata.log"

structure Log where
  path : String
  queue : LogQueue

def openLog (w : World) (c : Config) (tree : FileTree) :
    Except FileError (Option Log × FileTree) :=
  match c.log.directory with
  | none => .ok (none, tree)
  | some dir =>
    match tree.makeFolders? w.here dir with
    | none => .error .notAFolder
    | some (tree, folder) =>
      let path := Path.below folder logFile
      if tree.isFolder path then .error .isAFolder
      else
        let before := match tree.file? path with
          | some (.text s) => s
          | _ => ""
        .ok (some ⟨path, .start c.log.queueCapacity before⟩, tree.writeText path before)

def Log.record (w : World) (level : LogLevel) (log : Log) (event : LogLevel × String) : Log :=
  if level.shows event.1 then
    let line := s!"{Calendar.stamp w.now} {event.1.label} strata: {event.2}\n"
    { log with queue := log.queue.perform (event.1.action line) }
  else log

/-- Closes the log; its lines are lost if the file is gone. -/
def Log.close (log : Log) (tree : FileTree) : FileTree :=
  if tree.isFile log.path then tree.writeText log.path log.queue.finish.written else tree

def openingEvents (c : Config) : List (LogLevel × String) :=
  [(.info, versionLine), (.info, s!"Project root: {c.project.path}")]

def levelOf (i : Invocation) (c : Config) : LogLevel :=
  if i.verbose then .debug else (LogLevel.ofName? (Config.lowered c.log.level)).getD .info

/-! ## The whole run -/

structure Outcome where
  exitCode : Nat
  output : List String := []
  complaint : List String := []
  disk : Disk
  launches : List (List String) := []

/-- How a chain of causes is shown; several causes are numbered. -/
def showCauses : List String → List String
  | [] => []
  | [cause] => ["", "Caused by:", "    " ++ cause]
  | causes =>
    let row (cause : String) (n : Nat) := padLeft 5 (toString n) ++ ": " ++ cause
    "" :: "Caused by:" :: causes.mapIdx fun n cause => row cause n

def Outcome.complaintLines (o : Outcome) : List String :=
  match o.complaint with
  | [] => []
  | first :: causes => ("Error: " ++ first) :: showCauses causes

def Outcome.failed (w : World) (f : Failure) : Outcome :=
  { exitCode := 1, complaint := f.chain, disk := w.disk }

/-- Runs a command with its configuration, between the opening and the closing of the log. -/
def runConfigured (w : World) (i : Invocation) (c : Config) : Outcome :=
  match openLog w c w.disk.tree with
  | .error e => .failed w (.log e)
  | .ok (log, tree) =>
    let log := log.map fun l => (openingEvents c).foldl (Log.record w (levelOf i c)) l
    let start : Activity := { session := ⟨{ w.disk with tree }, default, false⟩ }
    let (result, a) := (command w c i.command).run start
    let a := match log with
      | some l => a.setTree (l.close a.tree)
      | none => a
    match result with
    | .ok output => { exitCode := 0, output, disk := a.disk, launches := a.launches }
    | .error f => { exitCode := 1, complaint := f.chain, disk := a.disk, launches := a.launches }

def runInvocation (w : World) (i : Invocation) : Outcome :=
  match configure w i with
  | .ok c => runConfigured w i c
  | .error e => .failed w (.config e)

def usage : List String :=
  ["Usage: strata [-v] [-r ROOT] [-c FILE] COMMAND", "",
   "  analyze [-m MODE] [--commit COMMIT]   run the analysis",
   "  timeline [COMMIT]                     print the commits that refactorings lead back to",
   "  history [-n DEPTH] [COMMIT]           print the first parents of a commit",
   "  version                               print the version"]

def run (w : World) (arguments : List String) : Outcome :=
  match Request.ofArguments arguments with
  | .ok (.run i) => runInvocation w i
  | .ok .help => { exitCode := 0, output := usage, disk := w.disk }
  | .error e => { exitCode := 2, complaint := [e.message], disk := w.disk }

end Lineage.CommandLine
