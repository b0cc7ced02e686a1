import Lineage.FileTree
import Lineage.Refactoring.Report
/-! # Detectors

What finds the refactorings between two commits: a program that writes a report, reports made
beforehand, or nothing at all.
-/
namespace Lineage.Refactoring

inductive Ending where
  | exit (code : Nat)
  | signal (number : Nat)
  deriving DecidableEq, Repr

def Ending.isSuccess (e : Ending) : Bool := e = .exit 0

def signalName : Nat → String
  | 1 => "SIGHUP"
  | 2 => "SIGINT"
  | 3 => "SIGQUIT"
  | 4 => "SIGILL"
  | 5 => "SIGTRAP"
  | 6 => "SIGABRT"
  | 7 => "SIGBUS"
  | 8 => "SIGFPE"
  | 9 => "SIGKILL"
  | 10 => "SIGUSR1"
  | 11 => "SIGSEGV"
  | 12 => "SIGUSR2"
  | 13 => "SIGPIPE"
  | 14 => "SIGALRM"
  | 15 => "SIGTERM"
  | _ => ""

def Ending.message : Ending → String
  | exit code => s!"exit status: {code}"
  | signal n => s!"signal: {n} ({signalName n})"

inductive DetectorError where
  | launch (program : String)
  | failed (ending : Ending) (complaint : String)
  | unreadable (path : String)
  | badReport (path : String) (fault : Json.Fault)
  deriving DecidableEq, Repr

def DetectorError.message : DetectorError → String
  | launch program => s!"Failed to launch {program}"
  | failed ending complaint => s!"Detector exited with {ending.message}: {complaint}"
  | unreadable path => s!"Failed to read report {path}"
  | badReport path _ => s!"Malformed report {path}"

/-- Refactorings with the warnings met on the way. -/
abbrev Detection := Except DetectorError (List Operation) × List Warning

structure Detector (σ : Type) where
  name : String
  detect : Commit → Commit → StateM σ Detection

namespace Detection

def failed (e : DetectorError) : Detection := (.error e, [])

def ofReport (path : String) (content : Option Content) : Detection :=
  match content with
  | some (.text s) =>
    match Report.parse s with
    | .ok (ops, warnings) => (.ok ops, warnings)
    | .error fault => failed (.badReport path fault)
  | _ => failed (.unreadable path)

end Detection

namespace Miner

def name : String := "RefactoringMiner"

/-- The arguments of the program: it compares two commits of a repository and writes a report. -/
def arguments (repository older newer reportPath : String) : List String :=
  ["-bc", repository, older, newer, "-json", reportPath]

structure Run where
  ending : Ending
  complaint : String
  report : Option Content

abbrev Launcher := String → List String → Option Run

def isPassable (argument : String) : Bool := !argument.toList.contains '\x00'

def run (launch : Launcher) (program : String) (arguments : List String) : Option Run :=
  if (program :: arguments).all isPassable then launch program arguments else none

def detection (program reportPath : String) (run : Option Run) : Detection :=
  match run with
  | none => .failed (.launch program)
  | some r =>
    if r.ending.isSuccess then .ofReport reportPath r.report
    else .failed (.failed r.ending (Text.trim r.complaint))

end Miner

namespace Reports

def name : String := Miner.name

def candidates (older newer : Commit) : List String :=
  [newer.id ++ ".json", newer.shortId ++ ".json", older.id ++ ".." ++ newer.id ++ ".json"]

/-- The first report of a pair that is there; a missing one means no refactorings. -/
def detection (file? : String → Option Content) (shown : String → String) (older newer : Commit) :
    Detection :=
  match (candidates older newer).find? fun f => (file? f).isSome with
  | some f => .ofReport (shown f) (file? f)
  | none => (.ok [], [])

end Reports

namespace Nothing

def name : String := "none"

def detection : Detection := (.ok [], [])

end Nothing

end Lineage.Refactoring
