import Lineage.Json
import Lineage.Path
import Lineage.Toml
/-! # Configuration

What a run does, where it reads and writes, and how it is written down. `Config.default` holds the
built-in values.
-/
namespace Lineage

inductive Mode where
  | single
  | evolution
  | multiEvolution
  deriving DecidableEq, Repr, Inhabited

namespace Mode

def all : List Mode := [.single, .evolution, .multiEvolution]

def name : Mode → String
  | single => "single"
  | evolution => "evolution"
  | multiEvolution => "multi-evolution"

end Mode

inductive DetectorKind where
  | refactoringMiner
  | report
  | none
  deriving DecidableEq, Repr, Inhabited

namespace DetectorKind

def all : List DetectorKind := [.refactoringMiner, .report, .none]

def name : DetectorKind → String
  | refactoringMiner => "refactoring-miner"
  | report => "report"
  | none => "none"

end DetectorKind

inductive Strategy where
  | linear
  /-- The same as linear. -/
  | fileBased
  /-- The commits that refactorings lead through. -/
  | refactoringDriven
  deriving DecidableEq, Repr, Inhabited

namespace Strategy

def all : List Strategy := [.linear, .fileBased, .refactoringDriven]

def name : Strategy → String
  | linear => "linear"
  | fileBased => "file-based"
  | refactoringDriven => "refactoring-driven"

end Strategy

namespace Config

def maxCount : Nat := UInt64.size - 1

def maxDayCount : Nat := UInt32.size - 1

structure Project where
  path : String := "."
  name : Option String := none
  deriving DecidableEq, Repr, Inhabited

structure Evolution where
  commit : String := "HEAD"
  detector : DetectorKind := .refactoringMiner
  miner : String := "RefactoringMiner"
  reportDir : Option String := none
  deriving DecidableEq, Repr, Inhabited

structure Timeline where
  strategy : Strategy := .linear
  historyWindow : Nat := 5
  maxDepth : Nat := 50
  /-- The greatest age in days before the newest commit; zero stands for no limit. -/
  maxDays : Nat := 180
  deriving DecidableEq, Repr, Inhabited

structure Export where
  baseDir : String := "./graph_export"
  pretty : Bool := true
  deriving DecidableEq, Repr, Inhabited

structure Log where
  level : String := "info"
  directory : Option String := none
  queueCapacity : Nat := 1000
  deriving DecidableEq, Repr, Inhabited

end Config

structure Config where
  mode : Mode := .single
  project : Config.Project := {}
  evolution : Config.Evolution := {}
  timeline : Config.Timeline := {}
  /-- Patterns of build leftovers that are removed before a checkout. -/
  staleArtifacts : List String := ["**/*.class", "target/classes/**"]
  «export» : Config.Export := {}
  log : Config.Log := {}
  deriving DecidableEq, Repr

namespace Config

def default : Config := {}

instance : Inhabited Config := ⟨default⟩

/-- The given name of the project, or that of its folder; `resolve` finds existing folders. -/
def projectName (c : Config) (resolve : String → Option String) : String :=
  match c.project.name.filter fun n => Text.trim n ≠ "" with
  | some n => Text.trim n
  | none => (Path.fileName? ((resolve c.project.path).getD c.project.path)).getD "project"

/-! ## Written forms -/

def toJson (c : Config) : Json :=
  let opt := Json.option Json.text
  .record
    [("mode", .text c.mode.name),
     ("project", .record [("path", .text c.project.path), ("name", opt c.project.name)]),
     ("evolution", .record
       [("commit", .text c.evolution.commit),
        ("detector", .text c.evolution.detector.name),
        ("refactoring_miner", .text c.evolution.miner),
        ("report_dir", opt c.evolution.reportDir)]),
     ("timeline", .record
       [("strategy", .text c.timeline.strategy.name),
        ("history_window", .nat c.timeline.historyWindow),
        ("max_depth", .nat c.timeline.maxDepth),
        ("max_days", .nat c.timeline.maxDays)]),
     ("checkout", .record [("stale_artifacts", .texts c.staleArtifacts)]),
     ("export", .record
       [("base_dir", .text c.export.baseDir), ("pretty", .bool c.export.pretty)]),
     ("log", .record
       [("level", .text c.log.level),
        ("directory", opt c.log.directory),
        ("queue_capacity", .nat c.log.queueCapacity)])]

def tomlEntry? (key : String) (value : Option String) : List (String × Toml) :=
  value.toList.map fun v => (key, .text v)

def toToml (c : Config) : String :=
  Toml.writeDocument [("mode", .text c.mode.name)]
    [("project", ("path", .text c.project.path) :: tomlEntry? "name" c.project.name),
     ("evolution",
       [("commit", .text c.evolution.commit), ("detector", .text c.evolution.detector.name),
        ("refactoring_miner", .text c.evolution.miner)] ++
         tomlEntry? "report_dir" c.evolution.reportDir),
     ("timeline",
       [("strategy", .text c.timeline.strategy.name),
        ("history_window", .int c.timeline.historyWindow),
        ("max_depth", .int c.timeline.maxDepth),
        ("max_days", .int c.timeline.maxDays)]),
     ("checkout", [("stale_artifacts", .texts c.staleArtifacts)]),
     ("export", [("base_dir", .text c.export.baseDir), ("pretty", .bool c.export.pretty)]),
     ("log",
       ("level", .text c.log.level) :: tomlEntry? "directory" c.log.directory ++
         [("queue_capacity", .int c.log.queueCapacity)])]

end Config

end Lineage
