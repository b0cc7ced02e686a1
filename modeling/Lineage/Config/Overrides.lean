import Lineage.Config.Error
/-! # Overrides

Settings given by variables of the environment. Each variable sets one field, and the first one
whose value is none of the field's stops the work.
-/
namespace Lineage.Config

/-- The value with a name, whose case, blanks around it and underscores do not matter. -/
def choose {α : Type} (all : List α) (name : α → String) (field value : String) :
    Except ConfigError α :=
  let key := ((Text.trim value).map Text.asciiLower).map fun c => if c = '_' then '-' else c
  match all.find? fun a => name a = key with
  | some a => .ok a
  | none => .error (.unknownValue field value)

/-- A whole number up to a bound, perhaps with a plus sign. -/
def number (bound : Nat) (field value : String) : Except ConfigError Nat :=
  let trimmed := (Text.trim value).toList
  let digits := if trimmed.head? = some '+' then trimmed.drop 1 else trimmed
  let n := Text.digitsValue digits
  if !digits.isEmpty && digits.all Text.isDigit && n ≤ bound then .ok n
  else .error (.unknownValue field value)

def chooseMode (value : String) : Except ConfigError Mode := choose Mode.all Mode.name "mode" value

def chooseDetector (value : String) : Except ConfigError DetectorKind :=
  choose DetectorKind.all DetectorKind.name "evolution.detector" value

def chooseStrategy (value : String) : Except ConfigError Strategy :=
  choose Strategy.all Strategy.name "timeline.strategy" value

inductive Setting where
  | mode
  | projectPath
  | projectName
  | commit
  | detector
  | miner
  | reportDir
  | strategy
  | historyWindow
  | maxDepth
  | maxDays
  | exportDir
  | logLevel
  | logDir
  deriving DecidableEq, Repr

namespace Setting

def all : List Setting :=
  [.mode, .projectPath, .projectName, .commit, .detector, .miner, .reportDir, .strategy,
   .historyWindow, .maxDepth, .maxDays, .exportDir, .logLevel, .logDir]

def variableName : Setting → String
  | mode => "STRATA_MODE"
  | projectPath => "STRATA_PROJECT_PATH"
  | projectName => "STRATA_PROJECT_NAME"
  | commit => "STRATA_COMMIT"
  | detector => "STRATA_DETECTOR"
  | miner => "STRATA_REFACTORING_MINER"
  | reportDir => "STRATA_REPORT_DIR"
  | strategy => "STRATA_TIMELINE_STRATEGY"
  | historyWindow => "STRATA_HISTORY_WINDOW"
  | maxDepth => "STRATA_MAX_DEPTH"
  | maxDays => "STRATA_MAX_DAYS"
  | exportDir => "STRATA_EXPORT_DIR"
  | logLevel => "STRATA_LOG_LEVEL"
  | logDir => "STRATA_LOG_DIR"

def ofVariable? (name : String) : Option Setting := all.find? (·.variableName = name)

end Setting

def set (c : Config) (s : Setting) (value : String) : Except ConfigError Config :=
  match s with
  | .mode => (chooseMode value).map fun v => { c with mode := v }
  | .projectPath => .ok { c with project.path := value }
  | .projectName => .ok { c with project.name := some value }
  | .commit => .ok { c with evolution.commit := value }
  | .detector => (chooseDetector value).map fun v => { c with evolution.detector := v }
  | .miner => .ok { c with evolution.miner := value }
  | .reportDir => .ok { c with evolution.reportDir := some value }
  | .strategy => (chooseStrategy value).map fun v => { c with timeline.strategy := v }
  | .historyWindow =>
    (number maxCount "timeline.history_window" value).map fun v =>
      { c with timeline.historyWindow := v }
  | .maxDepth =>
    (number maxCount "timeline.max_depth" value).map fun v => { c with timeline.maxDepth := v }
  | .maxDays =>
    (number maxDayCount "timeline.max_days" value).map fun v => { c with timeline.maxDays := v }
  | .exportDir => .ok { c with «export».baseDir := value }
  | .logLevel => .ok { c with log.level := value }
  | .logDir => .ok { c with log.directory := some value }

def override (c : Config) (v : String × String) : Except ConfigError Config :=
  match Setting.ofVariable? v.1 with
  | some s => c.set s v.2
  | none => .ok c

/-- Applies variables in order up to the first refused one: the error if there is one, and the
configuration at that point. -/
def overrideAll (c : Config) : List (String × String) → Option ConfigError × Config
  | [] => (none, c)
  | v :: vs =>
    match c.override v with
    | .ok c => c.overrideAll vs
    | .error e => (some e, c)

end Lineage.Config
