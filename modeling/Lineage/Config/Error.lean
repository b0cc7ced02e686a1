import Lineage.Config
import Lineage.FileTree
import Lineage.Glob
/-! # Why a configuration is refused -/
namespace Lineage

inductive ConfigError where
  | unreadable (path : String) (reason : FileError)
  | malformed
  | unknownValue (field value : String)
  | invalidGlob (pattern : String) (reason : GlobError)
  | emptyProjectPath
  | shortHistory (window : Nat)
  | noQueue
  deriving DecidableEq, Repr

def ConfigError.message : ConfigError → String
  | .unreadable path reason => s!"Failed to read config file {path}: {reason.message}"
  | .malformed => "Failed to parse config file"
  | .unknownValue field value => s!"Invalid value {Text.quoted value} for {field}"
  | .invalidGlob pattern reason =>
    s!"Invalid glob pattern {Text.quoted pattern}: {Glob.problem pattern reason}"
  | .emptyProjectPath => "Invalid configuration: project.path must not be empty"
  | .shortHistory window =>
    "Invalid configuration: timeline.history_window must be at least 2 in multi-evolution mode, " ++
      s!"got {window}"
  | .noQueue => "Invalid configuration: log.queue_capacity must be positive"

end Lineage
