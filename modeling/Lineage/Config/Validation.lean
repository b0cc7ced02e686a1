import Lineage.Config.Error
/-! # Checking a configuration before a run -/
namespace Lineage.Config

def logLevels : List String := ["trace", "debug", "info", "warn", "error"]

def lowered (s : String) : String := s.map Text.asciiLower

def firstBadGlob? (patterns : List String) : Option (String × GlobError) :=
  patterns.findSome? fun p =>
    match Glob.ofText .path p with
    | .ok _ => none
    | .error e => some (p, e)

def problem? (c : Config) : Option ConfigError :=
  if c.project.path = "" then some .emptyProjectPath
  else if c.mode = .multiEvolution ∧ c.timeline.historyWindow < 2 then
    some (.shortHistory c.timeline.historyWindow)
  else if !logLevels.contains (lowered c.log.level) then
    some (.unknownValue "log.level" c.log.level)
  else if c.log.queueCapacity = 0 then some .noQueue
  else (firstBadGlob? c.staleArtifacts).map fun (p, e) => .invalidGlob p e

def validate (c : Config) : Except ConfigError Unit :=
  match c.problem? with
  | some e => .error e
  | none => .ok ()

end Lineage.Config
