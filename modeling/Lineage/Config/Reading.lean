import Lineage.Config.Error
import Lineage.Toml.Reader
/-! # Reading a configuration file

A file sets any part of the configuration and leaves the rest at its default; keys that mean nothing
are skipped. A table of settings may also be written as the list of its values in order.
-/
namespace Lineage.Config

/-- A table of settings: named, or in order. -/
inductive Settings where
  | named (entries : List (String × Toml))
  | inOrder (values : List Toml)

namespace Settings

def ofToml? : Toml → Option Settings
  | .table es => some (.named es)
  | .list vs => some (.inOrder vs)
  | .moment => some (.named [])
  | _ => none

def get? (s : Settings) (place : Nat) (key : String) : Option Toml :=
  match s with
  | named es => es.lookup key
  | inOrder vs => vs[place]?

def read {α : Type} (s : Settings) (place : Nat) (key : String) (decode : Toml → Option α)
    (absent : α) : Option α :=
  match s.get? place key with
  | some v => decode v
  | none => some absent

end Settings

def text? : Toml → Option String
  | .text s => some s
  | _ => none

def flag? : Toml → Option Bool
  | .bool b => some b
  | _ => none

def count? (bound : Nat) : Toml → Option Nat
  | .int n => if 0 ≤ n ∧ n ≤ bound then some n.toNat else none
  | _ => none

def texts? : Toml → Option (List String)
  | .list vs => vs.mapM text?
  | _ => none

/-- A choice among names: a name, or a table with nothing but an empty entry of that name. -/
def choice? {α : Type} (all : List α) (name : α → String) (v : Toml) : Option α :=
  let named (s : String) := all.find? fun a => name a = s
  match v with
  | .text s => named s
  | .table [(k, .table [])] => named k
  | .table [(k, .list [])] => named k
  | _ => none

def project? (v : Toml) : Option Project := do
  let s ← Settings.ofToml? v
  let d : Project := {}
  return {
    path := ← s.read 0 "path" text? d.path
    name := ← s.read 1 "name" (fun v => (text? v).map some) d.name }

def evolution? (v : Toml) : Option Evolution := do
  let s ← Settings.ofToml? v
  let d : Evolution := {}
  return {
    commit := ← s.read 0 "commit" text? d.commit
    detector := ← s.read 1 "detector" (choice? DetectorKind.all DetectorKind.name) d.detector
    miner := ← s.read 2 "refactoring_miner" text? d.miner
    reportDir := ← s.read 3 "report_dir" (fun v => (text? v).map some) d.reportDir }

def timeline? (v : Toml) : Option Timeline := do
  let s ← Settings.ofToml? v
  let d : Timeline := {}
  return {
    strategy := ← s.read 0 "strategy" (choice? Strategy.all Strategy.name) d.strategy
    historyWindow := ← s.read 1 "history_window" (count? maxCount) d.historyWindow
    maxDepth := ← s.read 2 "max_depth" (count? maxCount) d.maxDepth
    maxDays := ← s.read 3 "max_days" (count? maxDayCount) d.maxDays }

def staleArtifacts? (v : Toml) : Option (List String) := do
  let s ← Settings.ofToml? v
  s.read 0 "stale_artifacts" texts? default.staleArtifacts

def export? (v : Toml) : Option Export := do
  let s ← Settings.ofToml? v
  let d : Export := {}
  return {
    baseDir := ← s.read 0 "base_dir" text? d.baseDir
    pretty := ← s.read 1 "pretty" flag? d.pretty }

def log? (v : Toml) : Option Log := do
  let s ← Settings.ofToml? v
  let d : Log := {}
  return {
    level := ← s.read 0 "level" text? d.level
    directory := ← s.read 1 "directory" (fun v => (text? v).map some) d.directory
    queueCapacity := ← s.read 2 "queue_capacity" (count? maxCount) d.queueCapacity }

def ofEntries? (entries : List (String × Toml)) : Option Config := do
  let s := Settings.named entries
  let d := default
  return {
    mode := ← s.read 0 "mode" (choice? Mode.all Mode.name) d.mode
    project := ← s.read 1 "project" project? d.project
    evolution := ← s.read 2 "evolution" evolution? d.evolution
    timeline := ← s.read 3 "timeline" timeline? d.timeline
    staleArtifacts := ← s.read 4 "checkout" staleArtifacts? d.staleArtifacts
    «export» := ← s.read 5 "export" export? d.export
    log := ← s.read 6 "log" log? d.log }

def ofText (s : String) : Except ConfigError Config :=
  match (Toml.ofText? s).bind ofEntries? with
  | some c => .ok c
  | none => .error .malformed

end Lineage.Config
