import Lineage.Aggregate
import Lineage.Config
import Lineage.Export
import Lineage.Timeline
/-! # Runs

One run of the analysis: a snapshot, a pair of versions, or a chain of versions folded into one
graph; and the export of the result. Whatever happens to a run that may check out versions, the
working tree is restored once at its end.
-/
namespace Lineage

open Refactoring (Operation Detector)

inductive Stage where
  | history
  | checkout
  | parse
  | detect
  | merge
  | «export»
  deriving DecidableEq, Repr

def Stage.name : Stage → String
  | history => "history"
  | checkout => "checkout"
  | parse => "parse"
  | detect => "detect"
  | merge => "merge"
  | «export» => "export"

structure Exported where
  directory : String
  files : List String
  deriving DecidableEq, Repr

structure RunReport where
  mode : Mode
  project : String
  commits : List Commit := []
  pairs : Nat := 0
  statistics : Statistics := .ofGraph .empty
  counts : StatusCounts := .ofStatuses []
  diagnostics : Diagnostics := .empty
  stages : List Stage := []
  exported : Option Exported := none

inductive RunError where
  | repository (e : RepositoryError)
  | noHead (e : RepositoryError)
  | noRepository (mode : Mode)
  | noParent (commit : Commit)
  | unparsed (path : String) (reasons : List String)
  | unparsedVersion (commit : Commit) (reasons : List String)
  | unwritten (e : Export.Failure)
  | notRestored (e : RepositoryError)

namespace RunError

/-- What went wrong and why, outermost first. -/
def chain : RunError → List String
  | repository e => [e.message]
  | noHead e => ["Failed to read HEAD", e.message]
  | noRepository mode => [s!"{mode.name} mode requires a git repository"]
  | noParent commit => [s!"Commit {commit.shortId} has no parent to compare against"]
  | unparsed path reasons => s!"Failed to parse {path}" :: reasons
  | unparsedVersion commit reasons => s!"Failed to parse snapshot {commit.shortId}" :: reasons
  | unwritten e => [e.message]
  | notRestored e => ["Failed to restore original HEAD", e.message]

def message (e : RunError) : String := Text.join ": " e.chain

end RunError

structure Collaborators (σ : Type) where
  history : Option (History σ)
  /-- Parses the project's files as they are; a failure gives reasons, outermost first. -/
  parse : Commit → StateM σ (Except (List String) Graph)
  detector : Detector σ
  write : Export → StateM σ (Except Export.Failure Exported)
  now : StateM σ Int

namespace Pipeline

variable {σ α ε : Type}

abbrev Run (σ : Type) := ExceptT RunError (StateT RunReport (Inquiry σ))

def orFail (wrap : ε → RunError) (work : Inquiry σ (Except ε α)) : Run σ α := do
  match ← work with
  | .ok a => return a
  | .error e => throw (wrap e)

def asked (wrap : ε → RunError) (question : StateM σ (Except ε α)) : Run σ α :=
  orFail wrap (Inquiry.ask question)

def note (s : Stage) : Run σ Unit :=
  modify fun r => if r.stages.contains s then r else { r with stages := r.stages ++ [s] }

/-- Work that belongs to a stage. -/
def within (s : Stage) (work : Run σ α) : Run σ α := do
  note s
  work

/-- The commit that stands for files that are not under version control. -/
def workingTree (now : Int) : Commit :=
  { Commit.new "working-tree" now with message := "working tree" }

def finish (c : Collaborators σ) (g : Graph) (versions : List Version) : Run σ Unit := do
  modify fun r =>
    { r with
      statistics := .ofGraph g
      counts := .ofStatuses (g.nodes.filterMap (·.status)) }
  let project := (← getThe RunReport).project
  let (_, diagnostics) ← (get : Inquiry σ (σ × Diagnostics))
  let exported ← within .export (asked .unwritten (c.write ⟨project, g, versions, diagnostics⟩))
  modify fun r => { r with exported := some exported }

def requireHistory (c : Collaborators σ) (mode : Mode) : Run σ (History σ) :=
  match c.history with
  | some h => pure h
  | none => throw (.noRepository mode)

/-! ## A snapshot -/

def snapshotCommit (c : Collaborators σ) : Run σ Commit :=
  match c.history with
  | some h => asked .noHead (h.info "HEAD")
  | none => do return workingTree (← Inquiry.ask c.now)

def single (c : Collaborators σ) (cfg : Config) : Run σ Unit := do
  let commit ← snapshotCommit c
  let g ← within .parse (asked (.unparsed cfg.project.path) (c.parse commit))
  modify fun r => { r with commits := r.commits ++ [commit] }
  finish c (g.stamp commit.id) [⟨"V0", commit⟩]

/-! ## Chains of versions -/

structure Progress where
  /-- The version before, with its graph. -/
  previous : Option (Commit × Graph) := none
  /-- Operations that are known already, by the commits compared. -/
  known : Timeline.Detections
  aggregate : Aggregate := .empty

def operations (c : Collaborators σ) (known : Timeline.Detections) (older newer : Commit) :
    Run σ (List Operation) :=
  match known.lookup (older.id, newer.id) with
  | some ops => pure ops
  | none => within .detect (Inquiry.detect c.detector older newer)

def fold (c : Collaborators σ) (p : Progress) (older : Commit) (v1 : Graph) (newer : Commit)
    (v2 : Graph) : Run σ Progress := do
  let ops ← operations c p.known older newer
  let merged ← within .merge do
    let m := Matching.ofGraphs v1 v2 ops
    let (merged, ws) := Merge.run c.detector.name v1 v2 m ops ⟨older, newer⟩
    Inquiry.warn (σ := σ) (m.warnings ++ ws)
    return merged
  modify fun r => { r with pairs := r.pairs + 1 }
  return { p with
    known := p.known.filter (·.1 ≠ (older.id, newer.id))
    aggregate := p.aggregate.fold merged }

def advance (c : Collaborators σ) (h : History σ) (p : Progress) (commit : Commit) :
    Run σ Progress := do
  within .checkout (asked .repository (h.checkout commit.id))
  let g ← within .parse (asked (.unparsedVersion commit) (c.parse commit))
  let p ← match p.previous with
    | some (older, v1) => fold c p older v1 commit g
    | none => pure p
  return { p with previous := some (commit, g) }

def versionsOf (a : Aggregate) : List Version := a.labels.map fun (label, commit) => ⟨label, commit⟩

def process (c : Collaborators σ) (h : History σ) (commits : List Commit)
    (known : Timeline.Detections) : Run σ Unit := do
  let p ← commits.foldlM (advance c h) { known }
  modify fun r => { r with commits := p.aggregate.commits }
  finish c p.aggregate.graph (versionsOf p.aggregate)

def evolution (c : Collaborators σ) (cfg : Config) : Run σ Unit := do
  let h ← requireHistory c cfg.mode
  let target ← asked .repository (h.info cfg.evolution.commit)
  match ← asked .repository (h.parent target.id) with
  | some parent => process c h [parent, target] []
  | none => throw (.noParent target)

def chosen (c : Collaborators σ) (h : History σ) (cfg : Config) :
    Run σ (List Commit × Timeline.Detections) :=
  match cfg.timeline.strategy with
  | .linear | .fileBased => do
    return (← asked .repository (h.linear cfg.evolution.commit cfg.timeline.historyWindow), [])
  | .refactoringDriven => do
    let budget : Budget := ⟨cfg.timeline.maxDepth, cfg.timeline.maxDays⟩
    let t ← orFail .repository (Timeline.build h c.detector budget cfg.evolution.commit)
    return (t.commits, t.detections)

def chain (c : Collaborators σ) (cfg : Config) : Run σ Unit := do
  let h ← requireHistory c cfg.mode
  let (commits, known) ← within .history (chosen c h cfg)
  if commits.length < 2 then modify fun r => { r with commits }
  else process c h commits known

/-! ## The whole run -/

def stages (c : Collaborators σ) (cfg : Config) : Run σ Unit :=
  match cfg.mode with
  | .single => single c cfg
  | .evolution => evolution c cfg
  | .multiEvolution => chain c cfg

def restored (c : Collaborators σ) (mode : Mode) : StateM σ (Except RepositoryError Unit) :=
  match mode, c.history with
  | .single, _ | _, none => pure (.ok ())
  | _, some h => h.restore

/-- Runs the analysis of a project. A failed stage is the answer even if restoring fails as well. -/
def run (c : Collaborators σ) (cfg : Config) (project : String) :
    StateM σ (Except RunError RunReport) := fun world =>
  let ((outcome, report), world, diagnostics) :=
    Inquiry.run ((stages c cfg).run.run { mode := cfg.mode, project }) world
  let (ending, world) := restored c cfg.mode world
  let answer := match outcome, ending with
    | .error e, _ => .error e
    | .ok (), .error e => .error (.notRestored e)
    | .ok (), .ok () => .ok { report with diagnostics }
  (answer, world)

end Pipeline

end Lineage
