import Lineage.Proofs.Documents
import Lineage.Proofs.Protocol
/-! # What a run exports

From freshly parsed versions, a run that compares versions hands over nothing but documents that fit
together, once if it reports an export. Main statements: `Processes.closed`, `exports_run`.
-/
namespace Lineage

/-- No version that is parsed says in which versions its nodes occur. -/
def Call.ParsesUndated (log : List Call) : Prop := ∀ v g, .parse v (.ok g) ∈ log → g.Undated

theorem Call.ParsesUndated.mono {log log' : List Call} (h : ParsesUndated log') (hl : log ⊆ log') :
    ParsesUndated log := fun v g hx => h v g (hl hx)

namespace Pipeline

open Call (ParsesUndated isWrite)

/-- What is processed so far holds what it refers to, and the version before is undated. -/
structure Progress.Closed (p : Progress) : Prop where
  aggregate : p.aggregate.Closed
  previous : ∀ v g, p.previous = some (v, g) → g.Undated

theorem Progress.closed_start (known : Timeline.Detections) : Progress.Closed { known } :=
  ⟨Aggregate.closed_empty, nofun⟩

section Versions
variable {name : String} {p : Progress} {v : Commit} {vs : List Commit} {log : List Call}

theorem Advances.closed {q : Progress} (h : Advances name p v log (.ok q)) (hp : p.Closed)
    (hu : ParsesUndated log) : q.Closed := by
  cases h with
  | first hprevious g =>
    refine ⟨hp.aggregate, ?_⟩
    rintro _ _ ⟨⟩
    exact hu v g (by simp)
  | next hprevious g ho =>
    have hg : g.Undated := hu v g (by simp)
    refine ⟨hp.aggregate.fold fun n hn => Merge.listed_run (hp.previous _ _ hprevious) hg hn, ?_⟩
    rintro _ _ ⟨⟩
    exact hg

theorem Processes.closed {q : Progress} (h : Processes name p vs log (.ok q)) (hp : p.Closed)
    (hu : ParsesUndated log) : q.Closed := by
  generalize ho : (.ok q : Except RunError Progress) = o at h
  induction h with
  | done p =>
    obtain rfl := Except.ok.inj ho
    exact hp
  | stopped => cases ho
  | next h _ ih =>
    exact ih (h.closed hp (hu.mono (List.subset_append_left _ _)))
      (hu.mono (List.subset_append_right _ _)) ho

end Versions

/-- Only documents that fit together are handed over, and just those of the export that is reported. -/
structure Exports (log : List Call) (reported : Option Exported) : Prop where
  intact : ∀ e a, .write e a ∈ log → ∀ time, e.IsIntact time
  once : ∀ ex ∈ reported, ∃ e, log.filter isWrite = [.write e (.ok ex)]

section Exports
variable {log log' : List Call} {reported : Option Exported}

theorem exports_of_unwritten (h : ∀ x ∈ log, x.isWrite = false) (hr : reported = none) :
    Exports log reported where
  intact e a hx := by cases h _ hx
  once ex hex := by
    rw [hr] at hex
    cases hex

theorem Exports.append (h : Exports log' reported) (hlog : ∀ x ∈ log, x.isWrite = false) :
    Exports (log ++ log') reported where
  intact e a hx := by
    rcases List.mem_append.mp hx with hx | hx
    · cases hlog _ hx
    · exact h.intact e a hx
  once ex hex := by
    have hnone : log.filter isWrite = [] :=
      List.filter_eq_nil_iff.mpr fun x hx => by simp [hlog x hx]
    rw [List.filter_append, hnone, List.nil_append]
    exact h.once ex hex

end Exports

section Run
variable {σ : Type} {c : Collaborators σ} {cfg : Config} {s : σ} {r r' : RunReport}
  {log : List Call} {o : Except RunError Unit}

def reported {α : Type} (o : Except RunError α) (r : α → RunReport) : Option Exported :=
  match o with
  | .ok a => (r a).exported
  | .error _ => none

theorem Finishes.exports {a : Aggregate} (h : Finishes r a.graph (versionsOf a) log o r')
    (ha : a.Closed) : Exports log (reported o fun _ => r') := by
  cases h with
  | failed ws e =>
    refine ⟨fun e' a' hx time => ?_, nofun⟩
    cases List.mem_singleton.mp hx
    exact ha.intact r.project ws time
  | written ws ex st =>
    refine ⟨fun e' a' hx time => ?_, fun ex' hex => ?_⟩
    · cases List.mem_singleton.mp hx
      exact ha.intact r.project ws time
    · obtain rfl := Option.some.inj hex
      exact ⟨_, rfl⟩

theorem Completes.exports {name : String} {known : Timeline.Detections} {vs : List Commit}
    (h : Completes name known vs r log o r') (hu : ParsesUndated log) :
    Exports log (reported o fun _ => r') := by
  cases h with
  | stopped h r' => exact exports_of_unwritten (fun x hx => (h.tidy.2 x hx).2) rfl
  | finished h hf =>
    have hclosed := h.closed (Progress.closed_start known) (hu.mono (List.subset_append_left _ _))
    exact (hf.exports hclosed.aggregate).append fun x hx => (h.tidy.2 x hx).2

theorem Conducts.exports (hm : cfg.mode ≠ .single) (hr : r.exported = none)
    (h : Conducts c cfg s r log o r') (hu : ParsesUndated log) :
    Exports log (reported o fun _ => r') := by
  have hquiet : ∀ {log : List Call}, (∀ x ∈ log, x.isInquiry = true) →
      ∀ x ∈ log, x.isWrite = false := fun h x hx => (Call.unobtrusive (h x hx)).not_write
  cases h with
  | headless hm' => exact absurd hm' hm
  | unparsed hm' => exact absurd hm' hm
  | snapshot hm' => exact absurd hm' hm
  | unhistoried _ hh r' => exact exports_of_unwritten (List.forall_mem_nil _) rfl
  | unselected _ hh hs r' => exact exports_of_unwritten (hquiet hs.quiet) rfl
  | short hh hs hvs st => exact exports_of_unwritten (hquiet fun x hx => (hs.quiet x hx).1) hr
  | processed hh hs hvs hc =>
    exact (hc.exports (hu.mono (List.subset_append_right _ _))).append
      (hquiet fun x hx => (hs.quiet x hx).1)

section Restores
variable {log' : List Call} {a : Except RepositoryError Unit} (h : Restores c cfg log log' a)
include h

theorem Restores.subset : log ⊆ log' := by
  cases h with
  | needless => exact List.Subset.refl _
  | last => exact List.subset_append_left _ _

theorem Restores.filter_isWrite : log'.filter isWrite = log.filter isWrite := by
  cases h with
  | needless => rfl
  | last hm hh a => rw [List.filter_append, List.filter_singleton]; exact List.append_nil _

theorem Restores.exports {reported : Option Exported} (he : Exports log reported) :
    Exports log' reported where
  intact e b hx := by
    have hmem : Call.write e b ∈ log.filter isWrite := by
      rw [← h.filter_isWrite]
      exact List.mem_filter.mpr ⟨hx, rfl⟩
    exact he.intact e b (List.mem_of_mem_filter hmem)
  once ex hex := by
    rw [h.filter_isWrite]
    exact he.once ex hex

end Restores

/-- Whatever versions a run compares, if they are freshly parsed, the documents that it hands over fit
together, and it reports an export if these were written, once. -/
theorem exports_run (c : Collaborators σ) (cfg : Config) (project : String) (s : σ)
    (hm : cfg.mode ≠ .single)
    (hu : ParsesUndated (run c.recording cfg project (s, [])).2.2) :
    Exports (run c.recording cfg project (s, [])).2.2
      (reported (run c.recording cfg project (s, [])).1 id) := by
  have hstages : Traced c.recording (stages c.recording cfg) { mode := cfg.mode, project }
    ((s, []), .empty) (Conducts c.recording cfg (s, []) { mode := cfg.mode, project }) :=
    traced_stages
  rw [run_eq] at hu ⊢
  obtain ⟨log, log', o, r, a, ws, hconducts, hrestores, htrace, hanswer⟩ := exists_ended hstages
  rw [show _ = log' from htrace.recorded] at hu ⊢
  rw [hanswer]
  have hexports := hrestores.exports (hconducts.exports hm rfl (hu.mono hrestores.subset))
  refine ⟨hexports.intact, fun ex hex => hexports.once ex ?_⟩
  cases o <;> cases a <;> first | exact hex | cases hex

section Sample
open Refactoring (Operation)
open Merge (callsBefore callsAfter parsed_calls)

def renamedPair : Collaborators Unit where
  history := some
    { info := fun _ => pure (.ok (.new "c1" 1))
      parent := fun _ => pure (.ok (some (.new "c0" 0)))
      linear := fun _ _ => pure (.ok [.new "c0" 0, .new "c1" 1])
      changedFiles := fun _ => pure (.ok [])
      checkout := fun _ => pure (.ok ())
      restore := pure (.ok ()) }
  parse v := pure (.ok (if v.id = "c0" then callsBefore else callsAfter))
  detector := ⟨defaultDetector, fun _ _ => pure (.ok [.renameAt 3], [])⟩
  write _ := pure (.ok ⟨"out", []⟩)
  now := pure 0

def comparing : Config := { mode := .evolution }

theorem exports_renamedPair : comparing.mode ≠ .single ∧
    ParsesUndated (run renamedPair.recording comparing "calls" ((), [])).2.2 ∧
    reported (run renamedPair.recording comparing "calls" ((), [])).1 id = some ⟨"out", []⟩ ∧
    Exports (run renamedPair.recording comparing "calls" ((), [])).2.2
      (reported (run renamedPair.recording comparing "calls" ((), [])).1 id) := by
  have hm : comparing.mode ≠ .single := by decide
  have hu : ParsesUndated (run renamedPair.recording comparing "calls" ((), [])).2.2 := by
    obtain ⟨log, htrace, -⟩ := exists_protocol renamedPair.recording comparing "calls" ((), [])
    have hlog : (run renamedPair.recording comparing "calls" ((), [])).2.2 = log := htrace.recorded
    intro v g hx
    rw [hlog] at hx
    obtain ⟨w, w', hw⟩ := htrace.exists_occurs _ hx
    obtain rfl := Except.ok.inj (congrArg Prod.fst hw)
    split
    · exact (parsed_calls _ _).undated
    · exact (parsed_calls _ _).undated
  exact ⟨hm, hu, by decide +kernel, exports_run renamedPair comparing "calls" () hm hu⟩

end Sample

end Run

end Pipeline

end Lineage
