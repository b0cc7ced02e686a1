import Lineage.Proofs.Trace
/-! # Processing versions

How a run deals with the versions it was given: each is checked out, parsed at once, and compared with
the one before; the first checkout or parse that fails ends the work, a detector that fails does not.
Main statements: `traced_advance`, `traced_foldlM`, `traced_process`.
-/
namespace Lineage.Pipeline

open Refactoring (Operation Detector Detection)

/-- Where the operations between two versions come from. -/
inductive Obtains (known : Timeline.Detections) (older newer : Commit) :
    List Call → List Operation → Prop
  | reused {ops : List Operation} (h : known.lookup (older.id, newer.id) = some ops) :
    Obtains known older newer [] ops
  | detected (h : known.lookup (older.id, newer.id) = none) (found : Detection) :
    Obtains known older newer [.ask (.detect older newer found)] found.operations

/-- The progress after a pair of versions, given the operations between them. -/
def Progress.extend (name : String) (p : Progress) (older : Commit) (v1 : Graph) (newer : Commit)
    (v2 : Graph) (ops : List Operation) : Progress :=
  { p with
    known := p.known.filter (·.1 ≠ (older.id, newer.id))
    aggregate := p.aggregate.fold
      (Merge.run name v1 v2 (Matching.ofGraphs v1 v2 ops) ops ⟨older, newer⟩).1 }

/-- The calls for one version, and where they lead. -/
inductive Advances (name : String) (p : Progress) (v : Commit) :
    List Call → Except RunError Progress → Prop
  | refused (e : RepositoryError) :
    Advances name p v [.ask (.checkout v.id (.error e))] (.error (.repository e))
  | unparsed (reasons : List String) :
    Advances name p v [.ask (.checkout v.id (.ok ())), .parse v (.error reasons)]
      (.error (.unparsedVersion v reasons))
  | first (hp : p.previous = none) (g : Graph) :
    Advances name p v [.ask (.checkout v.id (.ok ())), .parse v (.ok g)]
      (.ok { p with previous := some (v, g) })
  | next {older : Commit} {v1 : Graph} (hp : p.previous = some (older, v1)) (g : Graph)
    {calls : List Call} {ops : List Operation} (ho : Obtains p.known older v calls ops) :
    Advances name p v (.ask (.checkout v.id (.ok ())) :: .parse v (.ok g) :: calls)
      (.ok { p.extend name older v1 v g ops with previous := some (v, g) })

/-- The calls for versions, oldest first, and where they lead. -/
inductive Processes (name : String) :
    Progress → List Commit → List Call → Except RunError Progress → Prop
  | done (p : Progress) : Processes name p [] [] (.ok p)
  | stopped {p : Progress} {v : Commit} {vs : List Commit} {calls : List Call} {e : RunError}
    (h : Advances name p v calls (.error e)) : Processes name p (v :: vs) calls (.error e)
  | next {p q : Progress} {v : Commit} {vs : List Commit} {calls log : List Call}
    {o : Except RunError Progress} (h : Advances name p v calls (.ok q))
    (hrest : Processes name q vs log o) : Processes name p (v :: vs) (calls ++ log) o

def Progress.pairs (p : Progress) (vs : List Commit) : Nat :=
  vs.length - if p.previous.isSome then 0 else 1

inductive Finishes (r : RunReport) (g : Graph) (versions : List Version) :
    List Call → Except RunError Unit → RunReport → Prop
  | failed (ws : Diagnostics) (e : Export.Failure) (r' : RunReport) :
    Finishes r g versions [.write ⟨r.project, g, versions, ws⟩ (.error e)]
      (.error (.unwritten e)) r'
  | written (ws : Diagnostics) (ex : Exported) (st : List Stage) :
    Finishes r g versions [.write ⟨r.project, g, versions, ws⟩ (.ok ex)] (.ok ())
      { r with
        statistics := .ofGraph g
        counts := .ofStatuses (g.nodes.filterMap (·.status))
        stages := st
        exported := some ex }

/-- All calls for versions that were chosen, the export included. -/
inductive Completes (name : String) (known : Timeline.Detections) (vs : List Commit)
    (r : RunReport) : List Call → Except RunError Unit → RunReport → Prop
  | stopped {log : List Call} {e : RunError} (h : Processes name { known } vs log (.error e))
    (r' : RunReport) : Completes name known vs r log (.error e) r'
  | finished {log log' : List Call} {p : Progress} {o : Except RunError Unit} {st : List Stage}
    {r' : RunReport} (h : Processes name { known } vs log (.ok p))
    (hf : Finishes { r with
        pairs := r.pairs + (vs.length - 1)
        commits := p.aggregate.commits
        stages := st } p.aggregate.graph (versionsOf p.aggregate) log' o r') :
    Completes name known vs r (log ++ log') o r'

variable {σ : Type} {c : Collaborators σ} {h : History σ} {r : RunReport} {w : σ × Diagnostics}

theorem traced_operations (hc : c.history = some h) (known : Timeline.Detections)
    (older newer : Commit) :
    Traced c (operations c known older newer) r w fun log o r' =>
      ∃ ops st, Obtains known older newer log ops ∧ o = .ok ops ∧ r' = { r with stages := st } := by
  unfold operations
  split
  · rename_i ops hops
    exact traced_pure ⟨ops, r.stages, .reused hops, rfl, rfl⟩
  · rename_i hnone
    refine Traced.within fun st => ?_
    obtain ⟨es, hes, found, rfl, hops⟩ := logged_detect h c.detector older newer w
    refine (traced_lift (R := fun log ops => ∃ found : Detection,
      log = [.ask (.detect older newer found)] ∧ ops = found.operations)
      ⟨_, hes.trace hc, found, rfl, hops⟩).mono ?_
    rintro log o r' ⟨ops, ⟨found, rfl, rfl⟩, rfl, rfl⟩
    exact ⟨found.operations, st, .detected hnone found, rfl, rfl⟩

theorem traced_fold (hc : c.history = some h) (p : Progress) (older : Commit) (v1 : Graph)
    (newer : Commit) (v2 : Graph) :
    Traced c (fold c p older v1 newer v2) r w fun log o r' =>
      ∃ ops st, Obtains p.known older newer log ops ∧
        o = .ok (p.extend c.detector.name older v1 newer v2 ops) ∧
        r' = { r with pairs := r.pairs + 1, stages := st } := by
  refine (traced_operations hc p.known older newer).bind ?_ ?_
  · rintro log ops r₁ w₁ ⟨_, st, hops, ho, rfl⟩
    obtain rfl := Except.ok.inj ho
    refine Traced.bind (P := fun log o r' => log = [] ∧ (∃ st, r' = { r with stages := st }) ∧
      o = .ok (Merge.run c.detector.name v1 v2 (Matching.ofGraphs v1 v2 ops) ops
        ⟨older, newer⟩).1) (Traced.within fun st => ⟨[], .nil _, rfl, ⟨st, rfl⟩, rfl⟩) ?_ ?_
    · rintro log₂ merged r₂ w₂ ⟨rfl, ⟨st, rfl⟩, hm⟩
      obtain rfl := Except.ok.inj hm
      refine ⟨[], .nil _, ops, st, ?_, rfl, rfl⟩
      simpa using hops
    · rintro log₂ e r₂ ⟨-, -, he⟩
      cases he
  · rintro log e r₁ ⟨ops, st, -, ho, -⟩
    cases ho

theorem traced_advance (hc : c.history = some h) (p : Progress) (v : Commit) :
    Traced c (advance c h p v) r w fun log o r' => Advances c.detector.name p v log o ∧
      ∀ q, o = .ok q → q.previous.isSome ∧
        ∃ st, r' = { r with pairs := r.pairs + p.pairs [v], stages := st } := by
  unfold advance
  refine Traced.stage_bind (x := fun a => .ask (.checkout v.id a)) (fun _ => ⟨h, hc, rfl⟩) ?_
    fun e _ => ⟨.refused e, nofun⟩
  intro _ st w₁
  refine Traced.stage_bind (x := .parse v) (fun _ => rfl) ?_
    fun reasons _ => ⟨.unparsed reasons, nofun⟩
  intro g st' w₂
  cases hp : p.previous with
  | none =>
    refine ⟨[], .nil _, .first hp g, ?_⟩
    intro q hq
    obtain rfl := Except.ok.inj hq
    exact ⟨rfl, st', by rw [Progress.pairs, hp]; rfl⟩
  | some before =>
    refine (traced_fold hc p before.1 before.2 v g).bind ?_ ?_
    · rintro log q r₁ w₃ ⟨ops, st₂, hops, hq, rfl⟩
      obtain rfl := Except.ok.inj hq
      refine ⟨[], .nil _, ?_, ?_⟩
      · rw [List.append_nil]
        exact .next hp g hops
      · intro q hq
        obtain rfl := Except.ok.inj hq
        exact ⟨rfl, st₂, by rw [Progress.pairs, hp]; rfl⟩
    · rintro log e r₁ ⟨ops, st₂, -, he, -⟩
      cases he

theorem traced_foldlM (hc : c.history = some h) (vs : List Commit) (p : Progress) :
    Traced c (vs.foldlM (advance c h) p) r w fun log o r' =>
      Processes c.detector.name p vs log o ∧
        ∀ q, o = .ok q → ∃ st, r' = { r with pairs := r.pairs + p.pairs vs, stages := st } := by
  induction vs generalizing p r w with
  | nil =>
    refine traced_pure ⟨.done p, fun _ _ => ⟨r.stages, ?_⟩⟩
    rw [Progress.pairs, List.length_nil, Nat.zero_sub]
    rfl
  | cons v vs ih =>
    rw [List.foldlM_cons]
    refine (traced_advance hc p v).bind ?_ ?_
    · rintro log q r₁ w₁ ⟨hstep, hreport⟩
      obtain ⟨hprevious, st, rfl⟩ := hreport q rfl
      refine (ih q).mono ?_
      rintro log' o r₂ ⟨hrest, hreport'⟩
      refine ⟨.next hstep hrest, fun q' hq' => ?_⟩
      obtain ⟨st', rfl⟩ := hreport' q' hq'
      refine ⟨st', ?_⟩
      have hpairs : p.pairs [v] + q.pairs vs = p.pairs (v :: vs) := by
        simp only [Progress.pairs, hprevious, List.length_cons, List.length_nil]
        cases p.previous.isSome
        · simp
        · simp only [if_true, Nat.sub_zero]
          omega
      simp only [Nat.add_assoc, hpairs]
    · rintro log e r₁ ⟨hstep, -⟩
      exact ⟨.stopped hstep, nofun⟩

theorem traced_finish (g : Graph) (versions : List Version) :
    Traced c (finish c g versions) r w fun log o r' => Finishes r g versions log o r' := by
  change Traced c (within .export (asked .unwritten (c.write ⟨r.project, g, versions, w.2⟩)) >>=
    fun exported => modify fun r => { r with exported := some exported }) { r with
      statistics := .ofGraph g
      counts := .ofStatuses (g.nodes.filterMap (·.status)) } w _
  refine Traced.stage_bind (x := .write ⟨r.project, g, versions, w.2⟩) (fun _ => rfl) ?_ ?_
  · intro exported st w₁
    exact traced_modify _ (.written w.2 exported st)
  · intro e st
    exact .failed w.2 e _

theorem traced_process (hc : c.history = some h) (vs : List Commit) (known : Timeline.Detections) :
    Traced c (process c h vs known) r w fun log o r' =>
      Completes c.detector.name known vs r log o r' := by
  unfold process
  refine (traced_foldlM hc vs { known }).bind ?_ ?_
  · rintro log p r₁ w₁ ⟨hp, hreport⟩
    obtain ⟨st, rfl⟩ := hreport p rfl
    refine (traced_modify (P := fun log o r' => log = [] ∧ o = .ok () ∧ r' = { r with
      pairs := r.pairs + (vs.length - 1)
      commits := p.aggregate.commits
      stages := st }) _ ⟨rfl, rfl, rfl⟩).bind ?_ ?_
    · rintro log₁ ⟨⟩ r₂ w₂ ⟨rfl, -, rfl⟩
      exact (traced_finish p.aggregate.graph (versionsOf p.aggregate)).mono
        fun log₂ o r₃ hf => .finished hp hf
    · rintro log₁ e r₂ ⟨-, he, -⟩
      cases he
  · rintro log e r₁ ⟨hp, -⟩
    exact .stopped hp r₁

end Lineage.Pipeline
