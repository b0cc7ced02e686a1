import Lineage.Proofs.Conduct
import Lineage.Proofs.Walks
/-! # The stages of a run

Which versions a run chooses, and what it does with them in each mode. Main statements:
`explores_build`, `traced_chosen`, `traced_stages`.
-/
namespace Lineage

open Refactoring (Operation Detector Detection)

/-! ## Finding a timeline -/

/-- Questions with which a timeline is found: none of them touches the working tree. -/
def Exchange.Explores : Exchange → Prop
  | info _ (.ok _) | parent .. | changedFiles .. | detect .. => True
  | info _ (.error _) | linear .. | checkout .. | restore .. => False

namespace Timeline

variable {σ α β : Type} {h : History σ} {d : Detector σ}

def Explores (h : History σ) (d : Detector σ) (work : Inquiry σ α) : Prop :=
  Logged h d work fun log _ => ∀ x ∈ log, x.Explores

theorem explores_pure (a : α) : Explores h d (pure a) := logged_pure nofun

theorem Explores.bind {work : Inquiry σ α} {f : α → Inquiry σ β} (hw : Explores h d work)
    (hf : ∀ a, Explores h d (f a)) : Explores h d (work >>= f) := by
  refine Logged.bind hw fun log a hlog => (hf a).mono fun log' _ hlog' x hx => ?_
  rcases List.mem_append.mp hx with hx | hx
  · exact hlog x hx
  · exact hlog' x hx

theorem explores_parent (id : String) : Explores h d (Inquiry.ask (h.parent id)) := by
  refine (logged_parent h d id).mono fun log a hlog x hx => ?_
  rw [hlog, List.mem_singleton] at hx
  rw [hx]
  trivial

theorem explores_changedFiles (id : String) : Explores h d (Inquiry.ask (h.changedFiles id)) := by
  refine (logged_changedFiles h d id).mono fun log a hlog x hx => ?_
  rw [hlog, List.mem_singleton] at hx
  rw [hx]
  trivial

theorem explores_detect (older newer : Commit) : Explores h d (Inquiry.detect d older newer) := by
  refine (logged_detect h d older newer).mono fun log a ⟨found, hlog, _⟩ x hx => ?_
  rw [hlog, List.mem_singleton] at hx
  rw [hx]
  trivial

theorem composes_explores : Composes h d fun _ work => Explores h d work where
  of_pure := explores_pure
  of_bind := Explores.bind
  of_parent := explores_parent
  of_changedFiles := explores_changedFiles
  of_detect := explores_detect

/-- Only a reference that leads nowhere stops the search for a timeline. -/
theorem explores_build (b : Budget) (reference : String) :
    Logged h d (build h d b reference) fun log answer =>
      (∃ e, log = [.info reference (.error e)] ∧ answer = .error e) ∨
        (∀ x ∈ log, x.Explores) ∧ ∃ t, answer = .ok t := by
  refine (logged_info h d reference).bind fun log answer hlog => ?_
  subst hlog
  cases answer with
  | error e => exact logged_pure (.inl ⟨e, rfl, rfl⟩)
  | ok target =>
    refine Logged.bind (composes_explores.ofTarget b target) fun log' t hlog' =>
      logged_pure (.inr ⟨?_, t, rfl⟩)
    intro x hx
    rw [List.append_nil] at hx
    rcases List.mem_append.mp hx with hx | hx
    · rw [List.mem_singleton.mp hx]
      trivial
    · exact hlog' x hx

end Timeline

namespace Pipeline

/-! ## Choosing versions -/

def budgetOf (cfg : Config) : Budget := ⟨cfg.timeline.maxDepth, cfg.timeline.maxDays⟩

/-- The calls with which a run that starts in the world `s` chooses versions, oldest first, and the
operations between them that it comes to know. -/
inductive Selects {σ : Type} (c : Collaborators σ) (cfg : Config) (s : σ) :
    List Call → List Commit → Timeline.Detections → Prop
  | pair (hm : cfg.mode = .evolution) (target parent : Commit) :
    Selects c cfg s [.ask (.info cfg.evolution.commit (.ok target)),
      .ask (.parent target.id (.ok (some parent)))] [parent, target] []
  | linear (hm : cfg.mode = .multiEvolution) (hs : cfg.timeline.strategy ≠ .refactoringDriven)
    (vs : List Commit) :
    Selects c cfg s
      [.ask (.linear cfg.evolution.commit cfg.timeline.historyWindow (.ok vs))] vs []
  | timeline (hm : cfg.mode = .multiEvolution) (hs : cfg.timeline.strategy = .refactoringDriven)
    {h : History σ} (hh : h ∈ c.history) {t : Timeline}
    (ht : (Timeline.build h c.detector (budgetOf cfg) cfg.evolution.commit (s, .empty)).1 = .ok t)
    {es : List Exchange} (he : ∀ x ∈ es, x.Explores) :
    Selects c cfg s (es.map .ask) t.commits t.detections

/-- The calls after which a run has no versions, and why. -/
inductive Unselects (cfg : Config) : List Call → RunError → Prop
  | target (e : RepositoryError) :
    Unselects cfg [.ask (.info cfg.evolution.commit (.error e))] (.repository e)
  | parent (hm : cfg.mode = .evolution) (target : Commit) (e : RepositoryError) :
    Unselects cfg [.ask (.info cfg.evolution.commit (.ok target)),
      .ask (.parent target.id (.error e))] (.repository e)
  | root (hm : cfg.mode = .evolution) (target : Commit) :
    Unselects cfg [.ask (.info cfg.evolution.commit (.ok target)),
      .ask (.parent target.id (.ok none))] (.noParent target)
  | linear (e : RepositoryError) :
    Unselects cfg [.ask (.linear cfg.evolution.commit cfg.timeline.historyWindow (.error e))]
      (.repository e)

inductive Dates : Call → Commit → Prop
  | head (v : Commit) : Dates (.ask (.info "HEAD" (.ok v))) v
  | now (t : Int) : Dates (.now t) (workingTree t)

/-- What the stages of a run do, from the world `s` and the report `r`. -/
inductive Conducts {σ : Type} (c : Collaborators σ) (cfg : Config) (s : σ) (r : RunReport) :
    List Call → Except RunError Unit → RunReport → Prop
  | headless (hm : cfg.mode = .single) (e : RepositoryError) (r' : RunReport) :
    Conducts c cfg s r [.ask (.info "HEAD" (.error e))] (.error (.noHead e)) r'
  | unparsed (hm : cfg.mode = .single) {x : Call} {v : Commit} (hx : Dates x v)
    (reasons : List String) (r' : RunReport) :
    Conducts c cfg s r [x, .parse v (.error reasons)]
      (.error (.unparsed cfg.project.path reasons)) r'
  | snapshot (hm : cfg.mode = .single) {x : Call} {v : Commit} (hx : Dates x v) (g : Graph)
    {st : List Stage} {log : List Call} {o : Except RunError Unit} {r' : RunReport}
    (hf : Finishes { r with commits := r.commits ++ [v], stages := st } (g.stamp v.id) [⟨"V0", v⟩]
      log o r') :
    Conducts c cfg s r (x :: .parse v (.ok g) :: log) o r'
  | unhistoried (hm : cfg.mode ≠ .single) (hh : c.history = none) (r' : RunReport) :
    Conducts c cfg s r [] (.error (.noRepository cfg.mode)) r'
  | unselected (hm : cfg.mode ≠ .single) (hh : c.history.isSome) {log : List Call} {e : RunError}
    (hs : Unselects cfg log e) (r' : RunReport) : Conducts c cfg s r log (.error e) r'
  | short (hh : c.history.isSome) {log : List Call} {vs : List Commit}
    {known : Timeline.Detections} (hs : Selects c cfg s log vs known) (hvs : vs.length < 2)
    (st : List Stage) : Conducts c cfg s r log (.ok ()) { r with commits := vs, stages := st }
  | processed (hh : c.history.isSome) {log log' : List Call} {vs : List Commit}
    {known : Timeline.Detections} (hs : Selects c cfg s log vs known) (hvs : 2 ≤ vs.length) {st : List Stage}
    {o : Except RunError Unit} {r' : RunReport}
    (hc : Completes c.detector.name known vs { r with stages := st } log' o r') :
    Conducts c cfg s r (log ++ log') o r'

variable {σ : Type} {c : Collaborators σ} {cfg : Config} {h : History σ} {r : RunReport} {s : σ}
  {w : σ × Diagnostics}

theorem traced_evolution (hm : cfg.mode = .evolution) :
    Traced c (evolution c cfg) r (s, .empty) (Conducts c cfg s r) := by
  have hmode : cfg.mode ≠ .single := by rw [hm]; nofun
  unfold evolution requireHistory
  cases hc : c.history with
  | none => exact ⟨[], .nil _, .unhistoried hmode hc r⟩
  | some h =>
  have hh : c.history.isSome := by rw [hc]; rfl
  refine Traced.asked_bind (x := fun a => .ask (.info cfg.evolution.commit a))
    (fun _ => ⟨h, hc, rfl⟩) ?_ fun e => .unselected hmode hh (.target e) r
  intro target w₁
  refine Traced.asked_bind (x := fun a => .ask (.parent target.id a))
    (fun _ => ⟨h, hc, rfl⟩) ?_ fun e => .unselected hmode hh (.parent hm target e) r
  intro parent w₂
  cases parent with
  | none => exact traced_throw (.unselected hmode hh (.root hm target) r)
  | some parent =>
    exact (traced_process (r := { r with stages := r.stages }) hc [parent, target] []).mono
      fun log o r' hp => .processed hh (.pair hm target parent) (Nat.le_refl 2) hp

theorem traced_chosen (hc : c.history = some h) (hm : cfg.mode = .multiEvolution) :
    Traced c (chosen c h cfg) r (s, .empty) fun log o r' => r' = r ∧
      ((∃ vs known, o = .ok (vs, known) ∧ Selects c cfg s log vs known) ∨
        ∃ e, o = .error e ∧ Unselects cfg log e) := by
  have hlinear : ∀ hs : cfg.timeline.strategy ≠ .refactoringDriven,
      Traced c (asked .repository (h.linear cfg.evolution.commit cfg.timeline.historyWindow) >>=
        fun vs => pure (vs, [])) r (s, .empty) fun log o r' => r' = r ∧
      ((∃ vs known, o = .ok (vs, known) ∧ Selects c cfg s log vs known) ∨
        ∃ e, o = .error e ∧ Unselects cfg log e) := fun hs =>
    Traced.asked_bind
      (x := fun a => .ask (.linear cfg.evolution.commit cfg.timeline.historyWindow a))
      (fun _ => ⟨h, hc, rfl⟩)
      (fun vs _ => traced_pure ⟨rfl, .inl ⟨vs, [], rfl, .linear hm hs vs⟩⟩)
      fun e => ⟨rfl, .inr ⟨.repository e, rfl, .linear e⟩⟩
  unfold chosen
  cases hs : cfg.timeline.strategy with
  | linear => exact hlinear (by rw [hs]; nofun)
  | fileBased => exact hlinear (by rw [hs]; nofun)
  | refactoringDriven =>
    obtain ⟨es, hes, hbuild⟩ := Timeline.explores_build (h := h) (d := c.detector) (budgetOf cfg)
      cfg.evolution.commit (s, .empty)
    refine (traced_orFail (R := fun log a => log = es.map .ask ∧ a = (Timeline.build h c.detector
      (budgetOf cfg) cfg.evolution.commit (s, .empty)).1) ⟨es.map .ask, hes.trace hc, rfl, rfl⟩).bind
      ?_ ?_
    · rintro log t r₁ w₁ ⟨a, ⟨rfl, rfl⟩, ha, rfl⟩
      rcases hbuild with ⟨e, -, he⟩ | ⟨hexplores, t', ht⟩
      · rw [he] at ha
        cases ha
      · rw [ht] at ha
        obtain rfl := Except.ok.inj ha
        refine traced_pure ⟨rfl, .inl ⟨_, _, rfl, ?_⟩⟩
        rw [List.append_nil]
        exact .timeline hm hs hc ht hexplores
    · rintro log e r₁ ⟨a, ⟨rfl, rfl⟩, ha, rfl⟩
      rcases hbuild with ⟨e', rfl, he⟩ | ⟨-, t', ht⟩
      · rw [he] at ha
        obtain rfl := Except.error.inj ha
        exact ⟨rfl, .inr ⟨_, rfl, .target e'⟩⟩
      · rw [ht] at ha
        cases ha

theorem traced_choice (hc : c.history = some h) (hm : cfg.mode = .multiEvolution) :
    Traced c (within .history (chosen c h cfg)) r (s, .empty) fun log o r' =>
      (∃ st, r' = { r with stages := st }) ∧
        ((∃ vs known, o = .ok (vs, known) ∧ Selects c cfg s log vs known) ∨
          ∃ e, o = .error e ∧ Unselects cfg log e) :=
  Traced.within fun st => (traced_chosen hc hm).mono fun _ _ _ hp => ⟨⟨st, hp.1⟩, hp.2⟩

theorem traced_chain (hm : cfg.mode = .multiEvolution) :
    Traced c (chain c cfg) r (s, .empty) (Conducts c cfg s r) := by
  have hmode : cfg.mode ≠ .single := by rw [hm]; nofun
  unfold chain requireHistory
  cases hc : c.history with
  | none => exact ⟨[], .nil _, .unhistoried hmode hc r⟩
  | some h =>
  have hh : c.history.isSome := by rw [hc]; rfl
  refine (traced_choice hc hm).bind ?_ ?_
  · rintro log ⟨vs, known⟩ r₁ w₁ ⟨⟨st, rfl⟩, ⟨_, _, ho, hs⟩ | ⟨e, ho, -⟩⟩
    · cases ho
      dsimp only
      split
      · rename_i hvs
        refine traced_modify _ ?_
        rw [List.append_nil]
        exact .short hh hs hvs st
      · rename_i hvs
        exact (traced_process hc vs known).mono fun log' o r' hp =>
          .processed hh hs (Nat.le_of_not_lt hvs) hp
    · cases ho
  · rintro log e r₁ ⟨-, ⟨vs, known, ho, -⟩ | ⟨e', ho, hs⟩⟩
    · cases ho
    · obtain rfl := Except.error.inj ho
      exact .unselected hmode hh hs r₁

theorem traced_single (hm : cfg.mode = .single) :
    Traced c (single c cfg) r w (Conducts c cfg s r) := by
  have hrest : ∀ (x : Call) (v : Commit) (w₁ : σ × Diagnostics), Dates x v → Traced c (do
      let g ← within .parse (asked (.unparsed cfg.project.path) (c.parse v))
      modify fun r => { r with commits := r.commits ++ [v] }
      finish c (g.stamp v.id) [⟨"V0", v⟩]) r w₁ fun log o r' =>
        Conducts c cfg s r (x :: log) o r' := by
    intro x v w₁ hx
    refine Traced.stage_bind (x := .parse v) (fun _ => rfl) ?_
      fun reasons st => .unparsed hm hx reasons _
    intro g st w₂
    exact (traced_finish (g.stamp v.id) [⟨"V0", v⟩]).mono fun log o r' hf => .snapshot hm hx g hf
  unfold single snapshotCommit
  cases hc : c.history with
  | some h =>
    exact Traced.asked_bind (x := fun a => .ask (.info "HEAD" a)) (fun _ => ⟨h, hc, rfl⟩)
      (fun v w₁ => hrest _ v w₁ (.head v)) fun e => .headless hm e r
  | none =>
    have hnow : Traced c (do return workingTree (← Inquiry.ask c.now)) r w fun log o r' =>
        ∃ t, log = [.now t] ∧ o = .ok (workingTree t) ∧ r' = r :=
      ⟨[.now (c.now w.1).1], .single rfl, _, rfl, rfl, rfl⟩
    refine hnow.bind ?_ ?_
    · rintro log v r₁ w₁ ⟨t, rfl, hv, rfl⟩
      obtain rfl := Except.ok.inj hv
      exact hrest _ _ w₁ (.now t)
    · rintro log e r₁ ⟨t, -, he, -⟩
      cases he

theorem traced_stages : Traced c (stages c cfg) r (s, .empty) (Conducts c cfg s r) := by
  unfold stages
  cases hm : cfg.mode with
  | single => exact traced_single hm
  | evolution => exact traced_evolution hm
  | multiEvolution => exact traced_chain hm

end Pipeline

end Lineage
