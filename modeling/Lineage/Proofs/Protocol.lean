import Lineage.Proofs.Turns
/-! # The protocol of a run

In which order a run calls its collaborators, and which of their failures it answers with, for every
configuration and whatever the collaborators answer. Main statements: `orderly_conducts`,
`exists_protocol`, `protocol_run`.
-/
namespace Lineage.Pipeline

open Call

/-- The calls begin with those that choose the versions. -/
def Chosen {σ : Type} (c : Collaborators σ) (cfg : Config) (s : σ) (log : List Call)
    (vs : List Commit) : Prop :=
  ∃ calls known, Selects c cfg s calls vs known ∧ calls <+: log

/-- No call fails the run. -/
def Unfailing (cfg : Config) (log : List Call) : Prop := ∀ x ∈ log, ∀ e, ¬Fails cfg log x e

/-- What a run answers after its calls: the failure of a stage, else that of restoring, else a
report. -/
inductive Answered {σ : Type} (c : Collaborators σ) (cfg : Config) (s : σ) (log : List Call) :
    Except RunError RunReport → Prop
  | failed {x : Call} {e : RunError} (hx : x ∈ log) (hf : Fails cfg log x e) :
    Answered c cfg s log (.error e)
  | unhistoried (hm : cfg.mode ≠ .single) (hh : c.history = none) (hl : log = []) :
    Answered c cfg s log (.error (.noRepository cfg.mode))
  | unrestored (hf : Unfailing cfg log) {e : RepositoryError}
    (hr : .ask (.restore (.error e)) ∈ log) : Answered c cfg s log (.error (.notRestored e))
  | snapshot (hm : cfg.mode = .single) (hf : Unfailing cfg log)
    {r : RunReport} {v : Commit} (hp : r.pairs = 0) (hv : r.commits = [v]) {x : Export}
    {ex : Exported} (hw : .write x (.ok ex) ∈ log) (he : r.exported = some ex) :
    Answered c cfg s log (.ok r)
  | short (hf : Unfailing cfg log)
    (hr : ∀ e, .ask (.restore (.error e)) ∉ log) {vs : List Commit} (hs : Chosen c cfg s log vs)
    (hvs : vs.length < 2) (hl : ∀ x ∈ log, x.turn? = none ∧ x.isWrite = false) {r : RunReport}
    (hp : r.pairs = 0) (hv : r.commits = vs) (he : r.exported = none) :
    Answered c cfg s log (.ok r)
  | complete (hf : Unfailing cfg log)
    (hr : ∀ e, .ask (.restore (.error e)) ∉ log) {vs : List Commit} (hs : Chosen c cfg s log vs)
    (hvs : 2 ≤ vs.length) (hl : log.filterMap turn? = turns vs) {r : RunReport}
    (hp : r.pairs = vs.length - 1) {x : Export} {ex : Exported} (hw : .write x (.ok ex) ∈ log)
    (he : r.exported = some ex) : Answered c cfg s log (.ok r)

/-- How a run treats its collaborators. -/
structure Protocol {σ : Type} (c : Collaborators σ) (cfg : Config) (s : σ) (log : List Call)
    (answer : Except RunError RunReport) : Prop where
  /-- A run that may check out restores once, as its last call. -/
  restored : cfg.mode ≠ .single → c.history.isSome →
    ∃ work a, log = work ++ [.ask (.restore a)] ∧ ∀ x ∈ work, x.isRestore = false
  /-- A snapshot leaves the working tree alone. -/
  in_place : cfg.mode = .single → ∀ x ∈ log, x.isRestore = false ∧ x.isCheckout = false
  /-- Versions are checked out and parsed in order, if some are chosen. -/
  in_order : cfg.mode ≠ .single →
    ∃ vs, (Chosen c cfg s log vs ∨ vs = []) ∧ log.filterMap turn? <+: turns vs
  parsed_at_once : log.IsChain FollowsUp
  /-- After a failure there is nothing left but to restore. -/
  stopped : log.Pairwise fun x y => ∀ e, Fails cfg log x e → y.isRestore
  answered : Answered c cfg s log answer

section Stages
variable {σ : Type} {c : Collaborators σ} {cfg : Config} {s : σ} {r r' : RunReport}
  {log : List Call} {o : Except RunError Unit}

theorem Selects.quiet {vs : List Commit} {known : Timeline.Detections}
    (h : Selects c cfg s log vs known) :
    ∀ x ∈ log, x.isInquiry = true ∧ x.isFatal cfg.mode = false := by
  cases h with
  | pair hm target parent =>
    intro x hx
    simp only [List.mem_cons, List.not_mem_nil, or_false] at hx
    rcases hx with rfl | rfl
    all_goals exact ⟨rfl, rfl⟩
  | linear hm hs vs =>
    intro x hx
    rw [List.mem_singleton.mp hx]
    exact ⟨rfl, rfl⟩
  | timeline hm hs hh ht he =>
    intro x hx
    obtain ⟨y, hy, rfl⟩ := List.mem_map.mp hx
    have hexplores := he y hy
    rw [hm]
    cases y with
    | info _ answer =>
      cases answer with
      | ok => exact ⟨rfl, rfl⟩
      | error => exact hexplores.elim
    | parent _ answer =>
      cases answer with
      | ok found => cases found <;> exact ⟨rfl, rfl⟩
      | error => exact ⟨rfl, rfl⟩
    | changedFiles | detect => exact ⟨rfl, rfl⟩
    | linear | checkout | restore => exact hexplores.elim

theorem Unselects.quiet {e : RunError} (h : Unselects cfg log e) :
    ∀ x ∈ log, x.isInquiry = true := by
  cases h with
  | target | parent | root | linear => simp [isInquiry]

theorem Unselects.ends {e : RunError} (hm : cfg.mode ≠ .single) (h : Unselects cfg log e) :
    Ends cfg log (.error e : Except RunError Unit) := by
  have hfound : ∀ target : Commit, ∀ x ∈ [Call.ask (.info cfg.evolution.commit (.ok target))],
      x.isFatal cfg.mode = false := by
    intro target x hx
    rw [List.mem_singleton.mp hx]
    rfl
  cases h with
  | target e => exact .of_fails (.unresolved hm _ e)
  | parent hm' target e =>
    exact .badly (l := [_]) rfl (hfound target) (.orphaned hm' target.id e)
  | root hm' target =>
    exact .badly (l := [_]) rfl (hfound target) (.root hm' List.mem_cons_self)
  | linear e => exact .of_fails (.unlisted _ _ e)

/-! ## The whole run -/

/-- What becomes of a run whose stages end well. -/
inductive Accomplished (c : Collaborators σ) (cfg : Config) (s : σ) (log : List Call)
    (r : RunReport) : Prop
  | snapshot (hm : cfg.mode = .single) {v : Commit} (hp : r.pairs = 0) (hv : r.commits = [v])
    {x : Export} {ex : Exported} (hw : .write x (.ok ex) ∈ log) (he : r.exported = some ex)
  | short (hm : cfg.mode ≠ .single) {vs : List Commit} (hs : Chosen c cfg s log vs)
    (hvs : vs.length < 2) (hl : ∀ x ∈ log, x.turn? = none ∧ x.isWrite = false)
    (hp : r.pairs = 0) (hv : r.commits = vs) (he : r.exported = none)
  | complete (hm : cfg.mode ≠ .single) {vs : List Commit} (hs : Chosen c cfg s log vs)
    (hvs : 2 ≤ vs.length) (hl : log.filterMap turn? = turns vs) (hp : r.pairs = vs.length - 1)
    {x : Export} {ex : Exported} (hw : .write x (.ok ex) ∈ log) (he : r.exported = some ex)

/-- How the stages of a run treat its collaborators. -/
structure Orderly (c : Collaborators σ) (cfg : Config) (s : σ) (log : List Call)
    (o : Except RunError Unit) (r : RunReport) : Prop where
  historied : cfg.mode ≠ .single → c.history.isSome
  unrestored : ∀ x ∈ log, x.isRestore = false
  in_place : cfg.mode = .single → ∀ x ∈ log, x.isCheckout = false
  in_order : cfg.mode ≠ .single →
    ∃ vs, (Chosen c cfg s log vs ∨ vs = []) ∧ log.filterMap turn? <+: turns vs
  tidy : Tidy log
  ends : Ends cfg log o
  accomplished : o = .ok () → Accomplished c cfg s log r

theorem Chosen.mono {log' : List Call} {vs : List Commit} (h : Chosen c cfg s log vs)
    (hl : log <+: log') : Chosen c cfg s log' vs := by
  obtain ⟨calls, known, hs, hcalls⟩ := h
  exact ⟨calls, known, hs, hcalls.trans hl⟩

theorem filterMap_turn?_of_quiet (h : ∀ x ∈ log, x.isInquiry = true) : log.filterMap turn? = [] :=
  List.filterMap_eq_nil_iff.mpr fun x hx => (unobtrusive (h x hx)).no_turn

theorem orderly_unselected (hm : cfg.mode ≠ .single) (hh : c.history.isSome) {e : RunError}
    (h : Unselects cfg log e) : Orderly c cfg s log (.error e) r where
  historied _ := hh
  unrestored x hx := (unobtrusive (h.quiet x hx)).not_restore
  in_place hm' := absurd hm' hm
  in_order _ := ⟨[], .inr rfl, by rw [filterMap_turn?_of_quiet h.quiet]; exact List.nil_prefix⟩
  tidy := tidy_of_forall fun x hx => (unobtrusive (h.quiet x hx)).not_checkout
  ends := h.ends hm
  accomplished := nofun

theorem Selects.mode_ne {vs : List Commit} {known : Timeline.Detections}
    (h : Selects c cfg s log vs known) : cfg.mode ≠ .single := by
  cases h with
  | pair hm | linear hm | timeline hm => rw [hm]; nofun

theorem orderly_short (hh : c.history.isSome) {vs : List Commit} {known : Timeline.Detections}
    (h : Selects c cfg s log vs known) (hvs : vs.length < 2) (hp : r.pairs = 0)
    (hv : r.commits = vs) (he : r.exported = none) : Orderly c cfg s log (.ok ()) r where
  historied _ := hh
  unrestored x hx := (unobtrusive (h.quiet x hx).1).not_restore
  in_place hm := absurd hm h.mode_ne
  in_order _ := by
    refine ⟨vs, .inl ⟨log, known, h, List.prefix_refl _⟩, ?_⟩
    rw [filterMap_turn?_of_quiet fun x hx => (h.quiet x hx).1]
    exact List.nil_prefix
  tidy := tidy_of_forall fun x hx => (unobtrusive (h.quiet x hx).1).not_checkout
  ends := .well (fun x hx => (h.quiet x hx).2) ()
  accomplished _ := .short h.mode_ne ⟨log, known, h, List.prefix_refl _⟩ hvs
    (fun x hx => ⟨(unobtrusive (h.quiet x hx).1).no_turn, (unobtrusive (h.quiet x hx).1).not_write⟩)
    hp hv he

theorem Finishes.calls {g : Graph} {versions : List Version} (h : Finishes r g versions log o r') :
    Tidy log ∧ log.filterMap turn? = [] ∧ ∀ x ∈ log, x.isRestore = false ∧ x.isCheckout = false := by
  cases h with
  | failed | written =>
    refine ⟨tidy_of_forall ?_, rfl, ?_⟩
    all_goals simp [isRestore, isCheckout]

structure Completed (cfg : Config) (vs : List Commit) (r : RunReport) (log : List Call)
    (o : Except RunError Unit) (r' : RunReport) : Prop where
  tidy : Tidy log
  unrestored : ∀ x ∈ log, x.isRestore = false
  turns : log.filterMap turn? <+: turns vs
  ends : Ends cfg log o
  written : o = .ok () → log.filterMap turn? = Call.turns vs ∧ r'.pairs = r.pairs + (vs.length - 1) ∧
    ∃ x ex, .write x (.ok ex) ∈ log ∧ r'.exported = some ex

theorem Completes.completed {name : String} {vs : List Commit} {known : Timeline.Detections}
    (hm : cfg.mode ≠ .single) (h : Completes name known vs r log o r') :
    Completed cfg vs r log o r' := by
  cases h with
  | stopped h =>
    refine ⟨h.tidy.1, fun x hx => (h.tidy.2 x hx).1, h.turns.1, ?_, nofun⟩
    cases h.ends hm with
    | badly hl hpre hf => exact .badly hl hpre hf
  | @finished log₁ log₂ p o st r' h hf =>
    have hturns := h.turns.2 p rfl
    have hall : (log₁ ++ log₂).filterMap turn? = Call.turns vs := by
      rw [List.filterMap_append, hturns, hf.calls.2.1, List.append_nil]
    refine ⟨h.tidy.1.append hf.calls.1, ?_, ?_, hf.ends.append (h.ends hm).not_fatal, ?_⟩
    · intro x hx
      rcases List.mem_append.mp hx with hx | hx
      · exact (h.tidy.2 x hx).1
      · exact (hf.calls.2.2 x hx).1
    · exact ⟨[], by rw [List.append_nil, hall]⟩
    · rintro rfl
      refine ⟨hall, ?_⟩
      cases hf with
      | written ws ex st' => exact ⟨rfl, _, ex, List.mem_append_right _ List.mem_cons_self, rfl⟩

theorem orderly_processed (hh : c.history.isSome) {calls : List Call} {vs : List Commit}
    {known : Timeline.Detections} (h : Selects c cfg s calls vs known) (hvs : 2 ≤ vs.length) (hp : r.pairs = 0)
    (hc : Completes c.detector.name known vs r log o r') :
    Orderly c cfg s (calls ++ log) o r' := by
  have hm := h.mode_ne
  have hdone := hc.completed hm
  have hchosen : Chosen c cfg s (calls ++ log) vs := ⟨calls, known, h, List.prefix_append _ _⟩
  have hturns : (calls ++ log).filterMap turn? = log.filterMap turn? := by
    rw [List.filterMap_append, filterMap_turn?_of_quiet fun x hx => (h.quiet x hx).1,
      List.nil_append]
  refine ⟨fun _ => hh, ?_, fun hm' => absurd hm' hm, ?_, ?_,
    hdone.ends.append fun x hx => (h.quiet x hx).2, ?_⟩
  · intro x hx
    rcases List.mem_append.mp hx with hx | hx
    · exact (unobtrusive (h.quiet x hx).1).not_restore
    · exact hdone.unrestored x hx
  · intro _
    rw [hturns]
    exact ⟨vs, .inl hchosen, hdone.turns⟩
  · exact (tidy_of_forall fun x hx => (unobtrusive (h.quiet x hx).1).not_checkout).append hdone.tidy
  · intro ho
    obtain ⟨hall, hpairs, x, ex, hw, he⟩ := hdone.written ho
    rw [hp, Nat.zero_add] at hpairs
    exact .complete hm hchosen hvs (hturns.trans hall) hpairs (List.mem_append_right _ hw) he

theorem Dates.quiet {x : Call} {v : Commit} (h : Dates x v) (mode : Mode) :
    x.isInquiry = true ∧ x.isFatal mode = false := by
  cases h with
  | head | now => exact ⟨rfl, rfl⟩

theorem Dates.in_place {x : Call} {v : Commit} (h : Dates x v)
    (a : Except (List String) Graph) :
    ∀ y ∈ [x, .parse v a], y.isRestore = false ∧ y.isCheckout = false := by
  cases h with
  | head | now => simp [isRestore, isCheckout]

theorem orderly_single (hm : cfg.mode = .single)
    (hlog : ∀ x ∈ log, x.isRestore = false ∧ x.isCheckout = false) (hends : Ends cfg log o)
    (ho : o = .ok () → Accomplished c cfg s log r) : Orderly c cfg s log o r where
  historied hm' := absurd hm hm'
  unrestored x hx := (hlog x hx).1
  in_place _ x hx := (hlog x hx).2
  in_order hm' := absurd hm hm'
  tidy := tidy_of_forall fun x hx => (hlog x hx).2
  ends := hends
  accomplished := ho

/-- In every mode the calls are in order; without a repository there may be none. -/
theorem orderly_conducts (hr : r.pairs = 0 ∧ r.commits = [] ∧ r.exported = none)
    (h : Conducts c cfg s r log o r') :
    (cfg.mode ≠ .single ∧ c.history = none ∧ log = [] ∧ o = .error (.noRepository cfg.mode)) ∨
      Orderly c cfg s log o r' := by
  cases h with
  | unhistoried hm hh r' => exact .inl ⟨hm, hh, rfl, rfl⟩
  | unselected hm hh hs r' => exact .inr (orderly_unselected hm hh hs)
  | short hh hs hvs st => exact .inr (orderly_short hh hs hvs hr.1 rfl hr.2.2)
  | processed hh hs hvs hc => exact .inr (orderly_processed hh hs hvs (by exact hr.1) hc)
  | headless hm e r' =>
    refine .inr (orderly_single hm ?_ (.of_fails (.headless hm _ e)) nofun)
    simp [isRestore, isCheckout]
  | @unparsed hm x v hx reasons r' =>
    refine .inr (orderly_single hm (hx.in_place _) ?_ nofun)
    refine .badly (l := [x]) rfl ?_ (.unparsed hm v reasons)
    intro y hy
    rw [List.mem_singleton.mp hy]
    exact (hx.quiet cfg.mode).2
  | @snapshot hm x v hx g st log o r' hf =>
    have hparsed : ∀ y ∈ [x, .parse v (.ok g)], y.isFatal cfg.mode = false := by
      intro y hy
      simp only [List.mem_cons, List.not_mem_nil, or_false] at hy
      rcases hy with rfl | rfl
      · exact (hx.quiet cfg.mode).2
      · rfl
    refine .inr (orderly_single hm ?_ (Ends.append hparsed hf.ends) ?_)
    · intro y hy
      rcases List.mem_append.mp (show y ∈ [x, .parse v (.ok g)] ++ log from hy) with hy | hy
      · exact hx.in_place _ y hy
      · exact hf.calls.2.2 y hy
    · rintro rfl
      cases hf with
      | written ws ex st' =>
        refine .snapshot (v := v) hm hr.1 ?_ (List.mem_cons_of_mem _ (List.mem_cons_of_mem _
          List.mem_cons_self)) rfl
        simp [hr.2.1]

theorem Ends.stopped (h : Ends cfg log o) (calls : List Call) :
    log.Pairwise fun x y => ∀ e, Fails cfg calls x e → y.isRestore := by
  have hall : ∀ {l : List Call}, (∀ x ∈ l, x.isFatal cfg.mode = false) →
      ∀ x ∈ l, ∀ (y : Call) e, Fails cfg calls x e → y.isRestore := by
    intro l hl x hx y e hf
    exact absurd hf (not_fails (hl x hx))
  cases h with
  | well h _ => exact List.pairwise_of_forall_mem_list fun x hx y _ => hall h x hx y
  | badly hl hpre hf =>
    rw [hl, List.pairwise_append]
    refine ⟨List.pairwise_of_forall_mem_list fun x hx y _ => hall hpre x hx y,
      List.pairwise_singleton _ _, fun x hx y _ => hall hpre x hx y⟩

def answer (o : Except RunError Unit) (ending : Except RepositoryError Unit) (r : RunReport) :
    Except RunError RunReport :=
  match o, ending with
  | .error e, _ => .error e
  | .ok (), .error e => .error (.notRestored e)
  | .ok (), .ok () => .ok r

theorem filterMap_turn?_append_restore (log : List Call) (a : Except RepositoryError Unit) :
    (log ++ [ask (.restore a)]).filterMap turn? = log.filterMap turn? := by
  rw [List.filterMap_append]
  exact List.append_nil _

theorem Orderly.answered_restored (hm : cfg.mode ≠ .single) (h : Orderly c cfg s log o r)
    (a : Except RepositoryError Unit) (ws : Diagnostics) :
    Answered c cfg s (log ++ [.ask (.restore a)]) (answer o a { r with diagnostics := ws }) := by
  have hprefix : log <+: log ++ [ask (.restore a)] := List.prefix_append _ _
  obtain ⟨hends⟩ | ⟨hl, -, hf⟩ := h.ends
  · have hunfailing : Unfailing cfg (log ++ [ask (.restore a)]) := by
      intro x hx e
      rcases List.mem_append.mp hx with hx | hx
      · exact not_fails (hends x hx)
      · rw [List.mem_singleton.mp hx]
        exact not_fails rfl
    cases a with
    | error e => exact .unrestored hunfailing (List.mem_append_right _ List.mem_cons_self)
    | ok _ =>
      have hr : ∀ e, Call.ask (.restore (.error e)) ∉ log ++ [Call.ask (.restore (.ok ()))] := by
        intro e he
        rcases List.mem_append.mp he with he | he
        · cases h.unrestored _ he
        · cases List.mem_singleton.mp he
      cases h.accomplished rfl with
      | snapshot hm' => exact absurd hm' hm
      | short _ hs hvs hl hp hv he =>
        refine .short hunfailing hr (hs.mono hprefix) hvs ?_ hp hv he
        intro x hx
        rcases List.mem_append.mp hx with hx | hx
        · exact hl x hx
        · rw [List.mem_singleton.mp hx]
          exact ⟨rfl, rfl⟩
      | complete _ hs hvs hl hp hw he =>
        exact .complete hunfailing hr (hs.mono hprefix) hvs
          ((filterMap_turn?_append_restore log _).trans hl) hp (List.mem_append_left _ hw) he
  · refine .failed (x := _) ?_ (hf.mono (List.subset_append_left _ _))
    rw [hl]
    simp

theorem protocol_restored (hm : cfg.mode ≠ .single) (h : Orderly c cfg s log o r)
    (a : Except RepositoryError Unit) (ws : Diagnostics) :
    Protocol c cfg s (log ++ [.ask (.restore a)]) (answer o a { r with diagnostics := ws }) := by
  refine ⟨fun _ _ => ⟨log, a, rfl, h.unrestored⟩, fun hm' => absurd hm' hm, ?_, ?_, ?_,
    h.answered_restored hm a ws⟩
  · intro _
    obtain ⟨vs, hvs, hle⟩ := h.in_order hm
    refine ⟨vs, hvs.imp_left fun hs => hs.mono (List.prefix_append _ _), ?_⟩
    rw [filterMap_turn?_append_restore]
    exact hle
  · exact (h.tidy.append (tidy_of_forall (by simp [isCheckout]))).chain
  · refine List.pairwise_append.mpr ⟨h.ends.stopped _, List.pairwise_singleton _ _, ?_⟩
    intro x _ y hy _ _
    rw [List.mem_singleton.mp hy]
    rfl

theorem protocol_unrestored (hm : cfg.mode = .single) (h : Orderly c cfg s log o r)
    (ws : Diagnostics) : Protocol c cfg s log (answer o (.ok ()) { r with diagnostics := ws }) := by
  refine ⟨fun hm' => absurd hm hm', fun _ x hx => ⟨h.unrestored x hx, h.in_place hm x hx⟩,
    fun hm' => absurd hm hm', h.tidy.chain, h.ends.stopped _, ?_⟩
  obtain ⟨hends⟩ | ⟨hl, -, hf⟩ := h.ends
  · cases h.accomplished rfl with
    | snapshot _ hp hv hw he => exact .snapshot hm (fun x hx _ => not_fails (hends x hx)) hp hv hw he
    | short hm' => exact absurd hm hm'
    | complete hm' => exact absurd hm hm'
  · refine .failed (x := _) ?_ hf
    rw [hl]
    simp

/-- A run with the given work for its stages. -/
def runOf (c : Collaborators σ) (cfg : Config) (project : String) (work : Run σ Unit) :
    StateM σ (Except RunError RunReport) := fun s =>
  let ended := work.eval { mode := cfg.mode, project } (s, .empty)
  let ending := restored c cfg.mode ended.2.1
  (answer ended.1.1 ending.1 { ended.1.2 with diagnostics := ended.2.2 }, ending.2)

theorem run_eq (c : Collaborators σ) (cfg : Config) (project : String) (s : σ) :
    run c cfg project s = runOf c cfg project (stages c cfg) s := by
  have heval : (stages c cfg).eval { mode := cfg.mode, project } (s, .empty) =
      Inquiry.run ((stages c cfg).run.run { mode := cfg.mode, project }) s := rfl
  unfold runOf
  rw [heval]
  unfold run
  rcases Inquiry.run ((stages c cfg).run.run { mode := cfg.mode, project }) s with
    ⟨⟨o, report⟩, world, ws⟩
  dsimp only
  rcases restored c cfg.mode world with ⟨ending, world'⟩
  cases o <;> cases ending <;> rfl

/-- A run without a repository where one is needed calls nobody. -/
theorem protocol_unhistoried (hm : cfg.mode ≠ .single) (hh : c.history = none) :
    Protocol c cfg s [] (.error (.noRepository cfg.mode)) where
  restored _ hh' := by
    rw [hh] at hh'
    cases hh'
  in_place hm' := absurd hm' hm
  in_order _ := ⟨[], .inr rfl, List.prefix_refl _⟩
  parsed_at_once := .nil
  stopped := .nil
  answered := .unhistoried hm hh rfl

/-- What is left to do after the stages: versions that may be checked out call for restoring. -/
inductive Restores (c : Collaborators σ) (cfg : Config) (log : List Call) :
    List Call → Except RepositoryError Unit → Prop
  | needless (h : cfg.mode = .single ∨ c.history = none) : Restores c cfg log log (.ok ())
  | last (hm : cfg.mode ≠ .single) (hh : c.history.isSome) (a : Except RepositoryError Unit) :
    Restores c cfg log (log ++ [.ask (.restore a)]) a

/-- A run is what its work does, and restoring. -/
theorem exists_ended {work : Run σ Unit} {project : String}
    {P : List Call → Except RunError Unit → RunReport → Prop}
    (hw : Traced c work { mode := cfg.mode, project } (s, .empty) P) :
    ∃ log log' o r a ws, P log o r ∧ Restores c cfg log log' a ∧
      Trace c s log' (runOf c cfg project work s).2 ∧
      (runOf c cfg project work s).1 = answer o a { r with diagnostics := ws } := by
  obtain ⟨log, hlog, hp⟩ := hw
  unfold runOf
  revert hlog hp
  rcases work.eval { mode := cfg.mode, project } (s, .empty) with ⟨⟨o, r⟩, world, ws⟩
  intro hlog hp
  dsimp only
  by_cases hneedless : cfg.mode = .single ∨ c.history = none
  · have hending : restored c cfg.mode world = (.ok (), world) := by
      unfold restored
      rcases hneedless with h | h
      · rw [h]
        rfl
      · rw [h]
        cases cfg.mode <;> rfl
    exact ⟨log, log, o, r, .ok (), ws, hp, .needless hneedless, by rw [hending]; exact hlog,
      by rw [hending]⟩
  · obtain ⟨hm, hh⟩ := not_or.mp hneedless
    obtain ⟨history, hh⟩ := Option.ne_none_iff_exists'.mp hh
    have hending : restored c cfg.mode world = history.restore world := by
      unfold restored
      rw [hh]
      cases hmode : cfg.mode with
      | single => exact absurd hmode hm
      | evolution | multiEvolution => rfl
    have hrestore : (ask (.restore (history.restore world).1)).Occurs c world
        (history.restore world).2 := ⟨history, hh, rfl⟩
    exact ⟨log, _, o, r, (history.restore world).1, ws, hp, .last hm (by rw [hh]; rfl) _,
      by rw [hending]; exact hlog.append (.single hrestore), by rw [hending]⟩

/-- Every run keeps to the protocol: for every configuration and whatever its collaborators answer. -/
theorem exists_protocol (c : Collaborators σ) (cfg : Config) (project : String) (s : σ) :
    ∃ log, Trace c s log (run c cfg project s).2 ∧
      Protocol c cfg s log (run c cfg project s).1 := by
  have hstages : Traced c (stages c cfg) { mode := cfg.mode, project } (s, .empty)
    (Conducts c cfg s { mode := cfg.mode, project }) := traced_stages
  rw [run_eq]
  obtain ⟨log, log', o, r, a, ws, hconducts, hrestores, htrace, hanswer⟩ := exists_ended hstages
  rw [hanswer]
  refine ⟨log', htrace, ?_⟩
  rcases orderly_conducts ⟨rfl, rfl, rfl⟩ hconducts with ⟨hm, hh, rfl, rfl⟩ | h
  · cases hrestores with
    | needless => exact protocol_unhistoried hm hh
    | last hm' hh' a =>
      rw [hh] at hh'
      cases hh'
  · cases hrestores with
    | last hm hh a => exact protocol_restored hm h a ws
    | needless hn =>
      by_cases hm : cfg.mode = .single
      · exact protocol_unrestored hm h ws
      · have hsome := h.historied hm
        rw [hn.resolve_left hm] at hsome
        cases hsome

theorem protocol_run (c : Collaborators σ) (cfg : Config) (project : String) (s : σ) :
    Protocol c.recording cfg (s, []) (run c.recording cfg project (s, [])).2.2
      (run c.recording cfg project (s, [])).1 := by
  obtain ⟨log, htrace, h⟩ := exists_protocol c.recording cfg project (s, [])
  rw [htrace.recorded]
  exact h

end Stages

end Lineage.Pipeline
