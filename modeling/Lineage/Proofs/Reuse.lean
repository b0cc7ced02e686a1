import Lineage.Proofs.Graph
import Lineage.Proofs.Protocol
import Lineage.Proofs.Replay
import Mathlib.Data.List.TakeWhile
/-! # Runs that use what their timeline knows

A run that follows the refactorings of its target detects once while it looks for versions, and need
not detect again between neighbours in the history. Beside it stands the run that forgets what it
found and compares all its versions afresh: both hand over the same and report the same. Main
statements: `exists_concluded`, `reuse_run`.
-/
namespace Lineage

open Refactoring (Detector)

variable {σ : Type}

/-! ## What a timeline spares -/

namespace Timeline

open Pipeline (Truthful Unknown consecutive unserved)

section Known
variable {h : History σ} {d : Detector σ} {t : Timeline}
  (hr : ∀ e ∈ t.entries, e.Remembers h d)
include hr

theorem truthful_detections (hd : d.Steady) : Truthful d t.detections := by
  intro older newer ops hops s
  obtain ⟨e, he, ⟨hparent, hid⟩, rfl⟩ := mem_of_lookup_detections hops
  obtain ⟨p, -, hp, hdetected⟩ := hr e he
  have hpid : p.id = older.id := Option.some.inj (hp.symm.trans hparent)
  rw [hdetected s, hd p e.commit older newer s s hpid hid]

/-- Something is known of a commit of the timeline and its first parent only. -/
theorem unknown_iff (s : σ) {a b : TimelineEntry} (hb : b ∈ t.entries) :
    Unknown t.detections (a.commit, b.commit) ↔ b.parent ≠ some a.commit.id := by
  have hknown : (t.detections.lookup (a.commit.id, b.commit.id)).isSome ↔
      b.parent = some a.commit.id := by
    rw [isSome_lookup_detections_iff]
    constructor
    · rintro ⟨e, he, hparent, hid⟩
      obtain ⟨p, hp, hpe, -⟩ := hr e he
      obtain ⟨q, hq, hqb, -⟩ := hr b hb
      have hpq : p = q := by
        have hsame := hp s
        rw [show e.commit.id = b.commit.id from hid, hq s] at hsame
        exact (Option.some.inj (Except.ok.inj hsame)).symm
      rw [hqb, ← hpq, ← hpe, hparent]
    · exact fun hparent => ⟨b, hb, hparent, rfl⟩
  rw [Ne, ← hknown, Option.isSome_iff_ne_none, not_not]
  rfl

end Known

/-- Neighbours in the timeline that are not neighbours in the history. -/
def skips (t : Timeline) : List (Commit × Commit) :=
  ((consecutive t.entries).filter fun x => x.2.parent ≠ some x.1.commit.id).map
    (Prod.map (·.commit) (·.commit))

theorem consecutive_commits (t : Timeline) :
    consecutive t.commits = (consecutive t.entries).map (Prod.map (·.commit) (·.commit)) := by
  rw [consecutive, commits, ← List.map_tail, List.zip_map]
  rfl

theorem consecutive_commits_of_short {t : Timeline} (ht : ¬2 ≤ t.entries.length) :
    consecutive t.commits = [] ∧ t.skips = [] := by
  have hnone : consecutive t.entries = [] := by
    unfold consecutive
    match hes : t.entries with
    | [] | [_] => rfl
    | _ :: _ :: _ =>
      rw [hes] at ht
      exact absurd (Nat.le_add_left 2 _) ht
  rw [consecutive_commits, skips, hnone]
  exact ⟨rfl, rfl⟩

theorem filter_unknown_eq_skips {h : History σ} {d : Detector σ} {t : Timeline} (s : σ)
    (hr : ∀ e ∈ t.entries, e.Remembers h d) :
    (consecutive t.commits).filter (Unknown t.detections ·) = t.skips := by
  rw [consecutive_commits, List.filter_map, skips]
  congr 1
  refine List.filter_congr fun x hx => ?_
  have hmem : x.2 ∈ t.entries := List.mem_of_mem_tail (List.of_mem_zip hx).2
  exact decide_eq_decide.mpr (unknown_iff hr s hmem)

/-- Where no commit descends from itself, no two commits of a timeline have the same id. -/
theorem nodup_consecutive {h : History σ} {t : Timeline} (ha : h.Acyclic)
    (hd : t.entries.Pairwise fun a b => h.Descends a.commit.id b.commit.id) :
    ((consecutive t.commits).map fun x => (x.1.id, x.2.id)).Nodup := by
  have hids : (t.commits.map (·.id)).Nodup := by
    rw [commits, List.map_map]
    refine List.pairwise_map.mpr (hd.imp fun {a b} hab he => ?_)
    rw [show a.commit.id = b.commit.id from he] at hab
    exact ha _ hab
  refine List.Nodup.of_map Prod.snd ?_
  have hsnd : ((consecutive t.commits).map fun x => (x.1.id, x.2.id)).map Prod.snd =
      t.commits.tail.map (·.id) :=
    calc ((consecutive t.commits).map fun x => (x.1.id, x.2.id)).map Prod.snd
        = ((consecutive t.commits).map Prod.snd).map (·.id) := by
          rw [List.map_map, List.map_map]
          rfl
      _ = t.commits.tail.map (·.id) := by rw [consecutive, List.map_snd_zip (by simp)]
  rw [hsnd]
  exact hids.sublist ((List.tail_sublist _).map _)

end Timeline

/-! ## The calls that detect versions -/

namespace Call

def handed? : Call → Option Export
  | write e _ => some { e with diagnostics := .empty }
  | _ => none

theorem handed?_eq_none {x : Call} (h : x.isWrite = false) : x.handed? = none := by
  cases x with
  | write => cases h
  | ask | parse | now => rfl

theorem filterMap_handed? {log : List Call} (h : ∀ x ∈ log, x.isWrite = false) :
    log.filterMap handed? = [] :=
  List.filterMap_eq_nil_iff.mpr fun x hx => handed?_eq_none (h x hx)

/-- The pairs that are compared once versions are checked out. -/
def detects (log : List Call) : List (Commit × Commit) :=
  (log.dropWhile fun x => !x.isCheckout).filterMap detect?

section Detects
variable {log log' : List Call}

theorem detects_eq_nil (h : ∀ x ∈ log, x.isCheckout = false) : detects log = [] := by
  rw [detects, List.dropWhile_eq_nil_iff.mpr fun x hx => by rw [h x hx]; rfl]
  rfl

theorem detects_append (h : ∀ x ∈ log, x.isCheckout = false) :
    detects (log ++ log') = detects log' := by
  rw [detects, List.dropWhile_append_of_pos fun x hx => by rw [h x hx]; rfl]
  rfl

theorem detects_append_restore (a : Except RepositoryError Unit) :
    detects (log ++ [ask (.restore a)]) = detects log := by
  unfold detects
  rw [List.dropWhile_append]
  split
  · rename_i hnone
    rw [List.isEmpty_iff.mp hnone]
    rfl
  · rw [List.filterMap_append]
    exact List.append_nil _

end Detects

/-- The pairs are compared in order, all of them if the calls get to the export. -/
structure Compares (log : List Call) (ps : List (Commit × Commit)) : Prop where
  in_order : detects log <+: ps
  all : (∃ x ∈ log, x.isWrite) → detects log = ps

section Compares
variable {log log' : List Call} {ps : List (Commit × Commit)}

theorem compares_of_inquiries (h : ∀ x ∈ log, x.isInquiry = true) : Compares log ps where
  in_order := by
    rw [detects_eq_nil fun x hx => (unobtrusive (h x hx)).not_checkout]
    exact List.nil_prefix
  all := by
    rintro ⟨x, hx, hw⟩
    rw [(unobtrusive (h x hx)).not_write] at hw
    cases hw

theorem Compares.append (h : Compares log' ps) (hlog : ∀ x ∈ log, x.isInquiry = true) :
    Compares (log ++ log') ps := by
  have hdetects : detects (log ++ log') = detects log' :=
    detects_append fun x hx => (unobtrusive (hlog x hx)).not_checkout
  refine ⟨by rw [hdetects]; exact h.in_order, ?_⟩
  rintro ⟨x, hx, hw⟩
  rw [hdetects]
  rcases List.mem_append.mp hx with hx | hx
  · rw [(unobtrusive (hlog x hx)).not_write] at hw
    cases hw
  · exact h.all ⟨x, hx, hw⟩

theorem Compares.append_restore (h : Compares log ps) (a : Except RepositoryError Unit) :
    Compares (log ++ [ask (.restore a)]) ps := by
  refine ⟨by rw [detects_append_restore]; exact h.in_order, ?_⟩
  rintro ⟨x, hx, hw⟩
  rw [detects_append_restore]
  rcases List.mem_append.mp hx with hx | hx
  · exact h.all ⟨x, hx, hw⟩
  · rw [List.mem_singleton.mp hx] at hw
    cases hw

end Compares

end Call

def RunReport.result (r : RunReport) : RunReport :=
  { r with diagnostics := .empty, stages := [], exported := none }

/-- Whether a run fails for its export, or for the working tree, when all its work is done. -/
def RunError.isLate : RunError → Bool
  | .unwritten _ | .notRestored _ => true
  | _ => false

namespace Pipeline

open Call

section Completes
variable {name : String} {known : Timeline.Detections} {vs : List Commit} {r r' : RunReport}
  {log : List Call}

theorem Processes.exists_checkout {p : Progress} {v : Commit} {o : Except RunError Progress}
    (h : Processes name p (v :: vs) log o) : ∃ a rest, log = .ask (.checkout v.id a) :: rest := by
  cases h with
  | stopped h =>
    cases h with
    | refused | unparsed => exact ⟨_, _, rfl⟩
  | next h hrest =>
    cases h with
    | first | next => exact ⟨_, _, rfl⟩

/-- Work on chosen versions compares the pairs that nothing is known of. -/
theorem Completes.compares {o : Except RunError Unit} (h : Completes name known vs r log o r')
    (hvs : vs ≠ []) : Compares log (unserved known (consecutive vs)) := by
  obtain ⟨v, vs, rfl⟩ := List.exists_cons_of_ne_nil hvs
  cases h with
  | stopped h =>
    obtain ⟨a, rest, hlog⟩ := h.exists_checkout
    have hdetects : detects log = log.filterMap detect? := by
      rw [hlog]
      rfl
    refine ⟨by rw [hdetects]; exact h.detects.1, ?_⟩
    rintro ⟨x, hx, hw⟩
    rw [(h.tidy.2 x hx).2] at hw
    cases hw
  | @finished log₁ log₂ p o st r' h hf =>
    obtain ⟨a, rest, hlog⟩ := h.exists_checkout
    have hfinal : log₂.filterMap detect? = [] := by
      cases hf with
      | failed | written => rfl
    have hdetects : detects (log₁ ++ log₂) = unserved known (consecutive (v :: vs)) := by
      have hall : detects (log₁ ++ log₂) = (log₁ ++ log₂).filterMap detect? := by
        rw [hlog]
        rfl
      rw [hall, List.filterMap_append, hfinal, List.append_nil]
      exact h.detects.2 p rfl
    rw [← hdetects]
    exact ⟨List.prefix_refl _, fun _ => rfl⟩

end Completes

/-! ## What a run comes to -/

def outcome (c : Collaborators σ) (h : History σ) (s : σ) (r : RunReport) (vs : List Commit) :
    Except RunError (Option Export × RunReport) :=
  if vs.length < 2 then .ok (none, RunReport.result { r with commits := vs })
  else (replay c h s (none, .empty) vs).map fun x =>
    (some ⟨r.project, x.2.graph, versionsOf x.2, .empty⟩, RunReport.result { r with
      pairs := r.pairs + (vs.length - 1)
      commits := x.2.commits
      statistics := .ofGraph x.2.graph
      counts := .ofStatuses (x.2.graph.nodes.filterMap (·.status)) })

/-- Stages come to a failure, or to a result and what is handed over, if it can be written. -/
inductive Concludes : Except RunError (Option Export × RunReport) → List Call →
    Except RunError Unit → RunReport → Prop
  | failed {log : List Call} (hw : log.filterMap handed? = []) (e : RunError) (r : RunReport) :
    Concludes (.error e) log (.error e) r
  | unwritten {log : List Call} {x : Export} (hw : log.filterMap handed? = [x])
    (result : RunReport) (e : Export.Failure) (r : RunReport) :
    Concludes (.ok (some x, result)) log (.error (.unwritten e)) r
  | ended {log : List Call} {x : Option Export} (hw : log.filterMap handed? = x.toList)
    {result r : RunReport} (hr : r.result = result) : Concludes (.ok (x, result)) log (.ok ()) r

theorem Finishes.handed {r r' : RunReport} {g : Graph} {versions : List Version} {log : List Call}
    {o : Except RunError Unit} (h : Finishes r g versions log o r') :
    log.filterMap handed? = [⟨r.project, g, versions, .empty⟩] := by
  cases h with
  | failed | written => rfl

theorem Concludes.congr {y : Except RunError (Option Export × RunReport)} {log log' : List Call}
    {o : Except RunError Unit} {r : RunReport} (h : Concludes y log o r)
    (hlog : log'.filterMap handed? = log.filterMap handed?) : Concludes y log' o r := by
  cases h with
  | failed hw e => exact .failed (hlog.trans hw) e r
  | unwritten hw result e => exact .unwritten (hlog.trans hw) result e r
  | ended hw hr => exact .ended (hlog.trans hw) hr

theorem Concludes.append {y : Except RunError (Option Export × RunReport)} {log log' : List Call}
    {o : Except RunError Unit} {r : RunReport} (h : Concludes y log' o r)
    (hlog : ∀ x ∈ log, x.isInquiry = true) : Concludes y (log ++ log') o r := by
  refine h.congr ?_
  rw [List.filterMap_append, filterMap_handed? fun x hx => (unobtrusive (hlog x hx)).not_write]
  rfl

section Concludes
variable {c : Collaborators σ} {h : History σ} {known : Timeline.Detections} {vs : List Commit}
  {r r' : RunReport} {log : List Call} {o : Except RunError Unit}

/-- Chosen versions come to what they come to if they are compared afresh. -/
theorem Completes.concludes (hcompletes : Completes c.detector.name known vs r log o r')
    (hc : c.history = some h) (hs : c.Steady) (s : σ) (hlog : ∀ x ∈ log, ∃ w w', x.Occurs c w w')
    (hvs : ¬vs.length < 2) (hknown : Truthful c.detector known) :
    Concludes (outcome c h s r vs) log o r' := by
  rw [outcome, if_neg hvs]
  cases hcompletes with
  | stopped hp r' =>
    have hreplay : _ = replay c h s (none, .empty) vs := hp.eq_replay hc hs s hlog hknown
    rw [← hreplay]
    exact .failed (filterMap_handed? fun x hx => (hp.tidy.2 x hx).2) _ r'
  | @finished log₁ log₂ p o st r' hp hf =>
    have hreplay : _ = replay c h s (none, .empty) vs :=
      hp.eq_replay hc hs s (fun x hx => hlog x (List.mem_append_left _ hx)) hknown
    have hhanded : (log₁ ++ log₂).filterMap handed? =
        [⟨r.project, p.aggregate.graph, versionsOf p.aggregate, .empty⟩] := by
      rw [List.filterMap_append, filterMap_handed? fun x hx => (hp.tidy.2 x hx).2]
      exact hf.handed
    rw [← hreplay]
    cases hf with
    | failed ws e r' => exact .unwritten hhanded _ e r'
    | written ws ex st' => exact .ended (x := some _) hhanded rfl

end Concludes

/-! ## Two runs of the same outcome -/

/-- Two runs hand over the same but for the warnings; the reports agree if there are two, and failures
to get to the end of the work are the same. -/
structure Alike (log log' : List Call) (answer answer' : Except RunError RunReport) : Prop where
  handed : log.filterMap handed? = log'.filterMap handed?
  reported : ∀ r r', answer = .ok r → answer' = .ok r' → r.result = r'.result
  failed : ∀ e, e.isLate = false → (answer = .error e ↔ answer' = .error e)

section Alike
variable {log log' : List Call} {o o' : Except RunError Unit} {r r' : RunReport}
  {x : Option Export} {result : RunReport} {a : Except RepositoryError Unit} {ws : Diagnostics}

theorem Concludes.handed (h : Concludes (.ok (x, result)) log o r) :
    log.filterMap handed? = x.toList := by
  cases h with
  | unwritten hw | ended hw => exact hw

theorem Concludes.reported (h : Concludes (.ok (x, result)) log o r)
    (hr : answer o a { r with diagnostics := ws } = .ok r') : r'.result = result := by
  cases h with
  | unwritten => cases hr
  | ended _ hresult =>
    cases a with
    | error => cases hr
    | ok =>
      obtain rfl := Except.ok.inj hr
      exact hresult

theorem Concludes.not_failed (h : Concludes (.ok (x, result)) log o r) {e : RunError}
    (he : e.isLate = false) : answer o a r' ≠ .error e := by
  rintro hr
  cases h with
  | unwritten =>
    obtain rfl := Except.error.inj hr
    cases he
  | ended =>
    cases a with
    | error =>
      obtain rfl := Except.error.inj hr
      cases he
    | ok => cases hr

theorem Concludes.alike {y : Except RunError (Option Export × RunReport)}
    {a' : Except RepositoryError Unit} {ws' : Diagnostics} (h : Concludes y log o r)
    (h' : Concludes y log' o' r') : Alike log log' (answer o a { r with diagnostics := ws })
      (answer o' a' { r' with diagnostics := ws' }) := by
  match y with
  | .error e =>
    cases h with | failed hw =>
    cases h' with | failed hw' =>
    exact ⟨hw.trans hw'.symm, nofun, fun e _ => Iff.rfl⟩
  | .ok (x, result) =>
    refine ⟨h.handed.trans h'.handed.symm, fun r₁ r₂ hr₁ hr₂ => ?_, fun e he => ?_⟩
    · exact (h.reported hr₁).trans (h'.reported hr₂).symm
    · exact iff_of_false (h.not_failed he) (h'.not_failed he)

end Alike

/-! ## Runs by what they know -/

def proceed (c : Collaborators σ) (h : History σ) (vs : List Commit) (known : Timeline.Detections) :
    Run σ Unit :=
  if vs.length < 2 then modify fun r => { r with commits := vs } else process c h vs known

/-- The stages of a run over a chain of versions, with a use for what is known from finding them. -/
def chainBy (c : Collaborators σ) (cfg : Config) (use : Timeline.Detections → Timeline.Detections) :
    Run σ Unit := do
  let h ← requireHistory c cfg.mode
  let (commits, known) ← within .history (chosen c h cfg)
  proceed c h commits (use known)

theorem chain_eq (c : Collaborators σ) (cfg : Config) : chain c cfg = chainBy c cfg id := rfl

/-- A run that forgets what it found while it looked for versions. -/
def runAfresh (c : Collaborators σ) (cfg : Config) (project : String) :
    StateM σ (Except RunError RunReport) := runOf c cfg project (chainBy c cfg fun _ => [])

/-- The timeline that a run finds in the history, from the world `s`. -/
structure Finds (c : Collaborators σ) (cfg : Config) (s : σ) (h : History σ) (t : Timeline) :
    Prop where
  history : h ∈ c.history
  built : (Timeline.build h c.detector (budgetOf cfg) cfg.evolution.commit (s, .empty)).1 = .ok t

section Chain
variable {c : Collaborators σ} {cfg : Config} {s : σ} {h : History σ} {t : Timeline} {r : RunReport}

theorem Finds.remembers (ht : Finds c cfg s h t) (hs : c.Steady) (hlen : 2 ≤ t.entries.length) :
    (∀ e ∈ t.entries, e.Remembers h c.detector) ∧
      t.entries.Pairwise fun a b => h.Descends a.commit.id b.commit.id :=
  Timeline.yields_build hs.detect (hs.parents h ht.history) (budgetOf cfg) cfg.evolution.commit
    (s, .empty) t ht.built hlen

theorem Finds.unique {h' : History σ} {t' : Timeline} (ht : Finds c cfg s h t)
    (ht' : Finds c cfg s h' t') : t = t' := by
  obtain rfl : h = h' := Option.some.inj (ht.history.symm.trans ht'.history)
  exact Except.ok.inj (ht.built.symm.trans ht'.built)

theorem Selects.exists_finds {log : List Call} {vs : List Commit} {known : Timeline.Detections}
    (hselects : Selects c cfg s log vs known) (hm : cfg.mode = .multiEvolution)
    (hr : cfg.timeline.strategy = .refactoringDriven) :
    ∃ h t, Finds c cfg s h t ∧ vs = t.commits ∧ known = t.detections := by
  cases hselects with
  | pair hm' =>
    rw [hm] at hm'
    cases hm'
  | linear _ hs => exact absurd hr hs
  | @timeline _ _ h hh t ht => exact ⟨h, t, ⟨hh, ht⟩, rfl, rfl⟩

/-- Chosen versions come to the same whatever is known of them, if it is true. -/
theorem traced_proceed {vs : List Commit} {known : Timeline.Detections} {w : σ × Diagnostics}
    (hc : c.history = some h) (hs : c.Steady) (s : σ)
    (hknown : 2 ≤ vs.length → Truthful c.detector known) :
    Traced c (proceed c h vs known) r w fun log o r' =>
      Concludes (outcome c h s r vs) log o r' ∧ Compares log (unserved known (consecutive vs)) := by
  unfold proceed
  split
  · rename_i hvs
    refine traced_modify _ ⟨?_, compares_of_inquiries (List.forall_mem_nil _)⟩
    rw [outcome, if_pos hvs]
    exact .ended rfl rfl
  · rename_i hvs
    refine (traced_process hc vs known).occurring.mono ?_
    rintro log o r' ⟨hcompletes, hlog⟩
    refine ⟨hcompletes.concludes hc hs s hlog hvs (hknown (Nat.le_of_not_lt hvs)),
      hcompletes.compares fun hnil => ?_⟩
    rw [hnil] at hvs
    exact hvs Nat.two_pos

theorem exists_concluded (hs : c.Steady) (hm : cfg.mode = .multiEvolution)
    (hr : cfg.timeline.strategy = .refactoringDriven) :
    ∃ x, ∀ use : Timeline.Detections → Timeline.Detections,
      (∀ h t, Finds c cfg s h t → 2 ≤ t.entries.length → Truthful c.detector (use t.detections)) →
      Traced c (chainBy c cfg use) r (s, .empty) fun log o r' => Concludes x log o r' ∧
        ∀ h t, Finds c cfg s h t →
          Compares log (unserved (use t.detections) (consecutive t.commits)) := by
  unfold chainBy requireHistory
  cases hc : c.history with
  | none =>
    refine ⟨.error (.noRepository cfg.mode), fun use _ => ⟨[], .nil _, .failed rfl _ _, ?_⟩⟩
    intro h t ht
    have hh := ht.history
    rw [hc] at hh
    cases hh
  | some h =>
    obtain ⟨pre, o, r₁, ⟨⟨st, rfl⟩, hchosen⟩, hrest⟩ := (traced_choice (r := r) (s := s) hc hm).shared
    rcases hchosen with ⟨vs, known, rfl, hselects⟩ | ⟨e, rfl, hun⟩
    · have hquiet : ∀ x ∈ pre, x.isInquiry = true := fun x hx => (hselects.quiet x hx).1
      obtain ⟨h', t, ht, rfl, rfl⟩ := hselects.exists_finds hm hr
      refine ⟨outcome c h s r t.commits, fun use huse => hrest _ _ ?_ nofun⟩
      rintro _ w ⟨⟩
      have hknown : 2 ≤ t.commits.length → Truthful c.detector (use t.detections) := fun hlen =>
        huse h' t ht (by rwa [Timeline.commits, List.length_map] at hlen)
      refine (traced_proceed hc hs s hknown).mono fun log o r' hp => ⟨hp.1.append hquiet, ?_⟩
      intro h'' t' ht'
      rw [ht'.unique ht]
      exact hp.2.append hquiet
    · have hquiet := hun.quiet
      refine ⟨.error e, fun use _ => hrest _ _ nofun ?_⟩
      rintro _ ⟨⟩
      exact ⟨.failed (filterMap_handed? fun x hx => (unobtrusive (hquiet x hx)).not_write) e _,
        fun _ _ _ => compares_of_inquiries hquiet⟩

/-! ## Both runs side by side -/

/-- Which pairs of versions of its timeline a run compares that uses what it knows, and which one that
forgets it. -/
structure Reuses (h : History σ) (t : Timeline) (log log' : List Call) : Prop where
  reused : Compares log (unserved t.detections (consecutive t.commits))
  afresh : Compares log' (consecutive t.commits)
  /-- Versions that are not neighbours in the history are compared as they are. -/
  skipped : t.skips.Sublist (unserved t.detections (consecutive t.commits))
  /-- Only they are, where no commit descends from itself. -/
  adjacent : h.Acyclic → unserved t.detections (consecutive t.commits) = t.skips

theorem Finds.spares (ht : Finds c cfg s h t) (hs : c.Steady) :
    t.skips.Sublist (unserved t.detections (consecutive t.commits)) ∧
      (h.Acyclic → unserved t.detections (consecutive t.commits) = t.skips) := by
  by_cases hlen : 2 ≤ t.entries.length
  · obtain ⟨hremembers, hdescent⟩ := ht.remembers hs hlen
    rw [← Timeline.filter_unknown_eq_skips s hremembers]
    exact ⟨filter_sublist_unserved, fun ha =>
      unserved_eq_filter (Timeline.nodup_consecutive ha hdescent)⟩
  · obtain ⟨hpairs, hskips⟩ := Timeline.consecutive_commits_of_short hlen
    rw [hpairs, hskips]
    exact ⟨List.nil_sublist _, fun _ => rfl⟩

section Restores
variable {log log' : List Call} {a : Except RepositoryError Unit} (hr : Restores c cfg log log' a)
include hr

theorem Restores.filterMap_handed? : log'.filterMap handed? = log.filterMap handed? := by
  cases hr with
  | needless => rfl
  | last =>
    rw [List.filterMap_append]
    exact List.append_nil _

theorem Restores.compares {ps : List (Commit × Commit)} (h : Compares log ps) : Compares log' ps := by
  cases hr with
  | needless => exact h
  | last => exact h.append_restore a

end Restores

end Chain

/-- With steady collaborators, a run that follows the refactorings of its target comes to the same
whether it uses what it found while it looked for versions, or forgets that and compares every two
consecutive versions. It compares just those that are not neighbours in the history. -/
theorem reuse_run (c : Collaborators σ) (hs : c.Steady) (cfg : Config)
    (hm : cfg.mode = .multiEvolution) (hr : cfg.timeline.strategy = .refactoringDriven)
    (project : String) (s : σ) :
    Alike (run c.recording cfg project (s, [])).2.2 (runAfresh c.recording cfg project (s, [])).2.2
        (run c.recording cfg project (s, [])).1 (runAfresh c.recording cfg project (s, [])).1 ∧
      ∀ h t, Finds c.recording cfg (s, []) h t →
        Reuses h t (run c.recording cfg project (s, [])).2.2
          (runAfresh c.recording cfg project (s, [])).2.2 := by
  have hs' := hs.recording
  obtain ⟨x, hx⟩ := exists_concluded (r := { mode := cfg.mode, project }) (s := (s, [])) hs' hm hr
  have hstages : stages c.recording cfg = chainBy c.recording cfg id := by
    rw [stages, hm]
    exact chain_eq c.recording cfg
  have huse := hx id fun h t ht hlen =>
    Timeline.truthful_detections (ht.remembers hs' hlen).1 hs'.detect
  have hforget := hx (fun _ => []) fun _ _ _ _ => truthful_nil _
  rw [run_eq, hstages, runAfresh]
  obtain ⟨log₁, log₂, o, r, a, ws, ⟨hconcludes, hcompares⟩, hrestores, htrace, hanswer⟩ :=
    exists_ended huse
  obtain ⟨log₁', log₂', o', r', a', ws', ⟨hconcludes', hcompares'⟩, hrestores', htrace', hanswer'⟩ :=
    exists_ended hforget
  rw [show _ = log₂ from htrace.recorded, show _ = log₂' from htrace'.recorded, hanswer, hanswer']
  refine ⟨(hconcludes.congr hrestores.filterMap_handed?).alike
    (hconcludes'.congr hrestores'.filterMap_handed?), fun h t ht => ?_⟩
  have hafresh := hrestores'.compares (hcompares' h t ht)
  rw [unserved_nil] at hafresh
  obtain ⟨hskipped, hadjacent⟩ := ht.spares hs'
  exact ⟨hrestores.compares (hcompares h t ht), hafresh, hskipped, hadjacent⟩

section Sample
open Refactoring (Operation)

def renamed : Operation where
  kind := .renameMethod
  before := [{ filePath := "A.java", startLine := 3, endLine := 5, element := some "foo()" }]
  after := [{ filePath := "A.java", startLine := 3, endLine := 5, element := some "baz()" }]

def firstParents : List (String × Commit) :=
  [("c4", .new "c3" 3), ("c3", .new "c2" 2), ("c2", .new "c1" 1), ("c1", .new "c0" 0)]

/-- The method is renamed in the last commit, and the second and the fourth change its file; the
detector fails at the second. -/
def trail : Collaborators Unit where
  history := some
    { info := fun _ => pure (.ok (.new "c4" 4))
      parent := fun id => pure (.ok (firstParents.lookup id))
      linear := fun _ _ => pure (.ok [])
      changedFiles := fun id => pure (.ok (if id = "c1" ∨ id = "c3" then ["A.java"] else []))
      checkout := fun _ => pure (.ok ())
      restore := pure (.ok ()) }
  parse v := pure (.ok (.ofMethods [(if v.id = "c4" then "baz" else "foo", 3)]))
  detector := ⟨defaultDetector, fun _ newer => pure <|
    if newer.id = "c1" then .failed (.launch "miner")
    else (.ok (if newer.id = "c4" then [renamed] else []), [])⟩
  write _ := pure (.ok ⟨"out", []⟩)
  now := pure 0

theorem steady_trail : trail.Steady where
  parents := by
    rintro h ⟨⟩ id s s'
    rfl
  checkout := by
    rintro h ⟨⟩ id s s'
    rfl
  parse v s s' := rfl
  detect a b a' b' s s' ha hb := by simp only [trail, hb]

theorem acyclic_trail : ∀ h ∈ trail.recording.history, h.Acyclic := by
  rintro h ⟨⟩
  have hrank : ∀ x ∈ firstParents,
      ["c0", "c1", "c2", "c3"].idxOf x.2.id < ["c0", "c1", "c2", "c3"].idxOf x.1 := by decide +kernel
  refine History.acyclic_of_rank (["c0", "c1", "c2", "c3"].idxOf ·) fun p id hp => ?_
  exact hrank (id, p) (mem_of_lookup_eq_some (Except.ok.inj (hp ((), []))))

def following : Config := { mode := .multiEvolution, timeline := { strategy := .refactoringDriven } }

theorem exists_finds_trail : ∃ h t, Finds trail.recording following ((), []) h t := by
  have hinfo : ∀ h ∈ trail.recording.history, ∀ reference w,
      (h.info reference w).1 = .ok (.new "c4" 4) := by
    rintro h ⟨⟩ reference w
    rfl
  obtain ⟨h, hh⟩ : ∃ h, h ∈ trail.recording.history := ⟨_, rfl⟩
  obtain ⟨es, hes, ⟨e, rfl, -⟩ | ⟨-, t, ht⟩⟩ := Timeline.explores_build (h := h)
    (d := trail.recording.detector) (budgetOf following) following.evolution.commit (((), []), .empty)
  · cases hes with | cons he _ =>
    have hfound := hinfo h hh following.evolution.commit ((), [])
    rw [show h.info following.evolution.commit ((), []) = _ from he] at hfound
    cases hfound
  · exact ⟨h, t, hh, ht⟩

/-- The second and the fourth commit are compared, which skips the third; what is known of the last
two is used. -/
theorem reuse_trail : trail.Steady ∧ following.mode = .multiEvolution ∧
    following.timeline.strategy = .refactoringDriven ∧
    (detects (run trail.recording following "calls" ((), [])).2.2).map (·.map Commit.id Commit.id) =
      [("c1", "c3")] ∧
    (detects (runAfresh trail.recording following "calls" ((), [])).2.2).map
      (·.map Commit.id Commit.id) = [("c1", "c3"), ("c3", "c4")] ∧
    Alike (run trail.recording following "calls" ((), [])).2.2
      (runAfresh trail.recording following "calls" ((), [])).2.2
      (run trail.recording following "calls" ((), [])).1
      (runAfresh trail.recording following "calls" ((), [])).1 ∧
    ∃ h t, Finds trail.recording following ((), []) h t ∧ h.Acyclic ∧
      Reuses h t (run trail.recording following "calls" ((), [])).2.2
        (runAfresh trail.recording following "calls" ((), [])).2.2 := by
  obtain ⟨halike, hreuses⟩ := reuse_run trail steady_trail following rfl rfl "calls" ()
  refine ⟨steady_trail, rfl, rfl, by decide +kernel, by decide +kernel, halike, ?_⟩
  obtain ⟨h, t, ht⟩ := exists_finds_trail
  exact ⟨h, t, ht, acyclic_trail h ht.history, hreuses h t ht⟩

end Sample

end Pipeline

end Lineage
