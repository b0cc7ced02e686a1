import Lineage.Proofs.EntityUnion
import Lineage.Proofs.Protocol
import Mathlib.Algebra.GroupWithZero.Nat
import Mathlib.Data.List.Dedup
/-! # Counting collisions

A run that compares versions warns of the collisions of a version whenever it indexes the version:
once for the first and the last one, twice for those between, which take part in two pairs. Main
statements: `length_collisions_ofGraph`, `collects_foldlM`, `countsCollisions_run`.
-/
namespace Lineage

open Refactoring (Operation Detector Detection)

/-! ## One version -/

/-- How many nodes of a version are not the first of their entity. -/
def Graph.surplus (g : Graph) : Nat := g.nodes.length - g.keys.dedup.length

namespace Index

theorem length_entities_ofGraph (g : Graph) :
    (ofGraph g).entities.length = g.keys.dedup.length := by
  have hmem : ∀ k, k ∈ (ofGraph g).entities.map (·.key) ↔ k ∈ g.keys.dedup := by
    intro k
    have hlookup := lookup?_ofGraph g k
    rw [List.mem_dedup, ← not_iff_not, ← find?_key_eq_none_iff (f := Entity.key), Graph.keys,
      ← find?_key_eq_none_iff (f := Node.key)]
    rw [lookup?, find?, Graph.findKey?] at hlookup
    rw [← Option.map_eq_none_iff (f := Entity.id), hlookup, Option.map_eq_none_iff]
  have hperm :=
    (List.perm_ext_iff_of_nodup (keys_nodup_ofNodes g.nodes) g.keys.nodup_dedup).mpr hmem
  rw [← hperm.length_eq, List.length_map]
  rfl

theorem length_collisions_ofGraph (g : Graph) : (ofGraph g).collisions.length = g.surplus := by
  rw [Graph.surplus, ← length_entities_ofGraph, ← length_collisions g.nodes]
  exact (Nat.add_sub_cancel _ _).symm

end Index

/-! ## Warnings -/

/-- How many of the warnings are of collisions. -/
def collisions (ws : List Warning) : Nat := ws.countP (·.kind = .identityCollision)

theorem collisions_append (ws ws' : List Warning) :
    collisions (ws ++ ws') = collisions ws + collisions ws' := List.countP_append

theorem WarningKind.name_injective : Function.Injective WarningKind.name := by
  intro s t h
  revert h
  cases s <;> cases t <;> decide

theorem byKind_identityCollision (d : Diagnostics) :
    (d.byKind.get? WarningKind.identityCollision.name).getD 0 = collisions d.warnings := by
  have hcount : (d.warnings.map (·.kind.name)).count WarningKind.identityCollision.name =
      collisions d.warnings := by
    rw [List.count, List.countP_map, collisions]
    refine List.countP_congr fun w _ => ?_
    simp [WarningKind.name_injective.eq_iff]
  rw [Diagnostics.byKind, get?_tally, hcount]
  cases collisions d.warnings <;> rfl

theorem collisions_warnings (g : Graph) : collisions (Index.ofGraph g).warnings = g.surplus := by
  rw [Index.warnings, collisions, List.countP_map, ← Index.length_collisions_ofGraph]
  exact List.countP_eq_length.mpr fun _ _ => rfl

namespace Merge

/-- A merge warns of nothing but locations. -/
theorem collisions_run (name : String) (v1 v2 : Graph) (m : Matching) (ops : List Operation)
    (span : Span) : collisions (run name v1 v2 m ops span).2 = 0 := by
  refine List.countP_eq_zero.mpr fun w hw => ?_
  obtain ⟨o, ho, hwo⟩ := List.mem_filterMap.mp hw
  obtain ⟨op, -, rfl⟩ := List.mem_map.mp ho
  unfold contributions at hwo
  dsimp only at hwo
  split_ifs at hwo
  · cases hwo
    exact nofun
  · cases hwo
    exact nofun

end Merge

theorem collisions_matching (name : String) (v1 v2 : Graph) (ops : List Operation) (span : Span) :
    collisions ((Matching.ofGraphs v1 v2 ops).warnings ++
      (Merge.run name v1 v2 (.ofGraphs v1 v2 ops) ops span).2) = v1.surplus + v2.surplus := by
  rw [collisions_append, Merge.collisions_run, Matching.warnings, collisions_append,
    ← collisions_warnings v1, ← collisions_warnings v2]
  rfl

/-! ## Calls -/

namespace Call

/-- How many collisions a call warns of itself. -/
def warned : Call → Nat
  | ask (.detect _ _ found) => collisions found.2
  | _ => 0

def parsed? : Call → Option Graph
  | parse _ (.ok g) => some g
  | _ => none

def parsed (log : List Call) : List Graph := log.filterMap parsed?

/-- How many collisions a detector warns of. -/
def warnedIn (log : List Call) : Nat := (log.map warned).sum

theorem parsed_append (log log' : List Call) : parsed (log ++ log') = parsed log ++ parsed log' :=
  List.filterMap_append

theorem warnedIn_append (log log' : List Call) :
    warnedIn (log ++ log') = warnedIn log + warnedIn log' := by
  rw [warnedIn, List.map_append, List.sum_append]
  rfl

theorem parsed_asks (es : List Exchange) : parsed (es.map .ask) = [] := by
  rw [parsed, List.filterMap_map]
  exact List.filterMap_eq_nil_iff.mpr fun _ _ => rfl

end Call

open Call (parsed warnedIn parsed_append warnedIn_append parsed_asks)

namespace Timeline
variable {σ : Type} {h : History σ} {d : Detector σ}

/-- All the collisions that the work warns of are those that the detector warned of. -/
def Relays (h : History σ) (d : Detector σ) {α : Type} (work : Inquiry σ α) : Prop :=
  ∀ w, ∃ es, Transcript h d w.1 es (work w).2.1 ∧
    collisions (work w).2.2.warnings = collisions w.2.warnings + warnedIn (es.map .ask)

theorem relays_ask {α : Type} {question : StateM σ α} (e : α → Exchange)
    (he : ∀ s, (e (question s).1).Occurs h d s (question s).2)
    (hquiet : ∀ a, (Call.ask (e a)).warned = 0) : Relays h d (Inquiry.ask question) := fun w =>
  ⟨[e (question w.1).1], .cons (he w.1) (.nil _), by
    rw [List.map_singleton, warnedIn, List.map_singleton, hquiet]
    rfl⟩

theorem composes_relays : Composes h d fun _ work => Relays h d work where
  of_pure a w := ⟨[], .nil w.1, rfl⟩
  of_bind {α β work f} hw hf w := by
    obtain ⟨es, hes, hcount⟩ := hw w
    obtain ⟨es', hes', hcount'⟩ := hf (work w).1 (work w).2
    refine ⟨es ++ es', hes.append hes', ?_⟩
    rw [List.map_append, warnedIn_append, ← Nat.add_assoc, ← hcount]
    exact hcount'
  of_parent id := relays_ask (.parent id) (fun _ => rfl) fun _ => rfl
  of_changedFiles id := relays_ask (.changedFiles id) (fun _ => rfl) fun _ => rfl
  of_detect older newer w := by
    refine ⟨[.detect older newer (d.detect older newer w.1).1], .cons rfl (.nil _), ?_⟩
    exact collisions_append _ _

theorem relays_build (b : Budget) (reference : String) : Relays h d (build h d b reference) := by
  have hR : Composes h d fun _ work => Relays h d work := composes_relays
  have hinfo : Relays h d (Inquiry.ask (h.info reference)) :=
    relays_ask (.info reference) (fun _ => rfl) fun _ => rfl
  refine hR.of_bind hinfo fun answer => ?_
  match answer with
  | .ok target => exact hR.of_bind (hR.ofTarget b target) fun t => hR.of_pure _
  | .error e => exact hR.of_pure _

end Timeline

namespace Pipeline

variable {σ α β ε : Type}

/-- If the work succeeds, it makes the calls of some log, and besides the collisions that a detector
warned of it warns of some number of them itself. -/
def Collects (c : Collaborators σ) (work : Run σ α) (P : List Call → Nat → α → Prop) : Prop :=
  ∀ r w a r' w', work.eval r w = ((.ok a, r'), w') → ∃ log n, Trace c w.1 log w'.1 ∧
    collisions w'.2.warnings = collisions w.2.warnings + warnedIn log + n ∧ P log n a

section Collects
variable {c : Collaborators σ} {work : Run σ α} {f : α → Run σ β}
  {P P' : List Call → Nat → α → Prop} {Q : List Call → Nat → β → Prop}

theorem Collects.mono (hw : Collects c work P) (hP : ∀ log n a, P log n a → P' log n a) :
    Collects c work P' := by
  intro r w a r' w' he
  obtain ⟨log, n, hlog, hn, hp⟩ := hw r w a r' w' he
  exact ⟨log, n, hlog, hn, hP log n a hp⟩

theorem collects_pure {a : α} (ha : P [] 0 a) : Collects c (pure a) P := by
  intro r w a' r' w' he
  cases he
  exact ⟨[], 0, .nil _, rfl, ha⟩

theorem collects_throw (e : RunError) : Collects c (throw e : Run σ α) P :=
  fun _ _ _ _ _ he => nomatch he

theorem collects_modify (g : RunReport → RunReport) :
    Collects c (modify g : Run σ Unit) fun log n _ => parsed log = [] ∧ n = 0 := by
  intro r w a r' w' he
  cases he
  exact ⟨[], 0, .nil _, rfl, rfl, rfl⟩

theorem Collects.bind (hw : Collects c work P)
    (hf : ∀ log n a, P log n a → Collects c (f a) fun log' n' b => Q (log ++ log') (n + n') b) :
    Collects c (work >>= f) Q := by
  intro r w b r'' w'' he
  rw [eval_bind] at he
  rcases heval : work.eval r w with ⟨⟨e | a, r'⟩, w'⟩
  · rw [heval] at he
    cases he
  · rw [heval] at he
    obtain ⟨log, n, hlog, hn, hp⟩ := hw r w a r' w' heval
    obtain ⟨log', n', hlog', hn', hq⟩ := hf log n a hp r' w' b r'' w'' he
    refine ⟨log ++ log', n + n', hlog.append hlog', ?_, hq⟩
    rw [hn', hn, warnedIn_append]
    omega

theorem Collects.within {s : Stage} (hw : Collects c work P) :
    Collects c (Pipeline.within s work) P := by
  intro r w a r' w' he
  have heval : (Pipeline.within s work).eval r w = work.eval
      (if r.stages.contains s then r else { r with stages := r.stages ++ [s] }) w := rfl
  exact hw _ w a r' w' (heval ▸ he)

/-- A question that no detector is asked. -/
theorem collects_asked {wrap : ε → RunError} {question : StateM σ (Except ε α)}
    (x : Except ε α → Call) (hx : ∀ s, (x (question s).1).Occurs c s (question s).2)
    (hquiet : ∀ a, (x a).warned = 0) :
    Collects c (asked wrap question) fun log n a => log = [x (.ok a)] ∧ n = 0 := by
  intro r w a r' w' he
  rw [asked, eval_orFail] at he
  have hanswer : (question w.1).1 = .ok a := by
    have hmap : ((question w.1).1).mapError wrap = .ok a := congrArg (·.1.1) he
    cases hq : (question w.1).1 with
    | ok b =>
      rw [hq] at hmap
      exact congrArg Except.ok (Except.ok.inj hmap)
    | error e =>
      rw [hq] at hmap
      cases hmap
  have hworld : ((question w.1).2, w.2) = w' := congrArg (·.2) he
  subst hworld
  refine ⟨[x (.ok a)], 0, .single (hanswer ▸ hx w.1), ?_, rfl, rfl⟩
  rw [warnedIn, List.map_singleton, hquiet]
  rfl

end Collects

/-! ## Versions -/

def Idle (log : List Call) (n : Nat) : Prop := parsed log = [] ∧ n = 0

theorem Idle.append {log log' : List Call} {n n' : Nat} (h : Idle log n) (h' : Idle log' n') :
    Idle (log ++ log') (n + n') :=
  ⟨by rw [parsed_append, h.1, h'.1]; rfl, by rw [h.2, h'.2]⟩

theorem collects_idle {c : Collaborators σ} {wrap : ε → RunError}
    {question : StateM σ (Except ε α)} (x : Except ε α → Call)
    (hx : ∀ s, (x (question s).1).Occurs c s (question s).2) (hquiet : ∀ a, (x a).warned = 0)
    (hnone : ∀ a, (x a).parsed? = none) :
    Collects c (asked wrap question) fun log n _ => Idle log n :=
  (collects_asked x hx hquiet).mono fun _ _ a h => by
    obtain ⟨hlog, hn⟩ := h
    exact ⟨by rw [hlog]; exact List.filterMap_cons_none (hnone (.ok a)), hn⟩

/-- The collisions of pairs of neighbours. -/
def paired : List Graph → Nat
  | g :: g' :: gs => g.surplus + g'.surplus + paired (g' :: gs)
  | _ => 0

section Versions
variable {c : Collaborators σ} {h : History σ} (hc : c.history = some h)
include hc

theorem collects_lift {work : Inquiry σ α} (hw : Timeline.Relays h c.detector work) :
    Collects c (liftM work : Run σ α) fun log n _ => Idle log n := by
  intro r w a r' w' he
  cases he
  obtain ⟨es, hes, hcount⟩ := hw w
  exact ⟨es.map .ask, 0, hes.trace hc, hcount, parsed_asks es, rfl⟩

theorem collects_orFail {wrap : ε → RunError} {work : Inquiry σ (Except ε α)}
    (hw : Timeline.Relays h c.detector work) :
    Collects c (orFail wrap work) fun log n _ => Idle log n := by
  intro r w a r' w' he
  rw [eval_orFail] at he
  obtain ⟨es, hes, hcount⟩ := hw w
  obtain rfl : (work w).2 = w' := congrArg (·.2) he
  exact ⟨es.map .ask, 0, hes.trace hc, hcount, parsed_asks es, rfl⟩

theorem collects_operations (known : Timeline.Detections) (older newer : Commit) :
    Collects c (operations c known older newer) fun log n _ => Idle log n := by
  unfold operations
  split
  · exact collects_pure ⟨rfl, rfl⟩
  · exact (collects_lift hc (Timeline.composes_relays.of_detect older newer)).within

/-- A pair is warned of the collisions of both its versions. -/
theorem collects_fold (p : Progress) (older : Commit) (v1 : Graph) (newer : Commit) (v2 : Graph) :
    Collects c (fold c p older v1 newer v2) fun log n _ =>
      parsed log = [] ∧ n = v1.surplus + v2.surplus := by
  refine (collects_operations hc p.known older newer).bind fun log n ops hidle =>
    Collects.bind (P := fun log' n' _ => log' = [] ∧ n' = v1.surplus + v2.surplus) ?_
      fun log' n' merged hmerge => ?_
  · refine Collects.within fun r w a r' w' he => ?_
    cases he
    refine ⟨[], _, .nil _, ?_, rfl, rfl⟩
    exact (collisions_append _ _).trans
      (congrArg _ (collisions_matching c.detector.name v1 v2 ops ⟨older, newer⟩))
  · obtain ⟨hlog', hn'⟩ := hmerge
    refine (collects_modify _).bind fun log'' n'' _ hidle'' => collects_pure ?_
    subst hlog' hn'
    rw [hidle.2, hidle''.2, List.append_nil, List.nil_append, parsed_append, hidle.1, hidle''.1]
    exact ⟨rfl, by omega⟩

theorem collects_advance (p : Progress) (v : Commit) :
    Collects c (advance c h p v) fun log n q => ∃ g, parsed log = [g] ∧
      q.previous = some (v, g) ∧ n = paired (p.previous.toList.map (·.2) ++ [g]) := by
  have hcheckout : Collects c (within .checkout (asked .repository (h.checkout v.id)))
      fun log n _ => log = [.ask (.checkout v.id (.ok ()))] ∧ n = 0 :=
    (collects_asked (fun a => .ask (.checkout v.id a)) (fun _ => ⟨h, hc, rfl⟩)
      fun _ => rfl).within
  have hparse : Collects c (within .parse (asked (.unparsedVersion v) (c.parse v)))
      fun log n g => log = [.parse v (.ok g)] ∧ n = 0 :=
    (collects_asked (.parse v) (fun _ => rfl) fun _ => rfl).within
  unfold advance
  refine hcheckout.bind fun _ _ _ ⟨hlog₁, hn₁⟩ => hparse.bind fun _ _ g ⟨hlog₂, hn₂⟩ => ?_
  subst hlog₁ hn₁ hlog₂ hn₂
  cases hp : p.previous with
  | none =>
    refine (collects_pure (P := fun log n _ => log = [] ∧ n = 0) ⟨rfl, rfl⟩).bind
      fun _ _ q ⟨hlog₃, hn₃⟩ => collects_pure ?_
    subst hlog₃ hn₃
    exact ⟨g, rfl, rfl, rfl⟩
  | some before =>
    refine (collects_fold hc p before.1 before.2 v g).bind
      fun log₃ n₃ q ⟨hlog₃, hn₃⟩ => collects_pure ⟨g, ?_, rfl, ?_⟩
    · rw [List.append_nil]
      exact congrArg (g :: ·) hlog₃
    · simp [hn₃, paired]

theorem collects_foldlM (vs : List Commit) (p : Progress) :
    Collects c (vs.foldlM (advance c h) p) fun log n _ =>
      (parsed log).length = vs.length ∧ n = paired (p.previous.toList.map (·.2) ++ parsed log) := by
  induction vs generalizing p with
  | nil =>
    refine collects_pure ⟨rfl, ?_⟩
    cases p.previous <;> rfl
  | cons v vs ih =>
    rw [List.foldlM_cons]
    refine (collects_advance hc p v).bind fun log n q ⟨g, hlog, hq, hn⟩ =>
      (ih q).mono fun log' n' _ ⟨hlength, hn'⟩ => ?_
    rw [parsed_append, hlog, hn, hn', hq]
    refine ⟨by simp [hlength], ?_⟩
    cases p.previous with
    | none => simp [paired]
    | some before => simp [paired]

omit hc in
theorem collects_finish (g : Graph) (versions : List Version) :
    Collects c (finish c g versions) fun log n _ => Idle log n := by
  intro r w a r' w' he
  have hwrite : Collects c (within .export (asked .unwritten
      (c.write ⟨r.project, g, versions, w.2⟩))) fun log n _ => Idle log n :=
    (collects_idle (.write ⟨r.project, g, versions, w.2⟩) (fun _ => rfl) (fun _ => rfl)
      fun _ => rfl).within
  have hrest : Collects c (within .export (asked .unwritten
      (c.write ⟨r.project, g, versions, w.2⟩)) >>= fun exported =>
        modify fun r => { r with exported := some exported }) fun log n _ => Idle log n :=
    hwrite.bind fun log n ex h => (collects_modify _).mono fun log' n' _ h' => h.append h'
  exact hrest _ w a r' w' he

theorem collects_process (vs : List Commit) (known : Timeline.Detections) :
    Collects c (process c h vs known) fun log n _ =>
      (parsed log).length = vs.length ∧ n = paired (parsed log) := by
  unfold process
  refine (collects_foldlM hc vs { known }).bind fun log n p ⟨hlength, hn⟩ =>
    (collects_modify _).bind fun log₁ n₁ _ h₁ =>
      (collects_finish p.aggregate.graph (versionsOf p.aggregate)).mono fun log₂ n₂ _ h₂ => ?_
  have hidle : Idle (log₁ ++ log₂) (n₁ + n₂) := Idle.append h₁ h₂
  rw [parsed_append, hidle.1, hidle.2, List.append_nil]
  exact ⟨hlength, hn⟩

end Versions

/-! ## The whole run -/

/-- Versions are parsed in twos at least, and each is compared with its neighbours. -/
structure PairsUp (log : List Call) (n : Nat) : Prop where
  versions : parsed log = [] ∨ 2 ≤ (parsed log).length
  count : n = paired (parsed log)

theorem Idle.pairsUp {log : List Call} {n : Nat} (h : Idle log n) : PairsUp log n :=
  ⟨.inl h.1, by rw [h.1, h.2]; rfl⟩

section Run
variable {c : Collaborators σ} {h : History σ} {cfg : Config} {log log' : List Call} {n n' : Nat}

theorem Idle.append_pairsUp (h : Idle log n) (h' : PairsUp log' n') :
    PairsUp (log ++ log') (n + n') := by
  have hparsed : parsed (log ++ log') = parsed log' := by rw [parsed_append, h.1, List.nil_append]
  exact ⟨hparsed ▸ h'.versions, by rw [hparsed, h.2, ← h'.count, Nat.zero_add]⟩

theorem collects_pairsUp (hc : c.history = some h) {vs : List Commit} (hvs : 2 ≤ vs.length)
    (known : Timeline.Detections) :
    Collects c (process c h vs known) fun log n _ => PairsUp log n :=
  (collects_process hc vs known).mono fun _ _ _ ⟨hlength, hn⟩ => ⟨.inr (hlength ▸ hvs), hn⟩

theorem collects_evolution : Collects c (evolution c cfg) fun log n _ => PairsUp log n := by
  unfold evolution requireHistory
  cases hc : c.history with
  | none => exact collects_throw _
  | some h =>
  have hinfo : Collects c (asked .repository (h.info cfg.evolution.commit)) fun log n _ =>
      Idle log n :=
    collects_idle (fun a => .ask (.info cfg.evolution.commit a)) (fun _ => ⟨h, hc, rfl⟩)
      (fun _ => rfl) fun _ => rfl
  refine hinfo.bind fun log n target hidle => ?_
  have hparent : Collects c (asked .repository (h.parent target.id)) fun log n _ => Idle log n :=
    collects_idle (fun a => .ask (.parent target.id a)) (fun _ => ⟨h, hc, rfl⟩) (fun _ => rfl)
      fun _ => rfl
  refine hparent.bind fun log' n' parent hidle' => ?_
  cases parent with
  | none => exact collects_throw _
  | some parent =>
    have hlength : 2 ≤ [parent, target].length := Nat.le_refl 2
    exact (collects_pairsUp hc hlength []).mono fun _ _ _ hpairs =>
      hidle.append_pairsUp (hidle'.append_pairsUp hpairs)

theorem collects_chosen (hc : c.history = some h) :
    Collects c (chosen c h cfg) fun log n _ => Idle log n := by
  have hlinear : Collects c (asked .repository
      (h.linear cfg.evolution.commit cfg.timeline.historyWindow)) fun log n _ => Idle log n :=
    collects_idle (fun a => .ask (.linear cfg.evolution.commit cfg.timeline.historyWindow a))
      (fun _ => ⟨h, hc, rfl⟩) (fun _ => rfl) fun _ => rfl
  unfold chosen
  cases cfg.timeline.strategy with
  | linear | fileBased =>
    exact hlinear.bind fun log n vs hidle => collects_pure (hidle.append ⟨rfl, rfl⟩)
  | refactoringDriven =>
    exact (collects_orFail hc (Timeline.relays_build _ _)).bind fun log n t hidle =>
      collects_pure (hidle.append ⟨rfl, rfl⟩)

theorem collects_chain : Collects c (chain c cfg) fun log n _ => PairsUp log n := by
  unfold chain requireHistory
  cases hc : c.history with
  | none => exact collects_throw _
  | some h =>
  refine (collects_chosen hc).within.bind fun log n versions hidle => ?_
  obtain ⟨vs, known⟩ := versions
  dsimp only
  split
  · exact (collects_modify _).mono fun _ _ _ h' => hidle.append_pairsUp (Idle.pairsUp h')
  · rename_i hvs
    exact (collects_pairsUp hc (Nat.le_of_not_lt hvs) known).mono fun _ _ _ hpairs =>
      hidle.append_pairsUp hpairs

theorem collects_stages (hm : cfg.mode ≠ .single) :
    Collects c (stages c cfg) fun log n _ => PairsUp log n := by
  unfold stages
  cases hmode : cfg.mode with
  | single => exact absurd hmode hm
  | evolution => exact collects_evolution
  | multiEvolution => exact collects_chain

theorem record_restored (c : Collaborators σ) (mode : Mode) (w : σ × List Call) :
    ∃ calls, (restored c.recording mode w).2.2 = w.2 ++ calls ∧ parsed calls = [] ∧
      warnedIn calls = 0 := by
  have hnone : ∃ calls, w.2 = w.2 ++ calls ∧ parsed calls = [] ∧ warnedIn calls = 0 :=
    ⟨[], (List.append_nil _).symm, rfl, rfl⟩
  unfold restored
  cases hc : c.history with
  | none =>
    have hr : c.recording.history = none := by simp [Collaborators.recording, hc]
    rw [hr]
    cases mode <;> exact hnone
  | some h =>
    have hr : c.recording.history = some h.recording := by simp [Collaborators.recording, hc]
    rw [hr]
    cases mode with
    | single => exact hnone
    | evolution | multiEvolution => exact ⟨[_], rfl, rfl, rfl⟩

end Run

def inner (gs : List Graph) : List Graph := gs.tail.dropLast

def surpluses (gs : List Graph) : Nat := (gs.map Graph.surplus).sum

theorem paired_cons {g : Graph} {gs : List Graph} (h : gs ≠ []) :
    paired (g :: gs) = g.surplus + surpluses gs + surpluses gs.dropLast := by
  induction gs generalizing g with
  | nil => exact absurd rfl h
  | cons g' gs ih =>
    cases gs with
    | nil => simp [paired, surpluses]
    | cons g'' gs =>
      rw [paired, ih (List.cons_ne_nil _ _), List.dropLast_cons_of_ne_nil (List.cons_ne_nil _ _)]
      simp only [surpluses, List.map_cons, List.sum_cons]
      omega

theorem paired_eq {gs : List Graph} (h : gs = [] ∨ 2 ≤ gs.length) :
    paired gs = surpluses gs + surpluses (inner gs) := by
  rcases gs with _ | ⟨g, _ | ⟨g', gs⟩⟩
  · rfl
  · simp at h
  · rw [paired_cons (List.cons_ne_nil _ _)]
    rfl

/-- The collisions that a report counts. -/
def counted (r : RunReport) : Nat :=
  (r.diagnostics.byKind.get? WarningKind.identityCollision.name).getD 0

/-- Of the versions that a run parsed, the report counts the collisions of each, once more those of
the versions between the first and the last, and what the detector warned of. -/
structure CountsCollisions (log : List Call) (reported : Nat) : Prop where
  count : reported = surpluses (parsed log) + surpluses (inner (parsed log)) + warnedIn log
  once_iff : reported = surpluses (parsed log) ↔
    (∀ g ∈ inner (parsed log), g.surplus = 0) ∧ warnedIn log = 0

theorem countsCollisions_of_eq {log : List Call} {reported : Nat}
    (h : reported = surpluses (parsed log) + surpluses (inner (parsed log)) + warnedIn log) :
    CountsCollisions log reported where
  count := h
  once_iff := by
    have hinner : surpluses (inner (parsed log)) = 0 ↔ ∀ g ∈ inner (parsed log), g.surplus = 0 := by
      simp [surpluses, List.sum_eq_zero_iff_forall_eq_nat]
    rw [← hinner]
    omega

theorem countsCollisions_run (c : Collaborators σ) (cfg : Config) (project : String) (s : σ)
    (hm : cfg.mode ≠ .single) {report : RunReport}
    (hr : (run c.recording cfg project (s, [])).1 = .ok report) :
    CountsCollisions (run c.recording cfg project (s, [])).2.2 (counted report) := by
  rw [run_eq] at hr ⊢
  unfold runOf at hr ⊢
  rcases heval : (stages c.recording cfg).eval { mode := cfg.mode, project } ((s, []), .empty) with
    ⟨⟨e | _, r⟩, world, ws⟩
  · rw [heval] at hr
    cases hr
  · obtain ⟨log, n, htrace, hn, hpairs⟩ := collects_stages hm _ _ _ _ _ heval
    obtain ⟨calls, hrecord, hparsed, hwarned⟩ := record_restored c cfg.mode world
    rw [heval] at hr
    dsimp only at hr ⊢
    have hreport : report.diagnostics = ws := by
      cases hending : (restored c.recording cfg.mode world).1 with
      | error e =>
        rw [hending] at hr
        cases hr
      | ok =>
        rw [hending] at hr
        cases hr
        rfl
    have hlog : (restored c.recording cfg.mode world).2.2 = log ++ calls := by
      rw [hrecord, htrace.recorded, List.nil_append]
    have hcount : collisions ws.warnings = warnedIn log + paired (parsed log) := by
      rw [hn, hpairs.count]
      simp [Diagnostics.empty, collisions]
    refine countsCollisions_of_eq ?_
    rw [hlog, parsed_append, warnedIn_append, hparsed, hwarned, List.append_nil, counted,
      byKind_identityCollision, hreport, hcount, paired_eq hpairs.versions]
    omega

section Sample

def overloaded (n : Nat) : Graph := .ofMethods (List.replicate n ("foo", 3))

def threeVersions (first second third : Graph) : Collaborators Unit where
  history := some
    { info := fun _ => pure (.ok (.new "c2" 2))
      parent := fun _ => pure (.ok none)
      linear := fun _ _ => pure (.ok [.new "c0" 0, .new "c1" 1, .new "c2" 2])
      changedFiles := fun _ => pure (.ok [])
      checkout := fun _ => pure (.ok ())
      restore := pure (.ok ()) }
  parse v := pure (.ok (if v.id = "c0" then first else if v.id = "c1" then second else third))
  detector := ⟨defaultDetector, fun _ _ => pure (.ok [], [])⟩
  write _ := pure (.ok ⟨"out", []⟩)
  now := pure 0

def chained : Config := { mode := .multiEvolution }

theorem countsCollisions_ends : chained.mode ≠ .single ∧
    ∃ report, (run (threeVersions (overloaded 2) (overloaded 1) (overloaded 3)).recording chained
      "overloads" ((), [])).1 = .ok report ∧ counted report = 3 ∧
      CountsCollisions (run (threeVersions (overloaded 2) (overloaded 1) (overloaded 3)).recording
        chained "overloads" ((), [])).2.2 (counted report) := by
  have hm : chained.mode ≠ .single := by decide
  have hcounted : (run (threeVersions (overloaded 2) (overloaded 1) (overloaded 3)).recording
      chained "overloads" ((), [])).1.toOption.map counted = some 3 := by decide +kernel
  cases hr : (run (threeVersions (overloaded 2) (overloaded 1) (overloaded 3)).recording chained
      "overloads" ((), [])).1 with
  | error e =>
    rw [hr] at hcounted
    cases hcounted
  | ok report =>
    rw [hr] at hcounted
    exact ⟨hm, report, rfl, Option.some.inj hcounted, countsCollisions_run _ _ _ () hm hr⟩

/-- The one collision of the version between them is counted twice. -/
theorem counted_between :
    (run (threeVersions (overloaded 1) (overloaded 2) (overloaded 1)).recording chained
      "overloads" ((), [])).1.toOption.map counted = some 2 ∧
    parsed (run (threeVersions (overloaded 1) (overloaded 2) (overloaded 1)).recording chained
      "overloads" ((), [])).2.2 = [overloaded 1, overloaded 2, overloaded 1] ∧
    surpluses [overloaded 1, overloaded 2, overloaded 1] = 1 := by
  refine ⟨by decide +kernel, by decide +kernel, by decide +kernel⟩

end Sample

end Pipeline

end Lineage
