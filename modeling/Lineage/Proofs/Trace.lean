import Lineage.Pipeline
import Lineage.Proofs.Inquiry
/-! # The calls of a run

A run acts on the world through its collaborators only, so it can be told by the calls in order, each
with its answer. In a world that keeps a record of the calls it gets, the trace of a run is that
record. Main statements: `Traced.bind`, `traced_asked`, `Traced.within`.
-/
namespace Lineage

open Refactoring (Operation Detector Detection)

/-- A call to a collaborator, and the answer. -/
inductive Call where
  | ask (e : Exchange)
  | parse (commit : Commit) (answer : Except (List String) Graph)
  | write (e : Export) (answer : Except Export.Failure Exported)
  | now (answer : Int)

variable {σ α β ε : Type}

/-- In the world `s` the call gets the answer and leaves the world `s'` behind. -/
def Call.Occurs (c : Collaborators σ) (s s' : σ) : Call → Prop
  | ask e => ∃ h ∈ c.history, e.Occurs h c.detector s s'
  | parse commit answer => c.parse commit s = (answer, s')
  | write e answer => c.write e s = (answer, s')
  | now answer => c.now s = (answer, s')

/-- The calls that lead from one world to another. -/
inductive Trace (c : Collaborators σ) : σ → List Call → σ → Prop
  | nil (s : σ) : Trace c s [] s
  | cons {s s' s'' : σ} {x : Call} {log : List Call} (hx : x.Occurs c s s')
      (hlog : Trace c s' log s'') : Trace c s (x :: log) s''

section Trace
variable {c : Collaborators σ} {s s' s'' : σ} {log log' : List Call}

theorem Trace.append (hl : Trace c s log s') (hl' : Trace c s' log' s'') :
    Trace c s (log ++ log') s'' := by
  induction hl with
  | nil s => exact hl'
  | cons hx _ ih => exact .cons hx (ih hl')

theorem Trace.single {x : Call} (hx : x.Occurs c s s') : Trace c s [x] s' := .cons hx (.nil s')

/-- A call in a trace is answered by the collaborators in some world. -/
theorem Trace.exists_occurs (h : Trace c s log s') : ∀ x ∈ log, ∃ w w', x.Occurs c w w' := by
  induction h with
  | nil => exact List.forall_mem_nil _
  | cons hx _ ih => exact List.forall_mem_cons.mpr ⟨⟨_, _, hx⟩, ih⟩

theorem Transcript.trace {h : History σ} (hh : c.history = some h) {es : List Exchange}
    (he : Transcript h c.detector s es s') : Trace c s (es.map .ask) s' := by
  induction he with
  | nil s => exact .nil s
  | cons hx _ ih => exact .cons ⟨h, hh, hx⟩ ih

end Trace

/-! ## Worlds that keep a record -/

/-- The same question in a world that records the call. -/
def recorded (x : α → Call) (question : StateM σ α) : StateM (σ × List Call) α := fun w =>
  ((question w.1).1, ((question w.1).2, w.2 ++ [x (question w.1).1]))

def History.recording (h : History σ) : History (σ × List Call) where
  info reference := recorded (fun a => .ask (.info reference a)) (h.info reference)
  parent id := recorded (fun a => .ask (.parent id a)) (h.parent id)
  linear reference depth :=
    recorded (fun a => .ask (.linear reference depth a)) (h.linear reference depth)
  changedFiles id := recorded (fun a => .ask (.changedFiles id a)) (h.changedFiles id)
  checkout reference := recorded (fun a => .ask (.checkout reference a)) (h.checkout reference)
  restore := recorded (fun a => .ask (.restore a)) h.restore

/-- Collaborators that answer as the given ones do, in a world that records every call. -/
def Collaborators.recording (c : Collaborators σ) : Collaborators (σ × List Call) where
  history := c.history.map History.recording
  parse commit := recorded (.parse commit) (c.parse commit)
  detector :=
    { name := c.detector.name
      detect := fun older newer =>
        recorded (fun a => .ask (.detect older newer a)) (c.detector.detect older newer) }
  write e := recorded (.write e) (c.write e)
  now := recorded .now c.now

theorem Call.Occurs.recorded {c : Collaborators σ} {w w' : σ × List Call} {x : Call}
    (h : x.Occurs c.recording w w') : w'.2 = w.2 ++ [x] := by
  cases x with
  | ask e =>
    obtain ⟨r, hr, he⟩ := h
    obtain ⟨h, -, rfl⟩ := Option.map_eq_some_iff.mp hr
    cases e with
    | info | parent | linear | changedFiles | checkout | restore | detect => cases he; rfl
  | parse | write | now => cases h; rfl

theorem Trace.recorded {c : Collaborators σ} {w w' : σ × List Call} {log : List Call}
    (h : Trace c.recording w log w') : w'.2 = w.2 ++ log := by
  induction h with
  | nil w => exact (List.append_nil _).symm
  | cons hx _ ih => rw [ih, hx.recorded, List.append_assoc, List.singleton_append]

namespace Pipeline

/-- What work answers from a report and a world, and the report and the world that it leaves. -/
def Run.eval (work : Run σ α) (r : RunReport) (w : σ × Diagnostics) :
    (Except RunError α × RunReport) × (σ × Diagnostics) := work.run.run r w

/-- The work makes the calls of some log, and the log, its answer and the report satisfy `P`. -/
def Traced (c : Collaborators σ) (work : Run σ α) (r : RunReport) (w : σ × Diagnostics)
    (P : List Call → Except RunError α → RunReport → Prop) : Prop :=
  ∃ log, Trace c w.1 log (work.eval r w).2.1 ∧ P log (work.eval r w).1.1 (work.eval r w).1.2

section Traced
variable {c : Collaborators σ} {work : Run σ α} {f : α → Run σ β} {r : RunReport}
  {w : σ × Diagnostics} {P P' : List Call → Except RunError α → RunReport → Prop}
  {Q : List Call → Except RunError β → RunReport → Prop}

theorem Traced.mono (hw : Traced c work r w P) (hP : ∀ log o r', P log o r' → P' log o r') :
    Traced c work r w P' := by
  obtain ⟨log, hlog, hp⟩ := hw
  exact ⟨log, hlog, hP _ _ _ hp⟩

theorem Traced.occurring (hw : Traced c work r w P) : Traced c work r w fun log o r' =>
    P log o r' ∧ ∀ x ∈ log, ∃ s s', x.Occurs c s s' := by
  obtain ⟨log, hlog, hp⟩ := hw
  exact ⟨log, hlog, hp, hlog.exists_occurs⟩

theorem traced_pure {a : α} (ha : P [] (.ok a) r) : Traced c (pure a) r w P :=
  ⟨[], .nil w.1, ha⟩

theorem traced_throw {e : RunError} (he : P [] (.error e) r) : Traced c (throw e) r w P :=
  ⟨[], .nil w.1, he⟩

theorem eval_bind (work : Run σ α) (f : α → Run σ β) (r : RunReport) (w : σ × Diagnostics) :
    (work >>= f).eval r w =
      match work.eval r w with
      | ((.ok a, r'), w') => (f a).eval r' w'
      | ((.error e, r'), w') => ((.error e, r'), w') := by
  have h : (work >>= f).eval r w =
      (match (work.eval r w).1.1 with
        | .ok a => (f a).eval (work.eval r w).1.2 (work.eval r w).2
        | .error e => ((.error e, (work.eval r w).1.2), (work.eval r w).2)) := by
    change (ExceptT.bindCont f (work.eval r w).1.1) (work.eval r w).1.2 (work.eval r w).2 = _
    cases (work.eval r w).1.1 <;> rfl
  rw [h]
  rcases work.eval r w with ⟨⟨_ | _, _⟩, _⟩ <;> rfl

/-- Whatever comes next starts from the same calls, the same report and the same world, unless the
work failed. -/
theorem Traced.shared (hw : Traced c work r w P) : ∃ log o r', P log o r' ∧
    ∀ (f : α → Run σ β) (Q : List Call → Except RunError β → RunReport → Prop),
      (∀ a w', o = .ok a → Traced c (f a) r' w' fun log' o' r'' => Q (log ++ log') o' r'') →
      (∀ e, o = .error e → Q log (.error e) r') → Traced c (work >>= f) r w Q := by
  obtain ⟨log, hlog, hp⟩ := hw
  refine ⟨log, (work.eval r w).1.1, (work.eval r w).1.2, hp, fun f Q hok herror => ?_⟩
  unfold Traced
  rw [eval_bind]
  revert hlog hok herror
  rcases work.eval r w with ⟨⟨e | a, r'⟩, w'⟩
  · intro hlog _ herror
    exact ⟨log, hlog, herror e rfl⟩
  · intro hlog hok _
    obtain ⟨log', hlog', hq⟩ := hok a w' rfl
    exact ⟨log ++ log', hlog.append hlog', hq⟩

/-- What comes next starts from the report and the world that were left, unless the work failed. -/
theorem Traced.bind (hw : Traced c work r w P)
    (hok : ∀ log a r' w', P log (.ok a) r' →
      Traced c (f a) r' w' fun log' o r'' => Q (log ++ log') o r'')
    (herror : ∀ log e r', P log (.error e) r' → Q log (.error e) r') :
    Traced c (work >>= f) r w Q := by
  obtain ⟨log, o, r', hp, hrest⟩ := hw.shared
  refine hrest f Q (fun a w' ho => hok log a r' w' ?_) fun e ho => herror log e r' ?_
  · rwa [← ho]
  · rwa [← ho]

theorem traced_modify (g : RunReport → RunReport)
    {P : List Call → Except RunError Unit → RunReport → Prop} (hp : P [] (.ok ()) (g r)) : Traced c (modify g : Run σ Unit) r w P :=
  ⟨[], .nil w.1, hp⟩

theorem eval_orFail (wrap : ε → RunError) (work : Inquiry σ (Except ε α)) (r : RunReport)
    (w : σ × Diagnostics) :
    (orFail wrap work).eval r w = (((work w).1.mapError wrap, r), (work w).2) := by
  unfold orFail
  rw [eval_bind]
  change Run.eval _ r (work w).2 = _
  cases (work w).1 <;> rfl

theorem traced_lift {work : Inquiry σ α} {R : List Call → α → Prop}
    (hw : ∃ log, Trace c w.1 log (work w).2.1 ∧ R log (work w).1) :
    Traced c (liftM work : Run σ α) r w fun log o r' => ∃ a, R log a ∧ o = .ok a ∧ r' = r := by
  obtain ⟨log, hlog, hr⟩ := hw
  exact ⟨log, hlog, (work w).1, hr, rfl, rfl⟩

theorem traced_orFail {wrap : ε → RunError} {work : Inquiry σ (Except ε α)}
    {R : List Call → Except ε α → Prop}
    (hw : ∃ log, Trace c w.1 log (work w).2.1 ∧ R log (work w).1) :
    Traced c (orFail wrap work) r w fun log o r' =>
      ∃ a, R log a ∧ o = a.mapError wrap ∧ r' = r := by
  obtain ⟨log, hlog, hr⟩ := hw
  refine ⟨log, ?_, (work w).1, hr, ?_⟩
  · rw [eval_orFail]
    exact hlog
  · rw [eval_orFail]
    exact ⟨rfl, rfl⟩

theorem Traced.within {s : Stage} (hw : ∀ st, Traced c work { r with stages := st } w P) :
    Traced c (Pipeline.within s work) r w P := by
  have heval : (Pipeline.within s work).eval r w = work.eval
      { r with stages := if r.stages.contains s then r.stages else r.stages ++ [s] } w := by
    change work.eval (if r.stages.contains s then r else { r with stages := r.stages ++ [s] }) w = _
    split <;> rfl
  unfold Traced
  rw [heval]
  exact hw _

section Asked
variable {wrap : ε → RunError} {question : StateM σ (Except ε α)} {x : Except ε α → Call}
  (hx : ∀ s, (x (question s).1).Occurs c s (question s).2)
include hx

theorem traced_asked : Traced c (asked wrap question) r w fun log o r' =>
    ∃ a, log = [x a] ∧ o = a.mapError wrap ∧ r' = r :=
  traced_orFail ⟨[x (question w.1).1], .single (hx w.1), rfl⟩

theorem Traced.asked_bind
    (hok : ∀ a w', Traced c (f a) r w' fun log o r' => Q (x (.ok a) :: log) o r')
    (herror : ∀ e, Q [x (.error e)] (.error (wrap e)) r) :
    Traced c (asked wrap question >>= f) r w Q := by
  refine (traced_asked hx).bind ?_ ?_
  · rintro log a r' w' ⟨b, rfl, hb, rfl⟩
    cases b with
    | error e => cases hb
    | ok b =>
      obtain rfl := Except.ok.inj hb
      exact hok a w'
  · rintro log e r' ⟨b, rfl, hb, rfl⟩
    cases b with
    | ok b => cases hb
    | error e' =>
      obtain rfl := Except.error.inj hb
      exact herror e'

theorem Traced.stage_bind {s : Stage}
    (hok : ∀ a st w',
      Traced c (f a) { r with stages := st } w' fun log o r' => Q (x (.ok a) :: log) o r')
    (herror : ∀ e st, Q [x (.error e)] (.error (wrap e)) { r with stages := st }) :
    Traced c (Pipeline.within s (asked wrap question) >>= f) r w Q := by
  have hassoc : Pipeline.within s (asked wrap question) >>= f =
      Pipeline.within s (asked wrap question >>= f) := bind_assoc _ _ _
  rw [hassoc]
  exact Traced.within fun st => Traced.asked_bind hx (fun a w' => hok a st w') fun e => herror e st

end Asked

end Traced

end Pipeline

end Lineage
