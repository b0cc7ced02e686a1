import Lineage.Inquiry
import Mathlib.Data.List.Basic
/-! # The log of an inquiry

All that an inquiry learns it learns by asking, so a run can be told by its log: the questions in
order, each with the answer that the world of that moment gave. Main statements: `Logged.bind`,
`logged_ask`, `logged_detect`.
-/
namespace Lineage

open Refactoring (Operation Detector Detection)

/-- A question to a repository or a detector, and the answer. -/
inductive Exchange where
  | info (reference : String) (answer : Except RepositoryError Commit)
  | parent (id : String) (answer : Except RepositoryError (Option Commit))
  | linear (reference : String) (depth : Nat) (answer : Except RepositoryError (List Commit))
  | changedFiles (id : String) (answer : Except RepositoryError (List String))
  | checkout (reference : String) (answer : Except RepositoryError Unit)
  | restore (answer : Except RepositoryError Unit)
  | detect (older newer : Commit) (answer : Detection)

variable {σ α β : Type}

/-- In the world `s` the question gets the answer and leaves the world `s'` behind. -/
def Exchange.Occurs (h : History σ) (d : Detector σ) (s s' : σ) : Exchange → Prop
  | info reference answer => h.info reference s = (answer, s')
  | parent id answer => h.parent id s = (answer, s')
  | linear reference depth answer => h.linear reference depth s = (answer, s')
  | changedFiles id answer => h.changedFiles id s = (answer, s')
  | checkout reference answer => h.checkout reference s = (answer, s')
  | restore answer => h.restore s = (answer, s')
  | detect older newer answer => d.detect older newer s = (answer, s')

/-- The exchanges that lead from one world to another. -/
inductive Transcript (h : History σ) (d : Detector σ) : σ → List Exchange → σ → Prop
  | nil (s : σ) : Transcript h d s [] s
  | cons {s s' s'' : σ} {e : Exchange} {log : List Exchange} (he : e.Occurs h d s s')
      (hlog : Transcript h d s' log s'') : Transcript h d s (e :: log) s''

section Transcript
variable {h : History σ} {d : Detector σ} {s s' s'' : σ} {log log' : List Exchange}

theorem Transcript.append (hl : Transcript h d s log s') (hl' : Transcript h d s' log' s'') :
    Transcript h d s (log ++ log') s'' := by
  induction hl with
  | nil s => exact hl'
  | cons he _ ih => exact .cons he (ih hl')

end Transcript

/-- From every world, the work asks what some log says, and the log and its answer satisfy `P`. -/
def Logged (h : History σ) (d : Detector σ) (work : Inquiry σ α) (P : List Exchange → α → Prop) :
    Prop :=
  ∀ w, ∃ log, Transcript h d w.1 log (work w).2.1 ∧ P log (work w).1

section Logged
variable {h : History σ} {d : Detector σ} {work : Inquiry σ α} {f : α → Inquiry σ β}
variable {P P' : List Exchange → α → Prop} {Q : List Exchange → β → Prop}

theorem Logged.mono (hw : Logged h d work P) (hP : ∀ log a, P log a → P' log a) :
    Logged h d work P' := by
  intro w
  obtain ⟨log, hlog, hp⟩ := hw w
  exact ⟨log, hlog, hP log _ hp⟩

theorem logged_pure {a : α} (ha : P [] a) : Logged h d (pure a) P :=
  fun w => ⟨[], .nil w.1, ha⟩

/-- What comes next starts in the world that was left, and goes on with the log. -/
theorem Logged.bind (hw : Logged h d work P)
    (hf : ∀ log a, P log a → Logged h d (f a) fun log' b => Q (log ++ log') b) :
    Logged h d (work >>= f) Q := by
  intro w
  obtain ⟨log, hlog, hp⟩ := hw w
  obtain ⟨log', hlog', hq⟩ := hf log (work w).1 hp (work w).2
  exact ⟨log ++ log', hlog.append hlog', hq⟩

theorem logged_ask {question : StateM σ α} (e : α → Exchange)
    (he : ∀ s, (e (question s).1).Occurs h d s (question s).2) :
    Logged h d (Inquiry.ask question) fun log a => log = [e a] :=
  fun w => ⟨[e (question w.1).1], .cons (he w.1) (.nil _), rfl⟩

theorem logged_parent (h : History σ) (d : Detector σ) (id : String) :
    Logged h d (Inquiry.ask (h.parent id)) fun log a => log = [.parent id a] :=
  logged_ask (.parent id) fun _ => rfl

theorem logged_changedFiles (h : History σ) (d : Detector σ) (id : String) :
    Logged h d (Inquiry.ask (h.changedFiles id)) fun log a => log = [.changedFiles id a] :=
  logged_ask (.changedFiles id) fun _ => rfl

theorem logged_info (h : History σ) (d : Detector σ) (reference : String) :
    Logged h d (Inquiry.ask (h.info reference)) fun log a => log = [.info reference a] :=
  logged_ask (.info reference) fun _ => rfl

def Refactoring.Detection.operations (found : Detection) : List Operation :=
  match found.1 with
  | .ok ops => ops
  | .error _ => []

theorem logged_detect (h : History σ) (d : Detector σ) (older newer : Commit) :
    Logged h d (Inquiry.detect d older newer) fun log ops =>
      ∃ found : Detection, log = [.detect older newer found] ∧ ops = found.operations :=
  fun w => ⟨[.detect older newer (d.detect older newer w.1).1], .cons rfl (.nil _), _, rfl, rfl⟩

end Logged

end Lineage
