import Lineage.Proofs.Inquiry
import Lineage.Timeline
/-! # Steps of a walk

A walk looks at one commit after the other and keeps it or passes it over, whatever is answered. So
what both ways preserve holds in the end; and what putting inquiries together preserves holds of the
whole walk if it holds of each question. Main statements: `looks_look`, `yields_walk`,
`Composes.ofTarget`.
-/
namespace Lineage

open Refactoring (Operation Detector)

variable {σ α β : Type}

/-! ## Answers of inquiries -/

/-- From every world, the answer of the work satisfies `P`. -/
def Yields (work : Inquiry σ α) (P : α → Prop) : Prop := ∀ w, P (work w).1

section Yields
variable {work : Inquiry σ α} {f : α → Inquiry σ β} {P : α → Prop} {Q : β → Prop}

theorem yields_pure {a : α} (ha : P a) : Yields (pure a : Inquiry σ α) P := fun _ => ha

theorem Yields.bind (hw : Yields work P) (hf : ∀ a, P a → Yields (f a) Q) :
    Yields (work >>= f) Q := fun w => hf _ (hw w) _

theorem yields_any (work : Inquiry σ α) : Yields work fun _ => True := fun _ => trivial

end Yields

namespace Timeline

/-! ## Looking at a commit -/

inductive Looks (d : Detector σ) (w : Walk) (p : Commit) : Walk → Prop
  | kept {tracked : TextSet} {ops detected : List Operation} (s : σ)
      (hdetected : detected = (d.detect p w.current s).1.operations) :
      Looks d w p ⟨p, tracked, w.analyzed + 1,
        ⟨w.current, w.tracked, ops, some p.id, detected⟩ :: w.entries⟩
  | passed : Looks d w p { w with current := p, analyzed := w.analyzed + 1 }

section Walk
variable {h : History σ} {d : Detector σ}

theorem looks_look (h : History σ) (d : Detector σ) (w : Walk) (p : Commit) :
    Yields (look h d w p) (Looks d w p) := by
  have hdetect : Yields (Inquiry.detect d p w.current) fun ops =>
      ∃ s, ops = (d.detect p w.current s).1.operations := fun s => ⟨s.1, rfl⟩
  refine hdetect.bind fun detected hdetected => ?_
  obtain ⟨s, hs⟩ := hdetected
  dsimp only
  split
  · refine (yields_any _).bind fun isRelevant _ => yields_pure ?_
    split
    · exact .kept s hs
    · exact .passed
  · exact yields_pure (.kept s hs)

theorem yields_step (h : History σ) (d : Detector σ) (b : Budget) (target : Commit) (w : Walk) :
    Yields (step h d b target w) fun next => ∀ w' ∈ next,
      ∃ p s, (h.parent w.current.id s).1 = .ok (some p) ∧ Looks d w p w' := by
  unfold step
  split
  · exact yields_pure nofun
  · have hask : Yields (Inquiry.ask (h.parent w.current.id)) fun answer =>
        ∃ s, (h.parent w.current.id s).1 = answer := fun s => ⟨s.1, rfl⟩
    refine hask.bind fun answer hanswer => ?_
    obtain ⟨s, hs⟩ := hanswer
    match answer, hs with
    | .ok (some p), hs =>
      refine (looks_look h d w p).bind fun w' hw' => yields_pure ?_
      rintro _ ⟨⟩
      exact ⟨p, s, hs, hw'⟩
    | .ok none, _ => exact yields_pure nofun
    | .error e, _ => exact yields_pure nofun

/-- An invariant of looking at a commit that was told of as a parent is one of the walk. -/
theorem yields_walk {I : Walk → Prop} (hI : ∀ w p s w', I w →
      (h.parent w.current.id s).1 = .ok (some p) → Looks d w p w' → I w')
    (b : Budget) (target : Commit) (n : Nat) {w : Walk} (hw : I w) :
    Yields (walk h d b target n w) I := by
  induction n generalizing w with
  | zero => exact yields_pure hw
  | succ n ih =>
    refine (yields_step h d b target w).bind fun next hnext => ?_
    cases next with
    | some w' =>
      obtain ⟨p, s, hp, hl⟩ := hnext w' rfl
      exact ih (hI w p s w' hw hp hl)
    | none => exact yields_pure hw

end Walk

/-! ## Putting inquiries together -/

variable {h : History σ} {d : Detector σ}

/-- A property of inquiries that the questions of a walk have and that putting inquiries together
keeps. -/
structure Composes (h : History σ) (d : Detector σ)
    (R : (α : Type) → Inquiry σ α → Prop) : Prop where
  of_pure : ∀ {α : Type} (a : α), R α (pure a)
  of_bind : ∀ {α β : Type} {work : Inquiry σ α} {f : α → Inquiry σ β}, R α work →
    (∀ a, R β (f a)) → R β (work >>= f)
  of_parent : ∀ id, R _ (Inquiry.ask (h.parent id))
  of_changedFiles : ∀ id, R _ (Inquiry.ask (h.changedFiles id))
  of_detect : ∀ older newer, R _ (Inquiry.detect d older newer)

namespace Composes
variable {R : (α : Type) → Inquiry σ α → Prop} (hR : Composes h d R)
include hR

theorem look (w : Walk) (p : Commit) : R _ (Timeline.look h d w p) := by
  refine hR.of_bind (hR.of_detect p w.current) fun detected => ?_
  dsimp only
  split
  · have hchanges : R _ (changesTracked h w.current w.tracked) :=
      hR.of_bind (hR.of_changedFiles w.current.id) fun _ => hR.of_pure _
    exact hR.of_bind hchanges fun _ => hR.of_pure _
  · exact hR.of_bind (hR.of_pure true) fun _ => hR.of_pure _

theorem step (b : Budget) (target : Commit) (w : Walk) : R _ (Timeline.step h d b target w) := by
  unfold Timeline.step
  split
  · exact hR.of_pure none
  · refine hR.of_bind (hR.of_parent w.current.id) fun answer => ?_
    match answer with
    | .ok (some p) => exact hR.of_bind (hR.look w p) fun _ => hR.of_pure _
    | .ok none => exact hR.of_pure none
    | .error e => exact hR.of_pure none

theorem walk (b : Budget) (target : Commit) (n : Nat) (w : Walk) :
    R _ (Timeline.walk h d b target n w) := by
  induction n generalizing w with
  | zero => exact hR.of_pure w
  | succ n ih =>
    refine hR.of_bind (hR.step b target w) fun next => ?_
    cases next with
    | some w' => exact ih w'
    | none => exact hR.of_pure w

theorem ofTarget (b : Budget) (target : Commit) : R _ (Timeline.ofTarget h d b target) := by
  refine hR.of_bind (hR.of_parent target.id) fun answer => ?_
  match answer with
  | .ok none => exact hR.of_pure _
  | .error e => exact hR.of_pure _
  | .ok (some p) =>
    refine hR.of_bind (hR.of_detect p target) fun ops => ?_
    dsimp only
    split
    · exact hR.of_pure _
    · exact hR.of_bind (hR.walk b target b.depth _) fun _ => hR.of_pure _

end Composes

end Timeline

end Lineage
