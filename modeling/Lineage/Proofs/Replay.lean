import Lineage.Proofs.Descent
import Lineage.Proofs.Turns
/-! # Processing by what is known

If checkouts, parsed versions and refactorings do not depend on the world, what is known of pairs of
versions spares detections and changes nothing else: processing comes to what it comes to if every two
consecutive versions are compared afresh. Main statements: `Processes.eq_replay`, `Processes.detects`,
`unserved_eq_filter`.
-/
namespace Lineage

open Refactoring (Operation Detector Detection)

variable {σ : Type}

/-- What a run is told of versions does not depend on the world, and the refactorings between two of
them on nothing but their ids. -/
structure Collaborators.Steady (c : Collaborators σ) : Prop where
  parents : ∀ h ∈ c.history, h.SteadyParents
  checkout : ∀ h ∈ c.history, ∀ id s s', (h.checkout id s).1 = (h.checkout id s').1
  parse : ∀ v s s', (c.parse v s).1 = (c.parse v s').1
  detect : c.detector.Steady

theorem Collaborators.Steady.recording {c : Collaborators σ} (hs : c.Steady) : c.recording.Steady where
  parents r hr id s s' := by
    obtain ⟨h, hh, rfl⟩ := Option.map_eq_some_iff.mp hr
    exact hs.parents h hh id s.1 s'.1
  checkout r hr id s s' := by
    obtain ⟨h, hh, rfl⟩ := Option.map_eq_some_iff.mp hr
    exact hs.checkout h hh id s.1 s'.1
  parse v s s' := hs.parse v s.1 s'.1
  detect a b a' b' s s' ha hb := hs.detect a b a' b' s.1 s'.1 ha hb

namespace Pipeline

/-- What is known is what the detector would find. -/
def Truthful (d : Detector σ) (known : Timeline.Detections) : Prop :=
  ∀ (older newer : Commit) ops, known.lookup (older.id, newer.id) = some ops →
    ∀ s, ops = (d.detect older newer s).1.operations

theorem truthful_nil (d : Detector σ) : Truthful d [] := nofun

theorem Truthful.filter {d : Detector σ} {known : Timeline.Detections} (h : Truthful d known)
    (k : String × String) : Truthful d (known.filter (·.1 ≠ k)) := by
  intro older newer ops hops
  rw [lookup_filter_key fun i => decide (i ≠ k)] at hops
  split at hops
  · exact h older newer ops hops
  · cases hops

/-! ## Comparing every two versions afresh -/

abbrev Position := Option (Commit × Graph) × Aggregate

def Progress.position (p : Progress) : Position := (p.previous, p.aggregate)

/-- One more version, by the answers of the world `s`. -/
def replayStep (c : Collaborators σ) (h : History σ) (s : σ) (x : Position) (v : Commit) :
    Except RunError Position := do
  (h.checkout v.id s).1.mapError .repository
  let g ← (c.parse v s).1.mapError (.unparsedVersion v)
  return match x with
    | (some (older, v1), a) =>
      let ops := (c.detector.detect older v s).1.operations
      (some (v, g),
        a.fold (Merge.run c.detector.name v1 g (Matching.ofGraphs v1 g ops) ops ⟨older, v⟩).1)
    | (none, a) => (some (v, g), a)

def replay (c : Collaborators σ) (h : History σ) (s : σ) (x : Position) (vs : List Commit) :
    Except RunError Position := vs.foldlM (replayStep c h s) x

section Replay
variable {c : Collaborators σ} {h : History σ} {p : Progress} {v : Commit} {vs : List Commit}
  {log : List Call} {o : Except RunError Progress} (hc : c.history = some h) (hs : c.Steady) (s : σ)
include hc hs

omit hc in
theorem Obtains.operations_eq {older : Commit} {ops : List Operation}
    (ho : Obtains p.known older v log ops) (hlog : ∀ x ∈ log, ∃ w w', x.Occurs c w w')
    (hknown : Truthful c.detector p.known) : ops = (c.detector.detect older v s).1.operations := by
  cases ho with
  | reused hops => exact hknown older v ops hops s
  | detected hnone found =>
    obtain ⟨w, w', h', -, hfound⟩ := hlog _ List.mem_cons_self
    rw [hs.detect older v older v s w rfl rfl, hfound]

theorem Advances.eq_replayStep (ha : Advances c.detector.name p v log o)
    (hlog : ∀ x ∈ log, ∃ w w', x.Occurs c w w') (hknown : Truthful c.detector p.known) :
    o.map Progress.position = replayStep c h s p.position v := by
  have hcheckout : ∀ a, Call.ask (.checkout v.id a) ∈ log → (h.checkout v.id s).1 = a := by
    intro a hx
    obtain ⟨w, w', h', hh', hoccurs⟩ := hlog _ hx
    rw [hc] at hh'
    obtain rfl := Option.some.inj hh'
    rw [hs.checkout h hc v.id s w, hoccurs]
  have hparse : ∀ a, Call.parse v a ∈ log → (c.parse v s).1 = a := by
    intro a hx
    obtain ⟨w, w', hoccurs⟩ := hlog _ hx
    rw [hs.parse v s w, hoccurs]
  unfold replayStep
  cases ha with
  | refused e =>
    rw [hcheckout _ List.mem_cons_self]
    rfl
  | unparsed reasons =>
    rw [hcheckout _ List.mem_cons_self, hparse (.error reasons) (by simp)]
    rfl
  | first hp g =>
    rw [hcheckout _ List.mem_cons_self, hparse (.ok g) (by simp), Progress.position, hp]
    rfl
  | next hp g ho =>
    have hops := ho.operations_eq hs s
      (fun x hx => hlog x (List.mem_cons_of_mem _ (List.mem_cons_of_mem _ hx))) hknown
    rw [hcheckout _ List.mem_cons_self, hparse (.ok g) (by simp), Progress.position, hp, hops]
    rfl

theorem Processes.eq_replay (hp : Processes c.detector.name p vs log o)
    (hlog : ∀ x ∈ log, ∃ w w', x.Occurs c w w') (hknown : Truthful c.detector p.known) :
    o.map Progress.position = replay c h s p.position vs := by
  induction hp with
  | done p => rfl
  | stopped ha =>
    have hstep := ha.eq_replayStep hc hs s hlog hknown
    rw [replay, List.foldlM_cons, ← hstep]
    rfl
  | @next p q v vs calls log o ha _ ih =>
    have hstep := ha.eq_replayStep hc hs s (fun x hx => hlog x (List.mem_append_left _ hx)) hknown
    have hq : Truthful c.detector q.known := by
      cases ha with
      | first => exact hknown
      | next => exact hknown.filter _
    rw [ih (fun x hx => hlog x (List.mem_append_right _ hx)) hq, replay, replay, List.foldlM_cons,
      ← hstep]
    rfl

end Replay

/-! ## Which pairs are detected -/

/-- The pairs of neighbours in a list. -/
def consecutive {α : Type} (xs : List α) : List (α × α) := xs.zip xs.tail

def Unknown (known : Timeline.Detections) (x : Commit × Commit) : Prop :=
  known.lookup (x.1.id, x.2.id) = none

instance (known : Timeline.Detections) (x : Commit × Commit) : Decidable (Unknown known x) :=
  inferInstanceAs (Decidable (_ = none))

/-- The pairs that have to be detected: what is known of a pair serves it once. -/
def unserved (known : Timeline.Detections) : List (Commit × Commit) → List (Commit × Commit)
  | [] => []
  | x :: xs =>
    let rest := unserved (known.filter (·.1 ≠ (x.1.id, x.2.id))) xs
    if Unknown known x then x :: rest else rest

section Unserved
variable {known : Timeline.Detections} {xs : List (Commit × Commit)}

theorem unknown_filter_iff {x : Commit × Commit} {k : String × String} :
    Unknown (known.filter (·.1 ≠ k)) x ↔ (x.1.id, x.2.id) = k ∨ Unknown known x := by
  unfold Unknown
  rw [lookup_filter_key fun i => decide (i ≠ k)]
  by_cases hk : (x.1.id, x.2.id) = k <;> simp [hk]

theorem unserved_cons (x : Commit × Commit) : unserved known (x :: xs) =
    if Unknown known x then x :: unserved (known.filter (·.1 ≠ (x.1.id, x.2.id))) xs
    else unserved (known.filter (·.1 ≠ (x.1.id, x.2.id))) xs := rfl

theorem unserved_nil (xs : List (Commit × Commit)) : unserved [] xs = xs := by
  induction xs with
  | nil => rfl
  | cons x xs ih => exact congrArg (x :: ·) ih

/-- Unknown pairs are always detected. -/
theorem filter_sublist_unserved : (xs.filter (Unknown known ·)).Sublist (unserved known xs) := by
  induction xs generalizing known with
  | nil => exact .slnil
  | cons x xs ih =>
    have hrest : (xs.filter (Unknown known ·)).Sublist
        (unserved (known.filter (·.1 ≠ (x.1.id, x.2.id))) xs) := by
      refine .trans (List.monotone_filter_right xs fun y hy => ?_) ih
      exact decide_eq_true (unknown_filter_iff.mpr (.inr (of_decide_eq_true hy)))
    rw [unserved_cons, List.filter_cons]
    by_cases hx : Unknown known x
    · rw [if_pos hx, if_pos (decide_eq_true hx)]
      exact hrest.cons_cons x
    · rw [if_neg hx, if_neg fun hd => hx (of_decide_eq_true hd)]
      exact hrest

/-- Pairs of different ids are detected exactly if they are unknown. -/
theorem unserved_eq_filter (h : (xs.map fun x => (x.1.id, x.2.id)).Nodup) :
    unserved known xs = xs.filter (Unknown known ·) := by
  induction xs generalizing known with
  | nil => rfl
  | cons x xs ih =>
    obtain ⟨hx, hxs⟩ := List.nodup_cons.mp h
    have hrest : unserved (known.filter (·.1 ≠ (x.1.id, x.2.id))) xs =
        xs.filter (Unknown known ·) := by
      rw [ih hxs]
      refine List.filter_congr fun y hy => ?_
      have hne : (y.1.id, y.2.id) ≠ (x.1.id, x.2.id) := fun he => hx (List.mem_map.mpr ⟨y, hy, he⟩)
      simp only [unknown_filter_iff, hne, false_or]
    rw [unserved_cons, hrest, List.filter_cons]
    simp only [decide_eq_true_eq]

end Unserved

end Pipeline

namespace Call

def detect? : Call → Option (Commit × Commit)
  | ask (.detect older newer _) => some (older, newer)
  | _ => none

end Call

namespace Pipeline

section Detects
variable {name : String} {p : Progress} {v : Commit} {vs : List Commit} {log : List Call}

def Progress.before (p : Progress) : List Commit := (p.previous.map (·.1)).toList

theorem Advances.detects {q : Progress} (h : Advances name p v log (.ok q)) :
    unserved p.known (consecutive (p.before ++ v :: vs)) =
      log.filterMap Call.detect? ++ unserved q.known (consecutive (q.before ++ vs)) := by
  cases h with
  | first hp g =>
    rw [Progress.before, hp]
    rfl
  | @next older v1 hp g calls ops ho =>
    have hbefore : p.before = [older] := by rw [Progress.before, hp]; rfl
    have hstep : unserved p.known ((older, v) :: consecutive (v :: vs)) =
        calls.filterMap Call.detect? ++
          unserved (p.known.filter (·.1 ≠ (older.id, v.id))) (consecutive (v :: vs)) := by
      rw [unserved_cons]
      cases ho with
      | reused hops =>
        have hknown : ¬Unknown p.known (older, v) := fun hnone => by
          rw [show p.known.lookup (older.id, v.id) = none from hnone] at hops
          cases hops
        exact if_neg hknown
      | detected hnone found =>
        have hunknown : Unknown p.known (older, v) := hnone
        exact if_pos hunknown
    rw [hbefore]
    exact hstep

theorem Advances.detect?_of_error {e : RunError} (h : Advances name p v log (.error e)) :
    log.filterMap Call.detect? = [] := by
  cases h with
  | refused | unparsed => rfl

/-- Work detects the pairs in order that it cannot take from what is known, all of them if it ends
well. -/
theorem Processes.detects {o : Except RunError Progress} (h : Processes name p vs log o) :
    log.filterMap Call.detect? <+: unserved p.known (consecutive (p.before ++ vs)) ∧
      ∀ q, o = .ok q → log.filterMap Call.detect? =
        unserved p.known (consecutive (p.before ++ vs)) := by
  induction h with
  | done p =>
    have hnone : unserved p.known (consecutive (p.before ++ [])) = [] := by
      unfold Progress.before
      cases p.previous <;> rfl
    rw [hnone]
    exact ⟨List.prefix_refl _, fun _ _ => rfl⟩
  | stopped h =>
    rw [h.detect?_of_error]
    exact ⟨List.nil_prefix, nofun⟩
  | @next p q v vs calls log o h hrest ih =>
    rw [List.filterMap_append, h.detects]
    exact ⟨(List.prefix_append_right_inj _).mpr ih.1, fun q' hq' => by rw [ih.2 q' hq']⟩

end Detects

end Pipeline

end Lineage
