import Lineage.Proofs.Keyed
import Lineage.Proofs.Walks
import Mathlib.Data.List.Pairwise
import Mathlib.Logic.Relation
/-! # What a timeline remembers of its walk

If first parents and refactorings do not depend on the world, every entry of a timeline remembers the
first parent of its commit and all that the detector finds between the two, for good; the entries
descend from each other. Main statements: `yields_build`, `lookup_detections`.
-/
namespace Lineage

open Refactoring (Operation Detector Detection)

variable {σ α β : Type}

/-- The first parent of a commit is the same in every world. -/
def History.SteadyParents (h : History σ) : Prop := ∀ id s s', (h.parent id s).1 = (h.parent id s').1

/-- Between two ids the detector gives the same answer in every world. -/
def Refactoring.Detector.Steady (d : Detector σ) : Prop :=
  ∀ a b a' b' s s', a.id = a'.id → b.id = b'.id → (d.detect a b s).1 = (d.detect a' b' s').1

/-- In every world the commit `p` is the first parent of the commit with the id. -/
def History.FirstParent (h : History σ) (p : Commit) (id : String) : Prop :=
  ∀ s, (h.parent id s).1 = .ok (some p)

def History.Descends (h : History σ) : String → String → Prop :=
  Relation.TransGen fun a b => ∃ p, h.FirstParent p b ∧ p.id = a

def History.Acyclic (h : History σ) : Prop := ∀ id, ¬h.Descends id id

/-- A rank that grows from parents to children rules out that a commit descends from itself. -/
theorem History.acyclic_of_rank {h : History σ} (rank : String → Nat)
    (hrank : ∀ p id, h.FirstParent p id → rank p.id < rank id) : h.Acyclic := by
  have hdescends : ∀ {a b : String}, h.Descends a b → rank a < rank b := by
    intro a b hab
    induction hab with
    | single hp =>
      obtain ⟨p, hp, rfl⟩ := hp
      exact hrank p _ hp
    | tail _ hp ih =>
      obtain ⟨p, hp, rfl⟩ := hp
      exact Nat.lt_trans ih (hrank p _ hp)
  exact fun id hid => Nat.lt_irrefl _ (hdescends hid)

section Steady
variable {h : History σ} {d : Detector σ}

theorem yields_parent (hs : h.SteadyParents) (id : String) :
    Yields (Inquiry.ask (h.parent id)) fun a => ∀ p, a = .ok (some p) → h.FirstParent p id := by
  intro w p hp s
  rw [hs id s w.1]
  exact hp

theorem yields_detect (hs : d.Steady) (older newer : Commit) :
    Yields (Inquiry.detect d older newer) fun ops =>
      ∀ s, ops = (d.detect older newer s).1.operations := by
  intro w s
  rw [hs older newer older newer s w.1 rfl rfl]
  rfl

end Steady

/-- The entry remembers the first parent of its commit, and what the detector finds between them. -/
def TimelineEntry.Remembers (h : History σ) (d : Detector σ) (e : TimelineEntry) : Prop :=
  ∃ p, h.FirstParent p e.commit.id ∧ e.parent = some p.id ∧
    ∀ s, e.detected = (d.detect p e.commit s).1.operations

namespace Timeline

/-! ## The walk -/

/-- The entries remember, and descend from each other and from the commit to be looked at next. -/
structure Walk.Traced (h : History σ) (d : Detector σ) (w : Walk) : Prop where
  remembers : ∀ e ∈ w.entries, e.Remembers h d
  descent : w.entries.Pairwise fun a b => h.Descends a.commit.id b.commit.id
  below : ∀ e ∈ w.entries, h.Descends w.current.id e.commit.id

section Walk
variable {h : History σ} {d : Detector σ} {w : Walk} {p : Commit}

/-- One step further down the first parents. -/
theorem Walk.Traced.below_parent (hw : w.Traced h d) (hp : h.FirstParent p w.current.id) :
    ∀ e ∈ w.entries, h.Descends p.id e.commit.id :=
  fun e he => .head ⟨p, hp, rfl⟩ (hw.below e he)

theorem Walk.Traced.looks (hw : w.Traced h d) (hd : d.Steady) (hp : h.FirstParent p w.current.id)
    {w' : Walk} (hl : Looks d w p w') : w'.Traced h d := by
  cases hl with
  | @kept tracked ops detected s hdetected =>
    refine ⟨fun e he => ?_, List.pairwise_cons.mpr ⟨hw.below, hw.descent⟩, fun e he => ?_⟩
    · rcases List.mem_cons.mp he with rfl | he
      · refine ⟨p, hp, rfl, fun s' => ?_⟩
        rw [hdetected, hd p w.current p w.current s s' rfl rfl]
      · exact hw.remembers e he
    · rcases List.mem_cons.mp he with rfl | he
      · exact .single ⟨p, hp, rfl⟩
      · exact hw.below_parent hp e he
  | passed => exact ⟨hw.remembers, hw.descent, hw.below_parent hp⟩

variable (hd : d.Steady) (hs : h.SteadyParents)
include hd hs

theorem traced_walk (b : Budget) (target : Commit) (n : Nat) (hw : w.Traced h d) :
    Yields (walk h d b target n w) fun w' => w'.Traced h d := by
  refine yields_walk (fun w p s w' hw hp hl => ?_) b target n hw
  refine hw.looks hd (fun s' => ?_) hl
  rw [hs w.current.id s' s]
  exact hp

theorem yields_ofTarget (b : Budget) (target : Commit) :
    Yields (ofTarget h d b target) fun t => 2 ≤ t.entries.length →
      (∀ e ∈ t.entries, e.Remembers h d) ∧
        t.entries.Pairwise fun a b => h.Descends a.commit.id b.commit.id := by
  have halone : ∀ e : TimelineEntry, ¬2 ≤ (alone e).entries.length := fun _ => by simp [alone]
  refine (yields_parent hs target.id).bind fun answer hanswer => ?_
  match answer, hanswer with
  | .ok none, _ => exact yields_pure fun hlen => absurd hlen (halone _)
  | .error e, _ => exact yields_pure fun hlen => absurd hlen (halone _)
  | .ok (some p), hanswer =>
    have hp := hanswer p rfl
    refine (yields_detect hd p target).bind fun ops hops => ?_
    dsimp only
    split
    · exact yields_pure fun hlen => absurd hlen (halone _)
    · refine (traced_walk hd hs b target b.depth ⟨fun e he => ?_, List.pairwise_singleton _ _,
        fun e he => ?_⟩).bind fun w hw => yields_pure fun _ => ⟨hw.remembers, hw.descent⟩
      · rw [List.mem_singleton.mp he]
        exact ⟨p, hp, rfl, hops⟩
      · rw [List.mem_singleton.mp he]
        exact .single ⟨p, hp, rfl⟩

theorem yields_build (b : Budget) (reference : String) :
    Yields (build h d b reference) fun answer => ∀ t, answer = .ok t → 2 ≤ t.entries.length →
      (∀ e ∈ t.entries, e.Remembers h d) ∧
        t.entries.Pairwise fun a b => h.Descends a.commit.id b.commit.id := by
  refine (yields_any _).bind fun answer _ => ?_
  cases answer with
  | error e => exact yields_pure nofun
  | ok target =>
    refine (yields_ofTarget hd hs b target).bind fun t ht => yields_pure ?_
    rintro _ ⟨⟩
    exact ht

end Walk

/-! ## What is known from a timeline -/

def Compared (k : String × String) (e : TimelineEntry) : Prop :=
  e.parent = some k.1 ∧ e.commit.id = k.2

instance (k : String × String) (e : TimelineEntry) : Decidable (Compared k e) :=
  inferInstanceAs (Decidable (_ ∧ _))

theorem lookup_recordDetected (m : Detections) (e : TimelineEntry) (k : String × String) :
    (recordDetected m e).lookup k = if Compared k e then some e.detected else m.lookup k := by
  by_cases hk : Compared k e
  · obtain ⟨hp, hc⟩ := hk
    rw [if_pos ⟨hp, hc⟩]
    simp only [recordDetected, hp, hc]
    exact List.lookup_cons_self
  · rw [if_neg hk]
    unfold recordDetected
    split
    · rename_i p hp
      have hne : k ≠ (p, e.commit.id) := by
        rintro rfl
        exact hk ⟨hp, rfl⟩
      rw [lookup_cons_eq_ite, if_neg hne, lookup_filter_key fun i => decide (i ≠ (p, e.commit.id))]
      simp [hne]
    · rfl

/-- What is known between two commits is what the newest entry remembers that compared them. -/
theorem lookup_detections (t : Timeline) (k : String × String) :
    t.detections.lookup k = (t.entries.reverse.find? (Compared k ·)).map (·.detected) := by
  unfold detections
  induction t.entries using List.reverseRecOn with
  | nil => rfl
  | append_singleton es e ih =>
    rw [List.foldl_append, List.foldl_cons, List.foldl_nil, lookup_recordDetected, ih,
      List.reverse_append, List.reverse_singleton, List.singleton_append, List.find?_cons]
    by_cases hk : Compared k e <;> simp [hk]

section Known
variable {t : Timeline} {k : String × String}

theorem mem_of_lookup_detections {ops : List Operation} (h : t.detections.lookup k = some ops) :
    ∃ e ∈ t.entries, Compared k e ∧ ops = e.detected := by
  rw [lookup_detections] at h
  obtain ⟨e, he, rfl⟩ := Option.map_eq_some_iff.mp h
  exact ⟨e, List.mem_reverse.mp (List.mem_of_find?_eq_some he), by simpa using List.find?_some he, rfl⟩

theorem isSome_lookup_detections_iff :
    (t.detections.lookup k).isSome ↔ ∃ e ∈ t.entries, Compared k e := by
  rw [lookup_detections, Option.isSome_map, List.find?_isSome]
  simp

end Known

end Timeline

end Lineage
