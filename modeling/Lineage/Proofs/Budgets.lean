import Lineage.Proofs.Descent
/-! # Budgets of timelines

If no answer depends on the world, two walks from one target take the same steps until the budget of
one of them is used up, and the other one goes on from there. So a larger budget leaves the entries
as they are and puts older ones before them. Main statements: `relates_step`, `relates_walk`,
`prolonged_build`.
-/
namespace Lineage

open Refactoring (Operation Detector)

variable {σ α β : Type}

/-! ## Two runs -/

/-- Whatever the two worlds are, the answers of the two works are related. -/
def Relates (work work' : Inquiry σ α) (R : α → α → Prop) : Prop :=
  ∀ w w', R (work w).1 (work' w').1

section Relates
variable {work work' : Inquiry σ α} {f f' : α → Inquiry σ β} {R : α → α → Prop} {Q : β → β → Prop}

theorem relates_pure {a a' : α} (h : R a a') : Relates (pure a : Inquiry σ α) (pure a') R :=
  fun _ _ => h

theorem Relates.bind (hw : Relates work work' R) (hf : ∀ a a', R a a' → Relates (f a) (f' a') Q) :
    Relates (work >>= f) (work' >>= f') Q := fun w w' => hf _ _ (hw w w') _ _

theorem Relates.and_yields {P : α → Prop} (hw : Relates work work' R) (hy : Yields work' P) :
    Relates work work' fun a a' => R a a' ∧ P a' := fun w w' => ⟨hw w w', hy w'⟩

theorem relates_pure_left {a : α} (hy : Yields work' (R a)) : Relates (pure a) work' R :=
  fun _ w' => hy w'

end Relates

/-- What is told of a commit is the same in every world. -/
structure History.Steady (h : History σ) : Prop where
  info : ∀ reference s s', (h.info reference s).1 = (h.info reference s').1
  parents : h.SteadyParents
  changedFiles : ∀ id s s', (h.changedFiles id s).1 = (h.changedFiles id s').1

/-- The second budget goes at least as far back; days that are not positive set no limit. -/
structure Budget.Within (b b' : Budget) : Prop where
  depth : b.depth ≤ b'.depth
  days : 0 < b'.days → 0 < b.days ∧ b.days ≤ b'.days

theorem Budget.Within.isTooOld {b b' : Budget} (hb : b.Within b') {target c : Commit}
    (h : b'.isTooOld target c = true) : b.isTooOld target c = true := by
  simp only [Budget.isTooOld, Bool.and_eq_true, decide_eq_true_eq] at h ⊢
  obtain ⟨hpos, hle⟩ := hb.days h.1
  exact ⟨hpos, Int.lt_of_le_of_lt hle h.2⟩

namespace Timeline

/-! ## The walk -/

/-- The walk has gone on: entries were put before those it had. -/
structure Walk.Extends (w w' : Walk) : Prop where
  entries : w.entries <:+ w'.entries
  analyzed : w.analyzed ≤ w'.analyzed

section Walk
variable {h : History σ} {d : Detector σ} {b b' : Budget} {target : Commit} {w w' w'' : Walk}

theorem Walk.Extends.refl (w : Walk) : w.Extends w := ⟨List.suffix_refl _, Nat.le_refl _⟩

theorem Walk.Extends.trans (hw : w.Extends w') (hw' : w'.Extends w'') : w.Extends w'' :=
  ⟨hw.entries.trans hw'.entries, Nat.le_trans hw.analyzed hw'.analyzed⟩

theorem Looks.extends {p : Commit} (hl : Looks d w p w') : w.Extends w' := by
  cases hl with
  | kept s hs => exact ⟨List.suffix_cons _ _, Nat.le_succ _⟩
  | passed => exact ⟨List.suffix_refl _, Nat.le_succ _⟩

theorem extends_step (h : History σ) (d : Detector σ) (b : Budget) (target : Commit) (w : Walk) :
    Yields (step h d b target w) fun next => ∀ w' ∈ next, w.Extends w' := by
  intro s w' hw'
  obtain ⟨p, -, -, hl⟩ := yields_step h d b target w s w' hw'
  exact hl.extends

theorem extends_walk (h : History σ) (d : Detector σ) (b : Budget) (target : Commit) (n : Nat)
    (w : Walk) : Yields (walk h d b target n w) w.Extends :=
  yields_walk (fun _ _ _ _ hw _ hl => hw.trans hl.extends) b target n (.refl w)

variable (hh : h.Steady) (hd : d.Steady)
include hh hd

theorem composes_relates : Composes h d fun _ work => Relates work work Eq where
  of_pure _ := relates_pure rfl
  of_bind hw hf := hw.bind fun a _ ha => ha ▸ hf a
  of_parent id s s' := hh.parents id s.1 s'.1
  of_changedFiles id s s' := hh.changedFiles id s.1 s'.1
  of_detect older newer s s' :=
    congrArg Refactoring.Detection.operations (hd older newer older newer s.1 s'.1 rfl rfl)

theorem relates_step (hb : b.Within b') (w : Walk) :
    Relates (step h d b target w) (step h d b' target w) fun o o' => o = none ∨ o = o' := by
  cases hold : b.isTooOld target w.current with
  | true =>
    unfold step
    rw [hold]
    exact relates_pure_left fun _ => .inl rfl
  | false =>
    have hold' : b'.isTooOld target w.current = false :=
      Bool.eq_false_iff.mpr fun h => Bool.false_ne_true (hold.symm.trans (hb.isTooOld h))
    have hsame : step h d b' target w = step h d b target w := by
      unfold step
      rw [hold, hold']
    rw [hsame]
    exact fun s s' => .inr ((composes_relates hh hd).step b target w s s')

theorem relates_walk (hb : b.Within b') {n n' : Nat} (hn : n ≤ n') (w : Walk) :
    Relates (walk h d b target n w) (walk h d b' target n' w) Walk.Extends := by
  -- The induction is on the smaller number of steps; both walks stand at the same place.
  induction n generalizing n' w with
  | zero => exact relates_pure_left (extends_walk h d b' target n' w)
  | succ n ih =>
    obtain ⟨n', rfl⟩ : ∃ m, n' = m + 1 := ⟨n' - 1, by omega⟩
    refine ((relates_step hh hd hb w).and_yields (extends_step h d b' target w)).bind ?_
    rintro o o' ⟨rfl | rfl, hnext⟩
    · -- The smaller budget is used up here, and the other walk may go on.
      cases o' with
      | none => exact relates_pure (.refl w)
      | some w' =>
        exact relates_pure_left fun s => (hnext w' rfl).trans (extends_walk h d b' target n' w' s)
    · cases o with
      | none => exact relates_pure (.refl w)
      | some w' => exact ih (Nat.le_of_succ_le_succ hn) w'

/-! ## The timeline -/

theorem relates_ofTarget (hb : b.Within b') (target : Commit) :
    Relates (ofTarget h d b target) (ofTarget h d b' target) fun t t' =>
      t.entries <:+ t'.entries ∧ t.analyzed ≤ t'.analyzed := by
  have halone : ∀ e : TimelineEntry, (alone e).entries <:+ (alone e).entries ∧
      (alone e).analyzed ≤ (alone e).analyzed := fun _ => ⟨List.suffix_refl _, Nat.le_refl _⟩
  refine ((composes_relates hh hd).of_parent target.id).bind ?_
  rintro answer _ rfl
  match answer with
  | .ok none => exact relates_pure (halone _)
  | .error e => exact relates_pure (halone _)
  | .ok (some parent) =>
    refine ((composes_relates hh hd).of_detect parent target).bind ?_
    rintro ops _ rfl
    dsimp only
    split
    · exact relates_pure (halone _)
    · refine (relates_walk hh hd hb hb.depth _).bind fun w w' hw => relates_pure ?_
      exact ⟨hw.entries, hw.analyzed⟩

end Walk

/-- The second timeline goes further back: its entries end with those of the first one, and the
commits before them are ancestors of these. -/
structure Prolongs (h : History σ) (t t' : Timeline) : Prop where
  entries : ∃ older, t'.entries = older ++ t.entries ∧
    ∀ e ∈ older, ∀ e' ∈ t.entries, h.Descends e.commit.id e'.commit.id
  analyzed : t.analyzed ≤ t'.analyzed

/-- Two timelines of one reference: it leads nowhere for both, or the second prolongs the first. -/
inductive Prolonged (h : History σ) :
    Except RepositoryError Timeline → Except RepositoryError Timeline → Prop
  | unresolved (e : RepositoryError) : Prolonged h (.error e) (.error e)
  | resolved {t t' : Timeline} (ht : Prolongs h t t') : Prolonged h (.ok t) (.ok t')

section Build
variable {h : History σ} {d : Detector σ} {b b' : Budget}

theorem prolongs_of_suffix {t t' : Timeline} (hsuffix : t.entries <:+ t'.entries)
    (ha : t.analyzed ≤ t'.analyzed) (hdescent : 2 ≤ t'.entries.length →
      t'.entries.Pairwise fun a b => h.Descends a.commit.id b.commit.id) : Prolongs h t t' := by
  obtain ⟨older, hold⟩ := hsuffix
  refine ⟨⟨older, hold.symm, fun e he e' he' => ?_⟩, ha⟩
  have hlen : 2 ≤ t'.entries.length := by
    rw [← hold, List.length_append]
    exact Nat.add_le_add (List.length_pos_of_mem he) (List.length_pos_of_mem he')
  have hpairwise := hdescent hlen
  rw [← hold] at hpairwise
  exact (List.pairwise_append.mp hpairwise).2.2 e he e' he'

theorem prolonged_build (hh : h.Steady) (hd : d.Steady) (hb : b.Within b') (reference : String)
    (s s' : σ × Diagnostics) :
    Prolonged h (build h d b reference s).1 (build h d b' reference s').1 := by
  have hask : Relates (Inquiry.ask (h.info reference)) (Inquiry.ask (h.info reference)) Eq :=
    fun s s' => hh.info reference s.1 s'.1
  have hbuild : Relates (build h d b reference) (build h d b' reference) (Prolonged h) := by
    refine hask.bind ?_
    rintro answer _ rfl
    cases answer with
    | error e => exact relates_pure (.unresolved e)
    | ok target =>
      refine ((relates_ofTarget hh hd hb target).and_yields
        (yields_ofTarget hd hh.parents b' target)).bind fun t t' ht => relates_pure ?_
      obtain ⟨⟨hsuffix, hanalyzed⟩, hremembers⟩ := ht
      exact .resolved (prolongs_of_suffix hsuffix hanalyzed fun hlen => (hremembers hlen).2)
  exact hbuild s s'

section Sample

def clocks : History Unit where
  info _ := pure (.ok (.new "c4" (40 * 86400)))
  parent id := pure <| match [("c4", Commit.new "c3" (39 * 86400)), ("c3", .new "c2" (10 * 86400)),
      ("c2", .new "c1" (38 * 86400)), ("c1", .new "c0" 0)].lookup id with
    | some parent => .ok (some parent)
    | none => .error (.missingParent id)
  linear _ _ := pure (.ok [])
  changedFiles _ := pure (.ok ["A.java"])
  checkout _ := pure (.ok ())
  restore := pure (.ok ())

def rename : Operation where
  kind := .renameMethod
  before := [{ filePath := "A.java", startLine := 3, endLine := 5, element := some "foo()" }]
  after := [{ filePath := "A.java", startLine := 3, endLine := 5, element := some "baz()" }]

/-- The method is renamed in the last commit; at `c2` the detector cannot be run. -/
def renamer : Detector Unit where
  name := "found"
  detect _ newer := pure <|
    if newer.id = "c2" then .failed (.launch "found")
    else (.ok (if newer.id = "c4" then [rename] else []), [])

/-- Within twenty days of the target the walk stops at the slow clock; without a limit it passes it
and comes to a commit that is younger. -/
theorem prolonged_clocks : clocks.Steady ∧ renamer.Steady ∧ Budget.Within ⟨5, 20⟩ ⟨6, 0⟩ ∧
    ((build clocks renamer ⟨5, 20⟩ "main" ((), .empty)).1.map
      fun t => (t.commits.map (·.id), t.analyzed)).toOption = some (["c3", "c4"], 1) ∧
    ((build clocks renamer ⟨6, 0⟩ "main" ((), .empty)).1.map
      fun t => (t.commits.map (·.id), t.analyzed)).toOption = some (["c1", "c2", "c3", "c4"], 3) ∧
    Prolonged clocks (build clocks renamer ⟨5, 20⟩ "main" ((), .empty)).1
      (build clocks renamer ⟨6, 0⟩ "main" ((), .empty)).1 := by
  have hh : clocks.Steady :=
    ⟨fun _ _ _ => rfl, fun _ _ _ => rfl, fun _ _ _ => rfl⟩
  have hd : renamer.Steady := by
    intro a b a' b' s s' _ hb
    simp only [renamer, hb]
  have hwithin : Budget.Within ⟨5, 20⟩ ⟨6, 0⟩ := ⟨by decide, by decide⟩
  exact ⟨hh, hd, hwithin, by decide +kernel, by decide +kernel,
    prolonged_build hh hd hwithin "main" ((), .empty) ((), .empty)⟩

end Sample

end Build

end Timeline

end Lineage
