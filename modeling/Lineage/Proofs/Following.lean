import Lineage.Proofs.Inquiry
import Lineage.Timeline
import Lineage.Proofs.Sorted
import Mathlib.Data.List.Induction
/-! # Following methods through one commit

The operations of a commit are applied to the followed methods one after the other, so one may find
or take away what another has put in. Where none does, they act as if all at once and their order
decides nothing. Main statements: `mem_follow`, `mem_together`, `followAll_eq_together`,
`tracked_look`.
-/
namespace Lineage

namespace Timeline

open Refactoring (Operation Detector)

variable {T : TextSet} {p q op : Operation} {ops others : List Operation} {k : String}

/-- The operation ends at a followed method. -/
def Reaches (T : TextSet) (op : Operation) : Prop := ∃ k ∈ methodKeys op.after, k ∈ T

/-- The operation leads from the methods it ends at to those it began with. -/
def LeadsBack (op : Operation) : Prop := op.kind.family ≠ .other

/-- What the operation ends at was not there before it. -/
def Replaces (op : Operation) : Prop :=
  op.kind.family = .rename ∨ op.kind.family = .move ∨ op.kind.family = .changeSignature

instance : Decidable (Reaches T op) :=
  inferInstanceAs (Decidable (∃ k ∈ methodKeys op.after, k ∈ T))

instance : Decidable (LeadsBack op) := inferInstanceAs (Decidable (op.kind.family ≠ .other))

instance : Decidable (Replaces op) :=
  inferInstanceAs (Decidable
    (op.kind.family = .rename ∨ op.kind.family = .move ∨ op.kind.family = .changeSignature))

theorem Replaces.leadsBack (h : Replaces op) : LeadsBack op := by
  rcases h with h | h | h <;> simp [LeadsBack, h]

def Removes (T : TextSet) (op : Operation) (k : String) : Prop :=
  Reaches T op ∧ Replaces op ∧ k ∈ methodKeys op.after

def Adds (T : TextSet) (op : Operation) (k : String) : Prop :=
  Reaches T op ∧ LeadsBack op ∧ k ∈ methodKeys op.before

def Gone (T : TextSet) (ops : List Operation) (k : String) : Prop := ∃ op ∈ ops, Removes T op k

/-- Some operation puts the name in. -/
def Former (T : TextSet) (ops : List Operation) (k : String) : Prop := ∃ op ∈ ops, Adds T op k

instance : Decidable (Removes T op k) :=
  inferInstanceAs (Decidable (Reaches T op ∧ Replaces op ∧ k ∈ methodKeys op.after))

instance : Decidable (Adds T op k) :=
  inferInstanceAs (Decidable (Reaches T op ∧ LeadsBack op ∧ k ∈ methodKeys op.before))

theorem gone_snoc : Gone T (ops ++ [q]) k ↔ Gone T ops k ∨ Removes T q k := by
  simp [Gone, or_and_right, exists_or]

theorem former_snoc : Former T (ops ++ [q]) k ↔ Former T ops k ∨ Adds T q k := by
  simp [Former, or_and_right, exists_or]

theorem mem_follow : k ∈ follow T op ↔ k ∈ T ∧ ¬Removes T op k ∨ Adds T op k := by
  have hreaches : (methodKeys op.after).any T.contains = true ↔ Reaches T op := by
    rw [List.any_eq_true]
    rfl
  by_cases hT : Reaches T op
  · simp only [follow, hreaches.mpr hT, Bool.not_true, Bool.false_eq_true, ↓reduceIte]
    cases hf : op.kind.family <;>
      simp [Removes, Adds, hT, LeadsBack, Replaces, hf, TextSet.mem_foldl_insert,
        TextSet.mem_foldl_erase]
  · simp [follow, mt hreaches.mp hT, Removes, Adds, hT]

/-- What is followed before some operations that act all at once. -/
def together (T : TextSet) (ops : List Operation) : TextSet :=
  let reached := ops.filter (Reaches T ·)
  let gone := (reached.filter (Replaces ·)).flatMap fun op => methodKeys op.after
  let former := (reached.filter (LeadsBack ·)).flatMap fun op => methodKeys op.before
  former.foldl .insert (gone.foldl .erase T)

theorem mem_together : k ∈ together T ops ↔
    k ∈ T ∧ ¬Gone T ops k ∨ Former T ops k := by
  simp only [Gone, Former, together, TextSet.mem_foldl_insert, TextSet.mem_foldl_erase,
    List.mem_flatMap, List.mem_filter, decide_eq_true_eq, and_assoc, Removes, Adds]

theorem together_perm (h : others.Perm ops) : together T others = together T ops :=
  TextSet.ext fun k => by simp only [mem_together, Gone, Former, h.mem_iff]

/-- The first operation does not get in the way of the second one. If the second looks for a name
that the first puts in, it is followed anyway and does not lose the name for good; if it looks for a
followed name that the first takes away, all that it leads back to is what the first leads back
to. -/
def Agrees (T : TextSet) (p q : Operation) : Prop :=
  LeadsBack q → ∀ k ∈ methodKeys q.after,
    (Adds T p k → Reaches T q ∧ (Replaces q → k ∈ methodKeys q.before)) ∧
      (k ∈ T → Removes T p k → methodKeys q.before ⊆ methodKeys p.before)

instance : Decidable (Agrees T p q) :=
  inferInstanceAs (Decidable (LeadsBack q → ∀ k ∈ methodKeys q.after,
    (Adds T p k → Reaches T q ∧ (Replaces q → k ∈ methodKeys q.before)) ∧
      (k ∈ T → Removes T p k → methodKeys q.before ⊆ methodKeys p.before)))

/-- No operation of the list gets in the way of another one. -/
def Undisturbed (T : TextSet) (ops : List Operation) : Prop :=
  ops.Pairwise fun p q => Agrees T p q ∧ Agrees T q p

instance : Decidable (Undisturbed T ops) :=
  inferInstanceAs (Decidable (ops.Pairwise fun p q => Agrees T p q ∧ Agrees T q p))

theorem Undisturbed.perm (h : Undisturbed T ops) (hp : others.Perm ops) : Undisturbed T others :=
  (hp.pairwise_iff fun hpq => hpq.symm).mpr h

theorem mem_follow_together (h : ∀ p ∈ ops, Agrees T p q) :
    k ∈ follow (together T ops) q ↔ k ∈ together T (ops ++ [q]) := by
  have hsnoc : k ∈ together T (ops ++ [q]) ↔
      k ∈ T ∧ ¬(Gone T ops k ∨ Removes T q k) ∨ Former T ops k ∨ Adds T q k := by
    rw [mem_together, gone_snoc, former_snoc]
  rw [mem_follow, hsnoc]
  by_cases hq : LeadsBack q
  · by_cases hT : Reaches T q
    · by_cases hS : Reaches (together T ops) q
      · -- what `q` takes away of what others have put in, it puts in again itself
        have hback : Former T ops k → Removes T q k → Adds T q k := by
          rintro ⟨p, hp, hadds⟩ hremoves
          exact ⟨hT, hq, ((h p hp hq k hremoves.2.2).1 hadds).2 hremoves.2.1⟩
        have hremoves : Removes (together T ops) q k ↔ Removes T q k := by simp [Removes, hS, hT]
        have hadds : Adds (together T ops) q k ↔ Adds T q k := by simp [Adds, hS, hT]
        rw [mem_together, hremoves, hadds]
        grind only
      · -- all that `q` looks for is gone, by an operation that leads back to the same names
        obtain ⟨j, hjq, hj⟩ := hT
        have hout : j ∉ together T ops := fun hj => hS ⟨j, hjq, hj⟩
        have hgone : Gone T ops j := by
          rw [mem_together] at hout
          grind only
        obtain ⟨p, hp, hremoves⟩ := hgone
        have hsub := (h p hp hq j hjq).2 hj hremoves
        have hadds : Adds T q k → Former T ops k := fun ha =>
          ⟨p, hp, hremoves.1, hremoves.2.1.leadsBack, hsub ha.2.2⟩
        have hkeeps : k ∈ together T ops → ¬Removes T q k := fun hk hr => hS ⟨k, hr.2.2, hk⟩
        have hnone : ¬Removes (together T ops) q k ∧ ¬Adds (together T ops) q k :=
          ⟨fun hr => hS hr.1, fun ha => hS ha.1⟩
        rw [mem_together] at hkeeps ⊢
        grind only
    · have hS : ¬Reaches (together T ops) q := by
        rintro ⟨j, hjq, hj⟩
        rcases mem_together.mp hj with ⟨hj, -⟩ | ⟨p, hp, hadds⟩
        · exact hT ⟨j, hjq, hj⟩
        · exact hT ((h p hp hq j hjq).1 hadds).1
      simp only [Removes, Adds, hS, hT, false_and, not_false_eq_true, and_true, or_false,
        mem_together]
  · have hs : ¬Replaces q := fun hs => hq hs.leadsBack
    simp only [Removes, Adds, hq, hs, false_and, and_false, not_false_eq_true, and_true, or_false,
      mem_together]

theorem followAll_eq_together (h : Undisturbed T ops) : followAll T ops = together T ops := by
  induction ops using List.reverseRecOn with
  | nil => exact TextSet.ext fun k => by simp [followAll, mem_together, Gone, Former]
  | append_singleton ops q ih =>
    obtain ⟨hops, -, hq⟩ := List.pairwise_append.mp h
    have hstep : followAll T (ops ++ [q]) = follow (followAll T ops) q := List.foldl_append
    rw [hstep, ih hops]
    exact TextSet.ext fun k => mem_follow_together fun p hp => (hq p hp q List.mem_cons_self).1

/-! ## The walk -/

section Look
variable {σ : Type} {h : History σ} {d : Detector σ} {w : Walk} {parent : Commit}
  {s : σ × Diagnostics}

/-- The operations of the current commit on followed methods, as the detector finds them. -/
def matched (d : Detector σ) (w : Walk) (parent : Commit) (s : σ × Diagnostics) : List Operation :=
  (Inquiry.detect d parent w.current s).1.filter (touches w.tracked)

theorem tracked_look :
    (look h d w parent s).1.tracked = followAll w.tracked (matched d w parent s) := by
  unfold look matched
  simp only [bind, StateT.bind, pure]
  obtain ⟨detected, s₁⟩ := Inquiry.detect d parent w.current s
  dsimp only
  split
  · rename_i hempty
    rw [List.isEmpty_iff.mp hempty]
    simp only [StateT.bind]
    obtain ⟨isRelevant, s₂⟩ := changesTracked h w.current w.tracked s₁
    cases isRelevant <;> rfl
  · rfl

/-- What is followed at the parent of a commit: what the operations of the commit leave when they
act all at once, in whatever order they are listed. -/
structure PassesOn (h : History σ) (d : Detector σ) (w : Walk) (parent : Commit)
    (s : σ × Diagnostics) : Prop where
  tracked : (look h d w parent s).1.tracked = together w.tracked (matched d w parent s)
  order : ∀ (d' : Detector σ) (s' : σ × Diagnostics),
    (matched d' w parent s').Perm (matched d w parent s) →
      (look h d' w parent s').1.tracked = (look h d w parent s).1.tracked

theorem passesOn_look (hu : Undisturbed w.tracked (matched d w parent s)) :
    PassesOn h d w parent s where
  tracked := tracked_look.trans (followAll_eq_together hu)
  order d' s' hp := by
    rw [tracked_look, tracked_look, followAll_eq_together hu, followAll_eq_together (hu.perm hp),
      together_perm hp]

end Look

section Sample

/-- A refactoring of methods that stood in the class `A` before it and after it. -/
def refactoring (kind : Refactoring.Kind) (before after : String) : Operation where
  kind := kind
  before := [{ filePath := "A.java", startLine := 3, endLine := 5, element := some before }]
  after := [{ filePath := "A.java", startLine := 3, endLine := 5, element := some after }]

def unknown : History Unit where
  info reference := pure (.error (.unresolved reference))
  parent _ := pure (.ok none)
  linear _ _ := pure (.ok [])
  changedFiles _ := pure (.ok [])
  checkout _ := pure (.ok ())
  restore := pure (.ok ())

def finding (ops : List Operation) : Detector Unit := ⟨"found", fun _ _ => pure (.ok ops, [])⟩

def following (elements : List String) : Walk :=
  ⟨.new "c1" 1, .ofList (elements.map ("A.java::" ++ ·)), 0, []⟩

/-- Two operations tell of the method `baz`, and `qux` was taken out of another one. -/
def retold : List Operation :=
  [refactoring .renameMethod "foo()" "baz()", refactoring .extractMethod "bar()" "qux()",
    refactoring .changeReturnType "foo()" "baz()"]

theorem passesOn_retold : Undisturbed (following ["baz()", "qux()"]).tracked retold ∧
    (look unknown (finding retold) (following ["baz()", "qux()"]) (.new "c0" 0)
      ((), .empty)).1.tracked = (following ["bar()", "foo()", "qux()"]).tracked ∧
    PassesOn unknown (finding retold) (following ["baz()", "qux()"]) (.new "c0" 0)
      ((), .empty) := by
  have hmatched : matched (finding retold) (following ["baz()", "qux()"]) (.new "c0" 0)
      ((), .empty) = retold := by decide +kernel
  have hu : Undisturbed (following ["baz()", "qux()"]).tracked retold := by decide +kernel
  exact ⟨hu, by decide +kernel, passesOn_look (hmatched ▸ hu)⟩

def exchanged : List Operation :=
  [refactoring .renameMethod "foo()" "bar()", refactoring .renameMethod "bar()" "foo()"]

/-- The second renaming takes away what the first one has put in, so only one of the methods is
still followed, and which one depends on the order. -/
theorem not_passesOn_exchanged :
    together (following ["foo()", "bar()"]).tracked exchanged =
      (following ["foo()", "bar()"]).tracked ∧
    (look unknown (finding exchanged) (following ["foo()", "bar()"]) (.new "c0" 0)
      ((), .empty)).1.tracked = (following ["bar()"]).tracked ∧
    (look unknown (finding exchanged.reverse) (following ["foo()", "bar()"]) (.new "c0" 0)
      ((), .empty)).1.tracked = (following ["foo()"]).tracked ∧
    ¬PassesOn unknown (finding exchanged) (following ["foo()", "bar()"]) (.new "c0" 0)
      ((), .empty) := by
  have htogether : together (following ["foo()", "bar()"]).tracked exchanged =
      (following ["foo()", "bar()"]).tracked := by decide +kernel
  have hlook : (look unknown (finding exchanged) (following ["foo()", "bar()"]) (.new "c0" 0)
      ((), .empty)).1.tracked = (following ["bar()"]).tracked := by decide +kernel
  have hmatched : matched (finding exchanged) (following ["foo()", "bar()"]) (.new "c0" 0)
      ((), .empty) = exchanged := by decide +kernel
  have hne : (following ["bar()"]).tracked ≠ (following ["foo()", "bar()"]).tracked := by
    decide +kernel
  refine ⟨htogether, hlook, by decide +kernel, fun h => hne ?_⟩
  rw [← hlook, h.tracked, hmatched, htogether]

end Sample

end Timeline

end Lineage
