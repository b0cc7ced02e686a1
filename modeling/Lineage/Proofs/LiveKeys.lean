import Lineage.Proofs.Chain
/-! # Live keys of an aggregated chain

A node under the old key of a rekey moves to the new key only if the aggregate does not know the new
key. If it does, because an earlier snapshot had an entity of that key, the node stays behind with
the status it had: it is stranded until a snapshot has its key again. The live keys are those of the
last snapshot and the stranded ones. Main statements: `ledger_aggregate`, `mem_liveKeys_iff`.
-/
namespace Lineage

/-- The keys of the nodes that do not count as deleted. -/
def Aggregate.liveKeys (a : Aggregate) : List EntityKey :=
  (a.graph.nodes.filter (·.status ≠ some .deleted)).map Node.key

namespace Chain

open Refactoring (Operation)

/-- The keys that aggregation has a node for: all keys seen so far but those that were moved away. -/
def known : Chain → List EntityKey
  | start _ => []
  | next c ops s =>
    (c.known ++ c.last.graph.keys ++ s.graph.keys).filter fun k =>
      ∀ r ∈ (c.matching ops s).rekeys, r.older = k → r.newer ∈ c.known

/-- The old keys whose nodes could not be moved, as long as no snapshot has them again. -/
def stranded : Chain → List EntityKey
  | start _ => []
  | next c ops s =>
    c.stranded.filter (· ∉ s.graph.keys) ++
      ((c.matching ops s).rekeys.filter (·.newer ∈ c.known)).map Rekey.older

variable {d : String} {c : Chain} {ops : List Operation} {s : Snapshot} {k : EntityKey}

theorem mem_known_next_iff : k ∈ (c.next ops s).known ↔
    (k ∈ c.known ∨ k ∈ c.last.graph.keys ∨ k ∈ s.graph.keys) ∧
      ∀ r ∈ (c.matching ops s).rekeys, r.older = k → r.newer ∈ c.known := by
  simp only [known, List.mem_filter, List.mem_append, decide_eq_true_eq, or_assoc]

theorem mem_stranded_next_iff : k ∈ (c.next ops s).stranded ↔
    (k ∈ c.stranded ∧ k ∉ s.graph.keys) ∨
      ∃ r ∈ (c.matching ops s).rekeys, r.newer ∈ c.known ∧ r.older = k := by
  simp only [stranded, List.mem_append, List.mem_filter, List.mem_map, decide_eq_true_eq, and_assoc]

/-- What is true after every fold. -/
structure Ledger (c : Chain) (a : Aggregate) : Prop where
  known : ∀ k, (a.graph.entity? k).isSome ↔ k ∈ c.known
  /-- The first snapshot is not known before the first pair is folded. -/
  last : c.known = [] ∨ ∀ k ∈ c.last.graph.keys, k ∈ c.known
  stranded_known : ∀ k ∈ c.stranded, k ∈ c.known
  stranded_gone : ∀ k ∈ c.stranded, k ∉ c.last.graph.keys
  live : ∀ k n, a.graph.entity? k = some n →
    (n.status ≠ some .deleted ↔ k ∈ c.last.graph.keys ∨ k ∈ c.stranded)

theorem ledger_start (d : String) (s : Snapshot) : Ledger (start s) ((start s).aggregate d) where
  known k := by
    have hnone : ((start s).aggregate d).graph.entity? k = none := rfl
    rw [hnone]
    simp [Chain.known]
  last := .inl rfl
  stranded_known k hk := absurd hk List.not_mem_nil
  stranded_gone k hk := absurd hk List.not_mem_nil
  live k n hn := by
    have hnone : ((start s).aggregate d).graph.entity? k = none := rfl
    rw [hnone] at hn
    cases hn

section Step
variable (h : (c.next ops s).Parsed) (hl : Ledger c (c.aggregate d))
include h

theorem rekey_eq_of_older_eq {r r' : Rekey} (hr : r ∈ (c.matching ops s).rekeys)
    (hr' : r' ∈ (c.matching ops s).rekeys) (ho : r.older = r'.older) : r = r' := by
  have h1 := h.of_next.last.toWellFormed
  have ha := Matching.admissible_rekeys h1 h.last.toWellFormed ops
  exact ha.eq_of_older_eq h1 hr hr' ho

include hl

/-- A stranded key was known before: it belongs to the snapshot before the pair. -/
theorem older_known {r : Rekey} (hr : r ∈ (c.matching ops s).rekeys) (hn : r.newer ∈ c.known) :
    r.older ∈ c.known := by
  rcases hl.last with hnil | hlast
  · rw [hnil] at hn
    cases hn
  · exact hlast _ (keys_of_mem_rekeys h hr).1

variable (hfit : ((c.next ops s).aggregate d).Fits)
include hfit

omit hl in
theorem status_of_mem_merged (hk : k ∈ c.last.graph.keys ∨ k ∈ s.graph.keys)
    (hr : ∀ r ∈ (c.matching ops s).rekeys, r.older ≠ k) :
    ∃ n, ((c.next ops s).aggregate d).graph.entity? k = some n ∧
      (n.status ≠ some .deleted ↔ k ∈ s.graph.keys) := by
  obtain ⟨n, i, rfl, hn, he⟩ := entity?_of_mem_merged h hfit hk hr
  refine ⟨_, he, ?_⟩
  rw [Aggregate.status_latest]
  refine hn.status_ne_deleted_iff h.last.toWellFormed ?_
  rintro _ ⟨r, hr', rfl⟩
  exact (keys_of_mem_rekeys h hr').2.1

theorem entity?_of_unknown_newer {r : Rekey} (hr : r ∈ (c.matching ops s).rekeys)
    (hn : r.newer ∉ c.known) : ((c.next ops s).aggregate d).graph.entity? r.older = none := by
  refine entity?_of_moved h hfit hr ?_
  rw [← Option.not_isSome_iff_eq_none, hl.known]
  exact hn

theorem entity?_of_known_newer {r : Rekey} (hr : r ∈ (c.matching ops s).rekeys)
    (hn : r.newer ∈ c.known) :
    ((c.next ops s).aggregate d).graph.entity? r.older = (c.aggregate d).graph.entity? r.older := by
  refine entity?_of_not_mem_merged h hfit ?_ ?_
  · intro hmem
    exact ((Merge.mem_keys_run_iff h.of_next.last h.last).mp hmem).2 r hr rfl
  · intro r' hr' ho
    obtain rfl := rekey_eq_of_older_eq h hr' hr ho
    exact (hl.known _).mpr hn

/-- What folding the next pair does to the node under a key: a rekey leaves it stranded or moves it
away, or the pair renews it, or the pair has nothing to do with it. -/
inductive KeyStep (d : String) (c : Chain) (ops : List Operation) (s : Snapshot) : EntityKey → Prop
  | stranded {r : Rekey} (hr : r ∈ (c.matching ops s).rekeys) (hn : r.newer ∈ c.known)
      (he : ((c.next ops s).aggregate d).graph.entity? r.older =
        (c.aggregate d).graph.entity? r.older) : KeyStep d c ops s r.older
  | moved {r : Rekey} (hr : r ∈ (c.matching ops s).rekeys) (hn : r.newer ∉ c.known)
      (he : ((c.next ops s).aggregate d).graph.entity? r.older = none) : KeyStep d c ops s r.older
  | renewed {k : EntityKey} {n : Node} (hr : ∀ r ∈ (c.matching ops s).rekeys, r.older ≠ k)
      (hk : k ∈ c.last.graph.keys ∨ k ∈ s.graph.keys)
      (he : ((c.next ops s).aggregate d).graph.entity? k = some n)
      (hs : n.status ≠ some .deleted ↔ k ∈ s.graph.keys) : KeyStep d c ops s k
  | kept {k : EntityKey} (hr : ∀ r ∈ (c.matching ops s).rekeys, r.older ≠ k)
      (h1 : k ∉ c.last.graph.keys) (h2 : k ∉ s.graph.keys)
      (he : ((c.next ops s).aggregate d).graph.entity? k = (c.aggregate d).graph.entity? k) :
      KeyStep d c ops s k

theorem keyStep_next (k : EntityKey) : KeyStep d c ops s k := by
  -- Old keys of rekeys have no merged node, so they are told apart from the keys of the pair first.
  by_cases hr : ∃ r ∈ (c.matching ops s).rekeys, r.older = k
  · obtain ⟨r, hr, rfl⟩ := hr
    by_cases hn : r.newer ∈ c.known
    · exact .stranded hr hn (entity?_of_known_newer h hl hfit hr hn)
    · exact .moved hr hn (entity?_of_unknown_newer h hl hfit hr hn)
  · have hne : ∀ r ∈ (c.matching ops s).rekeys, r.older ≠ k := fun r hmem ho => hr ⟨r, hmem, ho⟩
    by_cases hk : k ∈ c.last.graph.keys ∨ k ∈ s.graph.keys
    · obtain ⟨n, hn, hs⟩ := status_of_mem_merged h hfit hk hne
      exact .renewed hne hk hn hs
    · obtain ⟨h1, h2⟩ := not_or.mp hk
      exact .kept hne h1 h2 (entity?_of_not_mem h hfit h1 h2)

theorem Ledger.known_next :
    (((c.next ops s).aggregate d).graph.entity? k).isSome ↔ k ∈ (c.next ops s).known := by
  rw [mem_known_next_iff]
  cases keyStep_next h hl hfit k with
  | @stranded r hr hn he =>
    rw [he, hl.known]
    refine iff_of_true (older_known h hl hr hn) ⟨.inl (older_known h hl hr hn), fun r' hr' ho => ?_⟩
    rwa [rekey_eq_of_older_eq h hr' hr ho]
  | @moved r hr hn he =>
    rw [he]
    exact iff_of_false Bool.false_ne_true fun hk => hn (hk.2 r hr rfl)
  | renewed hr hk he =>
    rw [he]
    exact iff_of_true rfl ⟨.inr hk, fun r hmem ho => absurd ho (hr r hmem)⟩
  | kept hr h1 h2 he =>
    rw [he, hl.known]
    simp only [h1, h2, or_false]
    exact (and_iff_left fun r hmem ho => absurd ho (hr r hmem)).symm

theorem Ledger.live_next {n : Node}
    (hn : ((c.next ops s).aggregate d).graph.entity? k = some n) :
    n.status ≠ some .deleted ↔ k ∈ s.graph.keys ∨ k ∈ (c.next ops s).stranded := by
  rw [mem_stranded_next_iff]
  cases keyStep_next h hl hfit k with
  | @stranded r hr hk he =>
    rw [he] at hn
    rw [hl.live _ n hn]
    exact iff_of_true (.inl (keys_of_mem_rekeys h hr).1) (.inr (.inr ⟨r, hr, hk, rfl⟩))
  | moved _ _ he =>
    rw [he] at hn
    cases hn
  | renewed hr hk he hs =>
    rw [hn, Option.some.injEq] at he
    rw [he, hs]
    refine ⟨.inl, ?_⟩
    -- A stranded key of the pair would be in the older snapshot, which strands none of its own.
    rintro (h2 | ⟨hstranded, h2⟩ | ⟨r, hmem, -, ho⟩)
    · exact h2
    · exact absurd (hk.resolve_right h2) (hl.stranded_gone k hstranded)
    · exact absurd ho (hr r hmem)
  | kept hr h1 h2 he =>
    rw [he] at hn
    have hno : ¬∃ r ∈ (c.matching ops s).rekeys, r.newer ∈ c.known ∧ r.older = k := by
      rintro ⟨r, hmem, -, ho⟩
      exact hr r hmem ho
    rw [hl.live k n hn]
    simp only [h1, h2, hno, false_or, or_false, not_false_eq_true, and_true]

theorem Ledger.next : Ledger (c.next ops s) ((c.next ops s).aggregate d) where
  known _ := hl.known_next h hfit
  last := by
    refine .inr fun k hk => mem_known_next_iff.mpr ⟨.inr (.inr hk), fun r hr ho => ?_⟩
    exact absurd (ho ▸ hk) (keys_of_mem_rekeys h hr).2.2
  stranded_known k hk := by
    rcases mem_stranded_next_iff.mp hk with ⟨hk, -⟩ | ⟨r, hr, hn, rfl⟩
    · refine mem_known_next_iff.mpr ⟨.inl (hl.stranded_known k hk), fun r hr ho => ?_⟩
      exact absurd (ho ▸ (keys_of_mem_rekeys h hr).1) (hl.stranded_gone k hk)
    · refine mem_known_next_iff.mpr ⟨.inl (older_known h hl hr hn), fun r' hr' ho => ?_⟩
      rwa [rekey_eq_of_older_eq h hr' hr ho]
  stranded_gone k hk := by
    rcases mem_stranded_next_iff.mp hk with ⟨-, hk⟩ | ⟨r, hr, -, rfl⟩
    · exact hk
    · exact (keys_of_mem_rekeys h hr).2.2
  live _ _ hn := hl.live_next h hfit hn

end Step

theorem ledger_aggregate (h : c.Parsed) (hfit : (c.aggregate d).Fits) : Ledger c (c.aggregate d) := by
  induction c with
  | start s => exact ledger_start d s
  | next c ops s ih => exact (ih h.of_next (fits_of_next hfit)).next h hfit

theorem mem_liveKeys_aggregate_iff (h : c.Parsed) (hfit : (c.aggregate d).Fits) :
    k ∈ (c.aggregate d).liveKeys ↔
      k ∈ c.known ∧ (k ∈ c.last.graph.keys ∨ k ∈ c.stranded) := by
  have hl := ledger_aggregate h hfit
  rw [Aggregate.liveKeys, List.mem_map]
  simp only [List.mem_filter, decide_eq_true_eq]
  constructor
  · rintro ⟨n, ⟨hn, hlive⟩, rfl⟩
    have he := (mem_nodes_aggregate_iff h hfit).mp hn
    exact ⟨(hl.known n.key).mp (by rw [he]; rfl), (hl.live n.key n he).mp hlive⟩
  · rintro ⟨hk, hlive⟩
    obtain ⟨n, hn⟩ := Option.isSome_iff_exists.mp ((hl.known k).mpr hk)
    obtain ⟨hmem, rfl⟩ := Aggregate.mem_of_entity?_eq_some hn
    exact ⟨n, ⟨hmem, (hl.live n.key n hn).mpr hlive⟩, rfl⟩

section Live
variable (h : (c.next ops s).Parsed) (hfit : ((c.next ops s).aggregate d).Fits)
include h hfit

theorem mem_liveKeys_iff : k ∈ ((c.next ops s).aggregate d).liveKeys ↔
    k ∈ s.graph.keys ∨ k ∈ (c.next ops s).stranded := by
  have hl := ledger_aggregate h hfit
  rw [mem_liveKeys_aggregate_iff h hfit]
  refine ⟨fun hk => hk.2, fun hk => ⟨?_, hk⟩⟩
  rcases hk with hk | hk
  · exact mem_known_next_iff.mpr ⟨.inr (.inr hk), fun r hr ho =>
      absurd (ho ▸ hk) (keys_of_mem_rekeys h hr).2.2⟩
  · exact hl.stranded_known k hk

theorem liveKeys_eq_keys_last_iff :
    (∀ k, k ∈ ((c.next ops s).aggregate d).liveKeys ↔ k ∈ s.graph.keys) ↔
      (c.next ops s).stranded = [] := by
  have hl := ledger_aggregate h hfit
  rw [List.eq_nil_iff_forall_not_mem]
  constructor
  · intro hlive k hk
    have hlast := (hlive k).mp ((mem_liveKeys_iff h hfit).mpr (.inr hk))
    exact hl.stranded_gone k hk hlast
  · intro hnil k
    rw [mem_liveKeys_iff h hfit]
    simp only [hnil k, or_false]

end Live

section Samples
open Lineage.Graph (ofMethods)

def renamedOnce : Chain :=
  ((start ⟨ofMethods [("foo", 3)], .new "c0" 0⟩).next [] ⟨ofMethods [("foo", 3)], .new "c1" 1⟩).next
    [.renameAt 3] ⟨ofMethods [("bar", 3)], .new "c2" 2⟩

theorem liveKeys_renamedOnce : renamedOnce.Parsed ∧ (renamedOnce.aggregate defaultDetector).Fits ∧
    renamedOnce.stranded = [] ∧ ∀ k, k ∈ (renamedOnce.aggregate defaultDetector).liveKeys ↔
      k ∈ renamedOnce.last.graph.keys := by
  have hp : renamedOnce.Parsed := by
    simp only [Parsed, renamedOnce, snapshots]
    simp [Graph.parsed_ofMethods]
  have hf : (renamedOnce.aggregate defaultDetector).Fits := by
    unfold Aggregate.Fits
    decide +kernel
  have hs : renamedOnce.stranded = [] := by decide +kernel
  exact ⟨hp, hf, hs, (liveKeys_eq_keys_last_iff hp hf).mpr hs⟩

/-- A method that takes over the name of another one that was removed before. -/
def renamedBack : Chain :=
  ((start ⟨ofMethods [("bar", 3)], .new "c0" 0⟩).next [] ⟨ofMethods [("foo", 3)], .new "c1" 1⟩).next
    [.renameAt 3] ⟨ofMethods [("bar", 3)], .new "c2" 2⟩

/-- The node of `foo` stays although the last snapshot does not have it. -/
theorem liveKeys_renamedBack : renamedBack.Parsed ∧
    (renamedBack.snapshots.map (·.commit.id)).Nodup ∧
    (renamedBack.aggregate defaultDetector).Fits ∧
    ¬∀ k, k ∈ (renamedBack.aggregate defaultDetector).liveKeys ↔
      k ∈ renamedBack.last.graph.keys := by
  refine ⟨?_, by decide, ?_, fun hlive => ?_⟩
  · simp only [Parsed, renamedBack, snapshots]
    simp [Graph.parsed_ofMethods]
  · unfold Aggregate.Fits
    decide +kernel
  · have hlast := (hlive ⟨.method, "A#foo()"⟩).mp (by decide +kernel)
    revert hlast
    decide +kernel

end Samples

end Chain

end Lineage
