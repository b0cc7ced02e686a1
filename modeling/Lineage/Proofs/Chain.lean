import Lineage.Proofs.Aggregate
/-! # Chains of snapshots

A history grows at its newer end: each snapshot is matched and merged with the one before it, and the
merged pairs are folded oldest first. After every fold the nodes stand for different entities and the
index is right, and a fold changes the entities as its pair says. Main statements: `orderly_run`,
`aggregate_next`, `indexed_aggregate`, `folds_aggregate`.
-/
namespace Lineage

open Refactoring (Operation)

structure Snapshot where
  graph : Graph
  commit : Commit

/-- Snapshots oldest first; each but the first comes with the operations that lead to it. -/
inductive Chain
  | start (s : Snapshot)
  | next (c : Chain) (ops : List Operation) (s : Snapshot)

namespace Chain

def last : Chain → Snapshot
  | start s => s
  | next _ _ s => s

def snapshots : Chain → List Snapshot
  | start s => [s]
  | next c _ s => c.snapshots ++ [s]

/-- The newest snapshot of a chain matched with a further one. -/
def matching (c : Chain) (ops : List Operation) (s : Snapshot) : Matching :=
  .ofGraphs c.last.graph s.graph ops

def merged (detector : String) (c : Chain) (ops : List Operation) (s : Snapshot) : Merged :=
  (Merge.run detector c.last.graph s.graph (c.matching ops s) ops ⟨c.last.commit, s.commit⟩).1

def pairs (detector : String) : Chain → List Merged
  | start _ => []
  | next c ops s => c.pairs detector ++ [c.merged detector ops s]

def aggregate (detector : String) (c : Chain) : Aggregate := .ofMerged (c.pairs detector)

def Parsed (c : Chain) : Prop := ∀ s ∈ c.snapshots, s.graph.Parsed

end Chain

namespace Merge

section Orderly
variable {v1 v2 : Graph} (h1 : v1.Parsed) (h2 : v2.Parsed)
variable {detector : String} {ops : List Operation} {span : Span}
include h1 h2

/-- The old keys of the rekeys are the former keys, and no merged node goes by them. -/
theorem orderly_run :
    Aggregate.Orderly (run detector v1 v2 (.ofGraphs v1 v2 ops) ops span).1.graph.nodes where
  keys_nodup := keys_nodup_run h1 h2
  former_not_mem n hn k hk hmem := by
    obtain ⟨r, hr, -, ho⟩ := ((attests_run h1 h2 hn).former k).mp hk
    exact ((mem_keys_run_iff h1 h2).mp hmem).2 r hr ho
  former_inj n hn n' hn' k hk hk' := by
    obtain ⟨r, hr, hrn, hro⟩ := ((attests_run h1 h2 hn).former k).mp hk
    obtain ⟨r', hr', hrn', hro'⟩ := ((attests_run h1 h2 hn').former k).mp hk'
    have ha := Matching.admissible_rekeys h1.toWellFormed h2.toWellFormed ops
    obtain rfl := ha.eq_of_older_eq h1.toWellFormed hr hr' (hro.trans hro'.symm)
    exact List.inj_on_of_nodup_map (keys_nodup_run h1 h2) hn hn' (hrn.symm.trans hrn')

end Orderly

end Merge

namespace Chain

variable {d : String} {c : Chain} {ops : List Operation} {s : Snapshot}

theorem last_mem_snapshots (c : Chain) : c.last ∈ c.snapshots := by
  cases c with
  | start s => exact List.mem_cons_self
  | next c ops s => exact List.mem_append_right _ List.mem_cons_self

theorem Parsed.of_next (h : (c.next ops s).Parsed) : c.Parsed :=
  fun t ht => h t (List.mem_append_left _ ht)

theorem Parsed.last (h : c.Parsed) : c.last.graph.Parsed := h _ c.last_mem_snapshots

theorem aggregate_next (d : String) (c : Chain) (ops : List Operation) (s : Snapshot) :
    (c.next ops s).aggregate d = (c.aggregate d).fold (c.merged d ops s) := by
  simp only [aggregate, pairs, Aggregate.ofMerged, List.foldl_append, List.foldl_cons, List.foldl_nil]

theorem fits_of_next (h : ((c.next ops s).aggregate d).Fits) : (c.aggregate d).Fits := by
  rw [aggregate_next] at h
  exact h.of_fold

theorem indexed_aggregate (h : c.Parsed) (hfit : (c.aggregate d).Fits) :
    Aggregate.Indexed (c.aggregate d).graph.nodes (c.aggregate d).index := by
  induction c with
  | start s => exact ⟨rfl, .nil, fun _ => rfl⟩
  | next c ops s ih =>
    have hi := ih h.of_next (fits_of_next hfit)
    rw [aggregate_next] at hfit ⊢
    exact (Aggregate.folds_fold hi (Merge.orderly_run h.of_next.last h.last) hfit).1

theorem folds_aggregate (h : (c.next ops s).Parsed) (hfit : ((c.next ops s).aggregate d).Fits) :
    Aggregate.Folds (c.aggregate d).graph (c.merged d ops s).graph.nodes
      ((c.next ops s).aggregate d).graph := by
  have hi := indexed_aggregate h.of_next (fits_of_next hfit)
  rw [aggregate_next] at hfit ⊢
  exact (Aggregate.folds_fold hi (Merge.orderly_run h.of_next.last h.last) hfit).2

theorem mem_nodes_aggregate_iff (h : c.Parsed) (hfit : (c.aggregate d).Fits) {n : Node} :
    n ∈ (c.aggregate d).graph.nodes ↔ (c.aggregate d).graph.entity? n.key = some n := by
  rw [Graph.entity?, find?_key_eq_some_iff (indexed_aggregate h hfit).keys_nodup]
  exact ⟨fun hn => ⟨hn, rfl⟩, fun hn => hn.1⟩

section Entity
variable (h : (c.next ops s).Parsed) (hfit : ((c.next ops s).aggregate d).Fits) {k : EntityKey}
include h hfit

/-- The node of an entity of the newest pair. -/
theorem entity?_of_mem_merged (hk : k ∈ c.last.graph.keys ∨ k ∈ s.graph.keys)
    (hr : ∀ r ∈ (c.matching ops s).rekeys, r.older ≠ k) :
    ∃ (n : Node) (i : NodeId), n.key = k ∧
      Merge.Attests ⟨c.last.commit, s.commit⟩ c.last.graph s.graph (c.matching ops s) n ∧
      ((c.next ops s).aggregate d).graph.entity? k =
        some ((Aggregate.latest (Aggregate.former? (c.aggregate d).graph n) n).renumber i) := by
  have hmem : k ∈ (c.merged d ops s).graph.keys :=
    (Merge.mem_keys_run_iff h.of_next.last h.last).mpr ⟨hk, hr⟩
  obtain ⟨n, hn, rfl⟩ := List.mem_map.mp hmem
  obtain ⟨i, hi⟩ := (folds_aggregate h hfit).joined n hn
  exact ⟨n, i, rfl, Merge.attests_run h.of_next.last h.last hn, hi⟩

omit hfit in
theorem exists_of_mem_rekeys {r : Rekey} (hr : r ∈ (c.matching ops s).rekeys) :
    ∃ n ∈ (c.merged d ops s).graph.nodes, n.key = r.newer ∧ n.formerKey? = some r.older := by
  have h1 := h.of_next.last
  have h2 := h.last
  have hv := (Matching.admissible_rekeys h1.toWellFormed h2.toWellFormed ops).valid r hr
  obtain ⟨e, he, hek, -⟩ := hv.new
  have hnew : r.newer ∈ s.graph.keys := hek ▸ h2.key_mem he
  have hmem : r.newer ∈ (c.merged d ops s).graph.keys := by
    refine (Merge.mem_keys_run_iff h1 h2).mpr ⟨.inr hnew, fun r' hr' ho => ?_⟩
    exact Merge.older_not_mem h1.toWellFormed h2.toWellFormed hr' (ho ▸ hnew)
  obtain ⟨n, hn, hk⟩ := List.mem_map.mp hmem
  exact ⟨n, hn, hk, ((Merge.attests_run h1 h2 hn).former r.older).mpr ⟨r, hr, hk.symm, rfl⟩⟩

/-- An old key whose new key was not known is given up. -/
theorem entity?_of_moved {r : Rekey} (hr : r ∈ (c.matching ops s).rekeys)
    (hn : (c.aggregate d).graph.entity? r.newer = none) :
    ((c.next ops s).aggregate d).graph.entity? r.older = none := by
  obtain ⟨n, hmem, hk, hf⟩ := exists_of_mem_rekeys (d := d) h hr
  exact (folds_aggregate h hfit).moved n hmem r.older hf (by rw [hk]; exact hn)

omit hfit in
theorem keys_of_mem_rekeys {r : Rekey} (hr : r ∈ (c.matching ops s).rekeys) :
    r.older ∈ c.last.graph.keys ∧ r.newer ∈ s.graph.keys ∧ r.older ∉ s.graph.keys := by
  have h1 := h.of_next.last
  have h2 := h.last
  have hv := (Matching.admissible_rekeys h1.toWellFormed h2.toWellFormed ops).valid r hr
  obtain ⟨e, he, hek, -⟩ := hv.old
  obtain ⟨e', he', hek', -⟩ := hv.new
  exact ⟨hek ▸ h1.key_mem he, hek' ▸ h2.key_mem he',
    Merge.older_not_mem h1.toWellFormed h2.toWellFormed hr⟩

theorem entity?_of_not_mem_merged (hk : k ∉ (c.merged d ops s).graph.keys)
    (hr : ∀ r ∈ (c.matching ops s).rekeys, r.older = k →
      ((c.aggregate d).graph.entity? r.newer).isSome) :
    ((c.next ops s).aggregate d).graph.entity? k = (c.aggregate d).graph.entity? k := by
  refine (folds_aggregate h hfit).others k hk fun n hn hf => ?_
  obtain ⟨r, hmem, hrn, hro⟩ := ((Merge.attests_run h.of_next.last h.last hn).former k).mp hf
  rw [← hrn]
  exact hr r hmem hro

theorem entity?_of_not_mem (h1 : k ∉ c.last.graph.keys) (h2 : k ∉ s.graph.keys) :
    ((c.next ops s).aggregate d).graph.entity? k = (c.aggregate d).graph.entity? k := by
  refine entity?_of_not_mem_merged h hfit ?_ ?_
  · intro hmem
    rcases ((Merge.mem_keys_run_iff h.of_next.last h.last).mp hmem).1 with hk | hk
    · exact h1 hk
    · exact h2 hk
  · intro r hr ho
    exact absurd (ho ▸ (keys_of_mem_rekeys h hr).1) h1

end Entity

end Chain

end Lineage
