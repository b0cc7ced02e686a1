import Lineage.Proofs.EntityUnion
import Lineage.Proofs.Growth
/-! # References within an aggregate

Whatever undated versions are folded, in whatever order and however many, an aggregate refers to
nothing that it does not hold: its index and its edges lead to nodes, and its nodes name commits that
it lists, each once. Main statements: `Merge.listed_run`, `Aggregate.Closed.fold`.
-/
namespace Lineage

open Refactoring (Operation)
open Index (ofGraph)

/-- The node says what became of its entity, and the commits that it names are among those given. -/
structure Node.Listed (commits : List String) (n : Node) : Prop where
  status : n.status.isSome
  versions : ∀ v ∈ n.versions, v ∈ commits
  first : ∃ v ∈ commits, n.firstVersion = some v
  last : ∃ v ∈ commits, n.lastVersion = some v

section Listed
variable {commits : List String} {n : Node}

theorem Node.Listed.mono {commits' : List String} (h : n.Listed commits) (hs : commits ⊆ commits') :
    n.Listed commits' where
  status := h.status
  versions v hv := hs (h.versions v hv)
  first := h.first.imp fun _ hv => ⟨hs hv.1, hv.2⟩
  last := h.last.imp fun _ hv => ⟨hs hv.1, hv.2⟩

theorem Node.Listed.renumber (h : n.Listed commits) (i : NodeId) : (n.renumber i).Listed commits :=
  ⟨h.status, h.versions, h.first, h.last⟩

theorem Merge.Dated.listed {first last : String} (h : Merge.Dated first last n)
    (hs : n.status.isSome) (hf : first ∈ commits) (hl : last ∈ commits) : n.Listed commits where
  status := hs
  versions v hv := by
    rcases (h.1 v).mp hv with rfl | rfl
    · exact hf
    · exact hl
  first := ⟨first, hf, h.2.1⟩
  last := ⟨last, hl, h.2.2⟩

/-- A node that goes on names what either form names. -/
theorem Aggregate.listed_update {current newer : Node} (hc : current.Listed commits)
    (hn : newer.Listed commits) : (update current newer).Listed commits where
  status := hn.status
  versions v hv := by
    rcases (TextSet.mem_union _ _ _).mp hv with hv | hv
    · exact hc.versions v hv
    · exact hn.versions v hv
  first := by
    obtain ⟨v, hv, he⟩ := hc.first
    refine ⟨v, hv, ?_⟩
    show (current.firstVersion <|> newer.firstVersion) = some v
    rw [he]
    rfl
  last := hn.last

end Listed

namespace Merge

variable {v1 v2 : Graph} (h1 : v1.Undated) (h2 : v2.Undated) {ops : List Operation} {span : Span}
include h1 h2

theorem listed_olderNode {e : Entity} (he : e ∈ (ofGraph v1).entities) :
    (olderNode span (.ofGraphs v1 v2 ops) e).node.Listed [span.older.id, span.newer.id] := by
  have hold := h1.ofGraph e he
  have hgone : (gone span e.node).Listed [span.older.id, span.newer.id] :=
    Dated.listed (n := gone span e.node) (dated_stamp hold span.older.id) rfl List.mem_cons_self
      List.mem_cons_self
  unfold olderNode
  split
  · rename_i p hp
    split
    · rename_i new hnew
      obtain ⟨d, hd, rfl⟩ := Option.map_eq_some_iff.mp hnew
      exact (dated_kept hold (h2.ofGraph d (List.mem_of_find?_eq_some hd))).listed rfl
        List.mem_cons_self (List.mem_cons_of_mem _ List.mem_cons_self)
    · exact hgone
  · exact hgone

omit h1 in
theorem listed_newerNode? {e : Entity} (he : e ∈ (ofGraph v2).entities) {n : MergedNode}
    (hn : newerNode? span (.ofGraphs v1 v2 ops) e = some n) :
    n.node.Listed [span.older.id, span.newer.id] := by
  have hmem : span.newer.id ∈ [span.older.id, span.newer.id] :=
    List.mem_cons_of_mem _ List.mem_cons_self
  unfold newerNode? at hn
  split at hn
  · cases hn
  · cases hn
    exact Dated.listed (n := fresh span e.node) (dated_stamp (h2.ofGraph e he) span.newer.id) rfl
      hmem hmem

theorem listed_run {detector : String} {n : Node}
    (hn : n ∈ (run detector v1 v2 (.ofGraphs v1 v2 ops) ops span).1.graph.nodes) :
    n.Listed [span.older.id, span.newer.id] := by
  obtain ⟨i, hi, rfl⟩ := mem_nodes_run_iff.mp hn
  refine Node.Listed.renumber ?_ ⟨i⟩
  rcases List.mem_append.mp (List.getElem_mem hi) with hm | hm
  · obtain ⟨e, he, hm⟩ := List.mem_map.mp hm
    rw [← hm]
    exact listed_olderNode h1 h2 he
  · obtain ⟨e, he, hm⟩ := List.mem_filterMap.mp hm
    exact listed_newerNode? h2 he hm

end Merge

namespace EdgeStore

variable {s : EdgeStore}

theorem mem_triples_insert (h : s.Exact) {e : Edge} {t : Triple}
    (ht : t ∈ (s.insert e).2.graph.triples) : t ∈ s.graph.triples ∨ t = e.triple := by
  have hins := inserts_insert (e := e) h
  generalize (s.insert e).2 = s' at hins ht
  cases hins with
  | known hx hxe =>
    rw [triples_modifyEdge] at ht
    exact .inl ht
  | fresh hn hends =>
    rw [Graph.triples, List.map_append] at ht
    exact (List.mem_append.mp ht).imp id fun ht => List.mem_singleton.mp ht
  | refused hn hends => exact .inl ht

theorem mem_triples_insertAll (h : s.Exact) {es : List Edge} {t : Triple}
    (ht : t ∈ (s.insertAll es).graph.triples) : t ∈ s.graph.triples ∨ ∃ e ∈ es, e.triple = t := by
  induction es using List.reverseRecOn with
  | nil => exact .inl ht
  | append_singleton es e ih =>
    rw [insertAll_snoc] at ht
    rcases mem_triples_insert (exact_insertAll h es) ht with ht | rfl
    · refine (ih ht).imp id ?_
      rintro ⟨d, hd, he⟩
      exact ⟨d, List.mem_append_left _ hd, he⟩
    · exact .inr ⟨e, List.mem_append_right _ List.mem_cons_self, rfl⟩

end EdgeStore

namespace Aggregate

/-! ## Joining nodes -/

/-- The index and the table of new numbers lead to nodes, and these name the commits given. -/
structure Join.Closed (commits : List String) (j : Join) : Prop where
  numbered : Graph.Numbered j.graph.nodes
  index : ∀ e ∈ j.index, e.2.number < j.graph.nodes.length
  ids : ∀ e ∈ j.ids, e.2.number < j.graph.nodes.length
  listed : ∀ n ∈ j.graph.nodes, n.Listed commits

theorem joinNode_cases (j : Join) (n : Node) :
    (∃ i index, joinNode j n = ⟨j.graph.modifyNode i (update · n), index, j.ids ++ [(n.id, i)]⟩ ∧
      (∃ k, (k, i) ∈ j.index) ∧ ∀ e ∈ index, e ∈ j.index ∨ e.2 = i) ∨
    joinNode j n = ⟨(j.graph.addNode n).2, (n.key, j.graph.nextNode) :: j.index,
      j.ids ++ [(n.id, j.graph.nextNode)]⟩ := by
  unfold joinNode
  cases hl : j.index.lookup n.key with
  | some i =>
    exact .inl ⟨i, j.index, rfl, ⟨n.key, mem_of_lookup_eq_some hl⟩, fun _ he => .inl he⟩
  | none =>
    dsimp only
    cases hr : reindexed? j.index n with
    | none => exact .inr rfl
    | some r =>
      simp only [reindexed?, bind, Option.bind_eq_some_iff, pure, Option.some.injEq] at hr
      obtain ⟨old, -, i, hi, rfl⟩ := hr
      refine .inl ⟨i, _, rfl, ⟨_, mem_of_lookup_eq_some hi⟩, fun e he => ?_⟩
      rcases List.mem_cons.mp he with rfl | he
      · exact .inr rfl
      · exact .inl (List.mem_of_mem_filter he)

section Join
variable {commits : List String} {j : Join} {n : Node}

theorem Join.Closed.joinNode (h : j.Closed commits) (hn : n.Listed commits) :
    (joinNode j n).Closed commits := by
  rcases joinNode_cases j n with ⟨i, index, he, ⟨k, hk⟩, hindex⟩ | he
  · have hlen : (j.graph.modifyNode i (update · n)).nodes.length = j.graph.nodes.length :=
      List.length_modify _ _ _
    rw [he]
    refine ⟨?_, fun e hmem => ?_, fun e hmem => ?_, fun x hx => ?_⟩
    · have hids : (j.graph.modifyNode i (update · n)).nodes.map (·.id) = j.graph.nodes.map (·.id) :=
        EdgeStore.map_modify_eq (f := (update · n)) (fun _ => rfl) _ _
      rw [Graph.Numbered, hids, hlen]
      exact h.numbered
    · rw [hlen]
      rcases hindex e hmem with hmem | rfl
      · exact h.index e hmem
      · exact h.index (k, e.2) hk
    · rw [hlen]
      rcases List.mem_append.mp hmem with hmem | hmem
      · exact h.ids e hmem
      · rw [List.mem_singleton.mp hmem]
        exact h.index _ hk
    · rcases mem_modify hx with hx | ⟨y, hy, rfl⟩
      · exact h.listed x hx
      · exact listed_update (h.listed y hy) hn
  · have hlen : (j.graph.addNode n).2.nodes.length = j.graph.nodes.length + 1 := by simp
    rw [he]
    refine ⟨h.numbered.snoc n, fun e hmem => ?_, fun e hmem => ?_, fun x hx => ?_⟩
    · rw [hlen]
      rcases List.mem_cons.mp hmem with rfl | hmem
      · exact Nat.lt_succ_self _
      · exact Nat.lt_succ_of_lt (h.index e hmem)
    · rw [hlen]
      rcases List.mem_append.mp hmem with hmem | hmem
      · exact Nat.lt_succ_of_lt (h.ids e hmem)
      · rw [List.mem_singleton.mp hmem]
        exact Nat.lt_succ_self _
    · rcases List.mem_append.mp hx with hx | hx
      · exact h.listed x hx
      · rw [List.mem_singleton.mp hx]
        exact hn.renumber _

theorem Join.Closed.joinAll {ns : List Node} (h : j.Closed commits) (hn : ∀ n ∈ ns, n.Listed commits) :
    (ns.foldl Aggregate.joinNode j).Closed commits := by
  induction ns generalizing j with
  | nil => exact h
  | cons n ns ih =>
    exact ih (h.joinNode (hn n List.mem_cons_self)) fun m hm => hn m (List.mem_cons_of_mem _ hm)

end Join

/-! ## Folding pairs -/

/-- The aggregate holds whatever it refers to. -/
structure Closed (a : Aggregate) : Prop where
  exact : a.store.Exact
  numbered : Graph.Numbered a.graph.nodes
  index : ∀ e ∈ a.index, e.2.number < a.graph.nodes.length
  ends : ∀ t ∈ a.graph.triples,
    t.source.number < a.graph.nodes.length ∧ t.target.number < a.graph.nodes.length
  listed : ∀ n ∈ a.graph.nodes, n.Listed (a.commits.map (·.id))
  commits_nodup : (a.commits.map (·.id)).Nodup

theorem closed_empty : Closed empty where
  exact := EdgeStore.exact_ofGraph rfl
  numbered := rfl
  index := List.forall_mem_nil _
  ends := List.forall_mem_nil _
  listed := List.forall_mem_nil _
  commits_nodup := .nil

section Fold
variable {a : Aggregate} {m : Merged}

theorem Closed.fold (h : a.Closed)
    (hm : ∀ n ∈ m.graph.nodes, n.Listed [m.span.older.id, m.span.newer.id]) : (a.fold m).Closed := by
  have hjoined : (a.joined m).Closed ((a.fold m).commits.map (·.id)) := by
    refine Join.Closed.joinAll ⟨h.numbered, h.index, List.forall_mem_nil _, fun n hn => ?_⟩
      fun n hn => ?_
    · exact (h.listed n hn).mono (commits_subset_fold a m)
    · exact (hm n hn).mono (span_subset_fold a m)
  have hnodes : (a.fold m).graph.nodes = (a.joined m).graph.nodes := nodes_fold a m
  have hgrows : a.graph.nodes.length ≤ (a.fold m).graph.nodes.length := by
    rw [hnodes]
    exact length_le_joinAll ⟨a.graph, a.index, []⟩ m.graph.nodes
  have hstore := exact_joinedStore (m := m) h.exact
  refine ⟨?_, ?_, ?_, fun t ht => ?_, ?_, ?_⟩
  · rw [store_fold]
    exact EdgeStore.exact_insertAll hstore _
  · rw [hnodes]
    exact hjoined.numbered
  · rw [hnodes]
    exact hjoined.index
  · -- An edge was there before, or its ends were looked up among the new numbers.
    rcases EdgeStore.mem_triples_insertAll hstore ht with ht | ⟨e, he, rfl⟩
    · have hedges : (a.joinedStore m).graph.triples = a.graph.triples :=
        congrArg (List.map Edge.triple) (edges_joined a m)
      rw [hedges] at ht
      exact ⟨Nat.lt_of_lt_of_le (h.ends t ht).1 hgrows, Nat.lt_of_lt_of_le (h.ends t ht).2 hgrows⟩
    · obtain ⟨d, -, hd⟩ := List.mem_filterMap.mp he
      simp only [bind, Option.bind_eq_some_iff, pure, Option.some.injEq] at hd
      obtain ⟨source, hsource, target, htarget, rfl⟩ := hd
      rw [hnodes]
      exact ⟨hjoined.ids _ (mem_of_lookup_eq_some hsource),
        hjoined.ids _ (mem_of_lookup_eq_some htarget)⟩
  · rw [hnodes]
    exact hjoined.listed
  · exact nodup_recordCommit (nodup_recordCommit h.commits_nodup _) _

end Fold

end Aggregate

end Lineage
