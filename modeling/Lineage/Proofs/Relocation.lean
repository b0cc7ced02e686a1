import Lineage.Proofs.Merge
/-! # Where nodes and edges go

Every node of either version goes to the merged node of its entity, even if fields lack a type, and
the merged edges join merged nodes: the relocated edges of the versions come first, and all that is
inserted after them are evolution edges. Main statements: `exists_ids1`, `exists_ids2`,
`graph_run_eq`, `mem_triples_run_iff`, `within_run`.
-/
namespace Lineage

open Refactoring (Operation Location)
open Index (ofGraph)
open EdgeStore (Anchored)

namespace Merge

section Position
variable {origin : MergedNode → Option NodeId} {ns : List MergedNode} {c j : NodeId}

theorem position?_eq_some (h : position? origin ns c = some j) :
    ∃ hj : j.number < ns.length, origin ns[j.number] = some c := by
  obtain ⟨⟨n, i⟩, he, rfl⟩ := Option.map_eq_some_iff.mp h
  have hmem : (n, i) ∈ ns.zipIdx := List.mem_reverse.mp (List.mem_of_find?_eq_some he)
  have horigin : origin n = some c := by simpa using List.find?_some he
  obtain ⟨hi, rfl⟩ := List.getElem?_eq_some_iff.mp (List.mk_mem_zipIdx_iff_getElem?.mp hmem)
  exact ⟨hi, horigin⟩

theorem exists_position? (h : ∃ n ∈ ns, origin n = some c) : ∃ j, position? origin ns c = some j := by
  obtain ⟨n, hn, ho⟩ := h
  obtain ⟨i, hi⟩ := List.mem_iff_getElem?.mp hn
  have hmem : (n, i) ∈ ns.zipIdx.reverse :=
    List.mem_reverse.mpr (List.mk_mem_zipIdx_iff_getElem?.mpr hi)
  have hsome : (ns.zipIdx.reverse.find? fun e => origin e.1 = some c).isSome :=
    List.find?_isSome.mpr ⟨(n, i), hmem, by simpa using ho⟩
  obtain ⟨e, he⟩ := Option.isSome_iff_exists.mp hsome
  exact ⟨⟨e.2⟩, by rw [position?, he]; rfl⟩

variable {g : Graph} {x : Index} {a b : NodeId}

theorem lookup_idMap (hg : g.Built) {n : Node} (hn : n ∈ g.nodes) :
    (idMap g x origin ns).lookup n.id = (x.canonical? n.id).bind (position? origin ns) :=
  lookup_filterMap_key (fun n : Node => (x.canonical? n.id).bind (position? origin ns)) hg.ids_nodup hn

theorem number_lt_of_lookup (h : (idMap g x origin ns).lookup a = some b) :
    b.number < ns.length := by
  obtain ⟨n, -, he⟩ := List.mem_filterMap.mp (mem_of_lookup_eq_some h)
  obtain ⟨j, hj, heq⟩ := Option.map_eq_some_iff.mp he
  obtain ⟨c, -, hp⟩ := Option.bind_eq_some_iff.mp hj
  cases heq
  exact (position?_eq_some hp).1

theorem exists_lookup_idMap (hg : g.Built)
    (hns : ∀ i ∈ (ofGraph g).ids, ∃ n ∈ ns, origin n = some i) {n : Node} (hn : n ∈ g.nodes) :
    ∃ j, (idMap g (ofGraph g) origin ns).lookup n.id = some j := by
  obtain ⟨i, hi, hc⟩ := Index.exists_canonical? hn
  obtain ⟨j, hj⟩ := exists_position? (hns i hi)
  have hcanonical : (ofGraph g).canonical? n.id = some i := hc
  exact ⟨j, by rw [lookup_idMap hg hn, hcanonical, Option.bind_some, hj]⟩

end Position

section Maps
variable (span : Span) (v1 v2 : Graph) (m : Matching)

def ids1 : List (NodeId × NodeId) := idMap v1 m.index1 MergedNode.v1 (nodes span m)

def ids2 : List (NodeId × NodeId) := idMap v2 m.index2 MergedNode.v2 (nodes span m)

variable {span v1 v2 m} {i : NodeId}

theorem exists_v1 (hi : i ∈ m.index1.ids) : ∃ n ∈ nodes span m, n.v1 = some i := by
  obtain ⟨e, he, rfl⟩ := List.mem_map.mp hi
  exact ⟨olderNode span m e, List.mem_append_left _ (List.mem_map_of_mem he), v1_olderNode span m e⟩

theorem exists_v2 (h1 : v1.Built) {ops : List Operation} (hi : i ∈ (ofGraph v2).ids) :
    ∃ n ∈ nodes span (.ofGraphs v1 v2 ops), n.v2 = some i := by
  cases hp : (Matching.ofGraphs v1 v2 ops).pairOf2? i with
  | none =>
    obtain ⟨e, he, rfl⟩ := List.mem_map.mp hi
    refine ⟨⟨fresh span e.node, none, some e.id⟩, List.mem_append_right _ ?_, rfl⟩
    refine List.mem_filterMap.mpr ⟨e, he, ?_⟩
    simp only [newerNode?, hp]
    rfl
  | some p =>
    have hmem : p ∈ (Matching.ofGraphs v1 v2 ops).pairs :=
      List.mem_reverse.mp (List.mem_of_find?_eq_some hp)
    have hpi : p.v2 = i := by simpa using List.find?_some hp
    obtain ⟨old, hold, hpair⟩ := List.mem_filterMap.mp hmem
    obtain ⟨j, new, -, hnew, rfl⟩ := Matching.pair?_eq_some_iff.mp hpair
    -- The canonical nodes of the older version differ, so the pair is the only one of its node.
    have hids : (ofGraph v1).ids.Nodup := h1.ids_nodup.sublist (Index.ids_sublist v1.nodes)
    have hnodup : ((Matching.ofGraphs v1 v2 ops).pairs.map (·.v1)).Nodup :=
      hids.sublist (Matching.map_v1_sublist _ _ _)
    have hpair1 := (find?_key_eq_some_iff hnodup).mpr ⟨hmem, rfl⟩
    refine ⟨olderNode span _ old, List.mem_append_left _ (List.mem_map_of_mem hold), ?_⟩
    have hnode : (Matching.ofGraphs v1 v2 ops).index2.node? j = some new := hnew
    simp only [olderNode, Matching.pairOf1?, hpair1]
    simp only [hnode, ← hpi]

theorem exists_ids1 (h1 : v1.Built) (span : Span) (ops : List Operation) {n : Node}
    (hn : n ∈ v1.nodes) : ∃ j, (ids1 span v1 (.ofGraphs v1 v2 ops)).lookup n.id = some j :=
  exists_lookup_idMap h1 (fun _ hi => exists_v1 hi) hn

theorem exists_ids2 (h1 : v1.Built) (h2 : v2.Built) (span : Span) (ops : List Operation) {n : Node}
    (hn : n ∈ v2.nodes) : ∃ j, (ids2 span v2 (.ofGraphs v1 v2 ops)).lookup n.id = some j :=
  exists_lookup_idMap h2 (fun _ hi => exists_v2 h1 hi) hn

end Maps

/-! ## Edges between merged nodes -/

section Anchored
variable {ns : List MergedNode} {e : Edge}

theorem hasNode_bare {i : NodeId} (hi : i.number < ns.length) : (bare ns).hasNode i := by
  apply Graph.hasNode_of_lt
  rw [nodes_bare, List.length_mapIdx]
  exact hi

theorem anchored_bare (hs : e.source.number < ns.length) (ht : e.target.number < ns.length) :
    Anchored (bare ns) e := ⟨hasNode_bare hs, hasNode_bare ht⟩

def Within (ns : List MergedNode) (e : Edge) : Prop :=
  e.source.number < ns.length ∧ e.target.number < ns.length

theorem within_relocated {g : Graph} {x : Index} {origin : MergedNode → Option NodeId}
    (he : e ∈ relocated g (idMap g x origin ns)) : Within ns e := by
  obtain ⟨d, -, hd⟩ := List.mem_filterMap.mp he
  simp only [bind, Option.bind_eq_some_iff, pure, Option.some.injEq] at hd
  obtain ⟨s, hs, t, ht, rfl⟩ := hd
  exact ⟨number_lt_of_lookup hs, number_lt_of_lookup ht⟩

section Evolution
variable {g g' g'' : Graph} {x x' : Index} {o o' : MergedNode → Option NodeId}
variable {span : Span} {d : String} {m : Matching} {op : Operation} {ls : List Location}

theorem mem_of_mem_endpoints {ids : List (NodeId × NodeId)} {p : Endpoint}
    (h : p ∈ endpoints g x ids op ls) : p ∈ ls.filterMap (endpoint? g x ids op) := by
  unfold endpoints at h
  generalize ls.filterMap (endpoint? g x ids op) = ps at h ⊢
  induction ps using List.reverseRecOn with
  | nil => exact h
  | append_singleton ps q ih =>
    rw [List.foldl_append, List.foldl_cons, List.foldl_nil] at h
    split at h
    · exact List.mem_append_left _ (ih h)
    · rcases List.mem_append.mp h with h | h
      · exact List.mem_append_left _ (ih h)
      · exact List.mem_append_right _ h

theorem merged_lt_of_mem_endpoints {p : Endpoint}
    (h : p ∈ endpoints g x (idMap g' x' o ns) op ls) : p.merged.number < ns.length := by
  obtain ⟨l, -, hl⟩ := List.mem_filterMap.mp (mem_of_mem_endpoints h)
  simp only [endpoint?, bind, Option.bind_eq_some_iff, pure, Option.some.injEq] at hl
  obtain ⟨i, -, c, -, j, hj, rfl⟩ := hl
  exact number_lt_of_lookup hj

theorem isEvolution_edgeKind (k : Refactoring.Kind) : k.edgeKind.isEvolution = true := by
  unfold Refactoring.Kind.edgeKind
  split <;> rfl

theorem within_contributions {v1 v2 : Graph} {cs : List Contribution} {c : Contribution}
    (h : contributions span d v1 v2 m (idMap v1 m.index1 o ns) (idMap v2 m.index2 o' ns) op = .ok cs)
    (hc : c ∈ cs) : c.edge.kind.isEvolution = true ∧ Within ns c.edge := by
  unfold contributions at h
  dsimp only at h
  split at h
  · cases h
  · split at h
    · cases h
    · cases h
      obtain ⟨ends, -, he⟩ := List.mem_filterMap.mp hc
      simp only [contribution?, bind, Option.bind_eq_some_iff, pure, Option.some.injEq] at he
      obtain ⟨s, hs, t, ht, old, -, new, -, rfl⟩ := he
      have hse : s.merged = ends.1 := by simpa using List.find?_some hs
      have hte : t.merged = ends.2 := by simpa using List.find?_some ht
      refine ⟨isEvolution_edgeKind op.kind, ?_, ?_⟩
      · show ends.1.number < ns.length
        rw [← hse]
        exact merged_lt_of_mem_endpoints (List.mem_of_find?_eq_some hs)
      · show ends.2.number < ns.length
        rw [← hte]
        exact merged_lt_of_mem_endpoints (List.mem_of_find?_eq_some ht)

theorem within_propagated? {v1 v2 : Graph} {c : Contribution} {e : Edge}
    (h : propagated? v1 v2 (idMap g x o ns) (idMap g' x' o' ns) g'' c = some e) :
    e.kind.isEvolution = true ∧ Within ns e := by
  simp only [propagated?, bind, Option.bind_eq_some_iff, pure, Option.some.injEq] at h
  obtain ⟨old, -, new, -, _, -, a, -, s, hs, b, -, t, ht, _, -, stored, -, rfl⟩ := h
  exact ⟨rfl, number_lt_of_lookup hs, number_lt_of_lookup ht⟩

end Evolution

/-- The store once the edges of both versions are inserted. -/
def structural (span : Span) (v1 v2 : Graph) (m : Matching) : EdgeStore :=
  (EdgeStore.ofGraph (bare (nodes span m))).insertAll
    (relocated v1 (ids1 span v1 m) ++ relocated v2 (ids2 span v2 m))

section Stages
variable (detector : String) (v1 v2 : Graph) (m : Matching) (ops : List Operation) (span : Span)

/-- What each operation comes to. -/
def outcomes : List (Except Warning (List Contribution)) :=
  ops.map (contributions span detector v1 v2 m (ids1 span v1 m) (ids2 span v2 m))

/-- The store once the contributions are inserted, and those that were the first of their triple. -/
def evolved : EdgeStore × List Contribution :=
  (placed (outcomes detector v1 v2 m ops span)).foldl emit (structural span v1 v2 m, [])

/-- What the contributions lift to the types around members. -/
def lifted : List Edge :=
  (evolved detector v1 v2 m ops span).2.filterMap
    (propagated? v1 v2 (ids1 span v1 m) (ids2 span v2 m) (evolved detector v1 v2 m ops span).1.graph)

theorem graph_run : (run detector v1 v2 m ops span).1.graph =
    ((evolved detector v1 v2 m ops span).1.insertAll (lifted detector v1 v2 m ops span)).graph := rfl

theorem fst_evolved : (evolved detector v1 v2 m ops span).1 = (structural span v1 v2 m).insertAll
    ((placed (outcomes detector v1 v2 m ops span)).map (·.edge)) := fst_emitAll _ _

/-- What is inserted after the edges of both versions, in order. -/
def evolutions : List Edge :=
  (placed (outcomes detector v1 v2 m ops span)).map (·.edge) ++ lifted detector v1 v2 m ops span

theorem graph_run_eq : (run detector v1 v2 m ops span).1.graph =
    ((structural span v1 v2 m).insertAll (evolutions detector v1 v2 m ops span)).graph := by
  rw [graph_run, fst_evolved, EdgeStore.insertAll, EdgeStore.insertAll, EdgeStore.insertAll,
    evolutions, List.foldl_append]

variable {detector v1 v2 m ops span}

theorem mem_placed_iff {c : Contribution} : c ∈ placed (outcomes detector v1 v2 m ops span) ↔
    ∃ op ∈ ops, ∃ cs, contributions span detector v1 v2 m (ids1 span v1 m) (ids2 span v2 m) op =
      .ok cs ∧ c ∈ cs := by
  rw [placed, outcomes, List.mem_flatMap]
  constructor
  · rintro ⟨r, hr, hc⟩
    obtain ⟨op, hop, rfl⟩ := List.mem_map.mp hr
    split at hc
    · cases hc
    · rename_i cs hcs
      exact ⟨op, hop, cs, hcs, hc⟩
  · rintro ⟨op, hop, cs, hcs, hc⟩
    exact ⟨_, List.mem_map_of_mem hop, by rw [hcs]; exact hc⟩

theorem within_placed {c : Contribution} (hc : c ∈ placed (outcomes detector v1 v2 m ops span)) :
    c.edge.kind.isEvolution = true ∧ Within (nodes span m) c.edge := by
  obtain ⟨op, -, cs, hcs, hmem⟩ := mem_placed_iff.mp hc
  exact within_contributions hcs hmem

theorem within_lifted {e : Edge} (he : e ∈ lifted detector v1 v2 m ops span) :
    e.kind.isEvolution = true ∧ Within (nodes span m) e := by
  obtain ⟨c, -, hc⟩ := List.mem_filterMap.mp he
  exact within_propagated? hc

theorem within_evolutions {e : Edge} (he : e ∈ evolutions detector v1 v2 m ops span) :
    e.kind.isEvolution = true ∧ Within (nodes span m) e := by
  rcases List.mem_append.mp he with he | he
  · obtain ⟨c, hc, rfl⟩ := List.mem_map.mp he
    exact within_placed hc
  · exact within_lifted he

end Stages

section Run
variable {detector : String} {v1 v2 : Graph} {m : Matching} {ops : List Operation} {span : Span}

theorem anchored_of_within {s : EdgeStore} (hs : s.graph.nodes = (bare ns).nodes) (he : Within ns e) :
    Anchored s.graph e := by
  have h := anchored_bare he.1 he.2
  rwa [Anchored, Graph.hasNode, Graph.hasNode, Graph.node?, Graph.node?, ← hs] at h

theorem exact_bare (ns : List MergedNode) : (EdgeStore.ofGraph (bare ns)).Exact :=
  EdgeStore.exact_ofGraph (edges_bare ns)

theorem within_both {d : Edge}
    (hd : d ∈ relocated v1 (ids1 span v1 m) ++ relocated v2 (ids2 span v2 m)) :
    Within (nodes span m) d := by
  rcases List.mem_append.mp hd with hd | hd
  · exact within_relocated hd
  · exact within_relocated hd

theorem exact_structural (span : Span) (v1 v2 : Graph) (m : Matching) :
    (structural span v1 v2 m).Exact := EdgeStore.exact_insertAll (exact_bare _) _

theorem nodes_structural (span : Span) (v1 v2 : Graph) (m : Matching) :
    (structural span v1 v2 m).graph.nodes = (bare (nodes span m)).nodes :=
  EdgeStore.nodes_insertAll _ _

theorem triples_structural (span : Span) (v1 v2 : Graph) (m : Matching) :
    (structural span v1 v2 m).graph.triples =
      ((relocated v1 (ids1 span v1 m) ++ relocated v2 (ids2 span v2 m)).map Edge.triple).eraseDups := by
  rw [structural, EdgeStore.triples_insertAll (exact_bare _)
    fun e he => anchored_of_within rfl (within_both he)]
  rw [EdgeStore.ofGraph, Graph.triples, edges_bare, List.map_nil, List.nil_append]

theorem triples_nodup_run : (run detector v1 v2 m ops span).1.graph.triples.Nodup := by
  rw [graph_run_eq]
  exact (EdgeStore.exact_insertAll (exact_structural span v1 v2 m) _).nodup

theorem mem_triples_run_iff {t : Triple} : t ∈ (run detector v1 v2 m ops span).1.graph.triples ↔
    t ∈ (structural span v1 v2 m).graph.triples ∨
      ∃ e ∈ evolutions detector v1 v2 m ops span, e.triple = t := by
  have hends : ∀ d ∈ evolutions detector v1 v2 m ops span, Anchored (structural span v1 v2 m).graph d :=
    fun d hd => anchored_of_within (nodes_structural span v1 v2 m) (within_evolutions hd).2
  rw [graph_run_eq, EdgeStore.triples_insertAll (exact_structural span v1 v2 m) hends,
    List.mem_eraseDups, List.mem_append, List.mem_map]

theorem within_run (he : e ∈ (run detector v1 v2 m ops span).1.graph.edges) :
    Within (nodes span m) e := by
  have hsame : ∀ d : Edge, d.triple = e.triple → Within (nodes span m) d → Within (nodes span m) e := by
    intro d hd hw
    have hsource : d.source = e.source := congrArg Triple.source hd
    have htarget : d.target = e.target := congrArg Triple.target hd
    exact ⟨hsource ▸ hw.1, htarget ▸ hw.2⟩
  rcases mem_triples_run_iff.mp (List.mem_map_of_mem he) with hmem | ⟨d, hd, ht⟩
  · rw [triples_structural, List.mem_eraseDups] at hmem
    obtain ⟨d, hd, ht⟩ := List.mem_map.mp hmem
    exact hsame d ht (within_both hd)
  · exact hsame d ht (within_evolutions hd).2

/-- The edges that are not evolution edges are settled before the others are inserted. -/
theorem filter_run (hfit : (run detector v1 v2 m ops span).1.graph.EdgesFit) :
    (structural span v1 v2 m).graph.EdgesFit ∧
    (run detector v1 v2 m ops span).1.graph.edges.filter (!·.kind.isEvolution) =
      (structural span v1 v2 m).graph.edges.filter (!·.kind.isEvolution) := by
  have hexact := exact_structural span v1 v2 m
  rw [graph_run_eq] at hfit ⊢
  have hkind : ∀ d ∈ evolutions detector v1 v2 m ops span, (!d.kind.isEvolution) = false := by
    intro d hd
    rw [(within_evolutions hd).1]
    rfl
  exact ⟨EdgeStore.edgesFit_of_insertAll hexact hfit,
    EdgeStore.filter_insertAll (p := fun t => !t.kind.isEvolution) hexact hfit hkind⟩

end Run

end Anchored

end Merge

end Lineage
