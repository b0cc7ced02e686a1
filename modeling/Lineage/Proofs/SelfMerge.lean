import Lineage.Proofs.EntityUnion
import Lineage.Proofs.StructuralEdges
/-! # A version merged with itself

Whatever the operations, a version matched with itself has no rekeys and nothing changes: its merged
nodes are its entities, and its structural edges are those between entities. If no two nodes stand
for one entity and no two edges say the same, merging changes nothing but versions. Main statements:
`rekeys_self`, `nodes_self`, `through?_self`, and what `SelfMerge` says.
-/
namespace Lineage

open Refactoring (Operation)
open Index (ofGraph)

def Node.withoutVersions (n : Node) : Node :=
  { n with versions := .empty, status := none, firstVersion := none, lastVersion := none }

namespace Graph

/-- The first node that stands for the entity of a node. -/
def canonical (g : Graph) (id : NodeId) : NodeId :=
  ((g.nodes.find? (·.id = id)).bind fun n => g.findKey? n.key).getD id

/-- What an edge says of entities. -/
def foldedTriple (g : Graph) (e : Edge) : Triple :=
  ⟨g.canonical e.source, e.kind, g.canonical e.target⟩

end Graph

theorem Graph.Built.edges_numbered {g : Graph} (h : g.Built) : Edge.Numbered g.edges := by
  induction h with
  | empty => rfl
  | addNode _ n ih => exact ih
  | @tryEdge g _ e ih =>
    unfold Graph.tryEdge
    cases hadd : g.addEdge e with
    | none => exact ih
    | some r =>
      have hedges := (Graph.edges_addEdge hadd).2.1
      rw [Option.map_some, Option.getD_some, hedges]
      exact ih.snoc e

theorem Edge.eq_of_content_eq {x y : Edge} (hid : x.id = y.id) (ht : x.triple = y.triple)
    (hc : x.content = y.content) : x = y := by
  obtain ⟨i, s, t, k, c, l, a⟩ := x
  obtain ⟨i', s', t', k', c', l', a'⟩ := y
  simp only [Edge.triple, Edge.content, Triple.mk.injEq, Prod.mk.injEq] at hid ht hc
  obtain ⟨rfl, rfl, rfl⟩ := ht
  obtain ⟨rfl, rfl, rfl⟩ := hc
  rw [hid]

namespace Matching

variable {g : Graph} (hg : g.WellFormed) {e : Entity}
include hg

theorem rekeys_self (ops : List Operation) : (ofGraphs g g ops).rekeys = [] := by
  rw [List.eq_nil_iff_forall_not_mem]
  intro r hr
  -- Its old key is one of the version and is gone from the version.
  have hv := (admissible_rekeys hg hg ops).valid r hr
  obtain ⟨e, he, hk, -⟩ := hv.old
  exact hv.gone e he hk

theorem pair_self (ops : List Operation) (he : e ∈ (ofGraph g).entities) :
    .ofEntities e e ∈ (ofGraphs g g ops).pairs :=
  (mem_pairs_iff hg hg).mpr (.inr ⟨e, he, e, he, rfl, rfl⟩)

end Matching

namespace Merge

section Nodes
variable {g : Graph} (hg : g.WellFormed) {ops : List Operation} {span : Span}

def unaltered (span : Span) (m : Matching) (e : Entity) : MergedNode :=
  ⟨kept span m e.node e.node (.ofEntities e e), some e.id, some e.id⟩

include hg

theorem nodes_self (ops : List Operation) (span : Span) : nodes span (.ofGraphs g g ops) =
    (ofGraph g).entities.map (unaltered span (.ofGraphs g g ops)) := by
  have hc := Matching.coherent_ofGraphs hg hg ops
  have holder : ∀ e ∈ (ofGraph g).entities, olderNode span (.ofGraphs g g ops) e =
      unaltered span (.ofGraphs g g ops) e := by
    intro e he
    have hpair := hc.pairOf1?_eq_some_iff.mpr ⟨Matching.pair_self hg ops he, rfl⟩
    have hnode : (Matching.ofGraphs g g ops).index2.node? (Pair.ofEntities e e).v2 = some e.node :=
      hg.node?_eq_some_iff.mpr ⟨e, he, rfl, rfl⟩
    have hid : (Pair.ofEntities e e).v1 = e.id := rfl
    rw [hid] at hpair
    simp only [olderNode, hpair, hnode]
    rfl
  have hnewer : ∀ e ∈ (ofGraph g).entities, newerNode? span (.ofGraphs g g ops) e = none := by
    intro e he
    have hpair := hc.pairOf2?_eq_some_iff.mpr ⟨Matching.pair_self hg ops he, rfl⟩
    have hid : (Pair.ofEntities e e).v2 = e.id := rfl
    rw [hid] at hpair
    simp only [newerNode?, hpair]
  have hnone : (Matching.ofGraphs g g ops).index2.entities.filterMap
      (newerNode? span (.ofGraphs g g ops)) = [] := List.filterMap_eq_nil_iff.mpr hnewer
  rw [nodes, hnone, List.append_nil]
  exact List.map_congr_left holder

theorem withoutVersions_unaltered (ops : List Operation) (span : Span) (e : Entity) :
    (unaltered span (.ofGraphs g g ops) e).node.withoutVersions = e.node.withoutVersions := by
  have hr : ∀ i, (Matching.ofGraphs g g ops).rekeyOf2? i = none := by
    intro i
    rw [Matching.rekeyOf2?, Matching.rekeys_self hg ops]
    rfl
  simp only [unaltered, kept, hr]
  rfl

omit hg in
theorem status_unaltered (span : Span) (m : Matching) (e : Entity) :
    (unaltered span m e).node.status = some .unchanged := by
  show some (Pair.ofEntities e e).status = some .unchanged
  rw [Pair.ofEntities, if_pos rfl]

theorem length_entities : (ofGraph g).entities.length = g.keys.eraseDups.length := by
  have hperm : ((ofGraph g).entities.map (·.key)).Perm g.keys.eraseDups := by
    rw [List.perm_ext_iff_of_nodup hg.isIndexOf.keys_nodup (nodup_eraseDups _)]
    intro k
    rw [List.mem_eraseDups, hg.mem_keys_iff, List.mem_map]
  rw [← hperm.length_eq, List.length_map]

theorem lookup_ids_self (ops : List Operation) (span : Span) {n : Node} (hn : n ∈ g.nodes) :
    (ids1 span g (.ofGraphs g g ops)).lookup n.id = (ids2 span g (.ofGraphs g g ops)).lookup n.id := by
  obtain ⟨c, hc⟩ := Graph.exists_findKey? hn
  rw [lookup_ids1_eq_lookup_ids2_iff hg hg hn hn]
  refine ⟨c, c, hc, hc, ?_⟩
  have hl : (ofGraph g).lookup? n.key = some c := by
    rw [hg.isIndexOf.lookup?]
    exact hc
  obtain ⟨e, he, -, rfl⟩ := hg.lookup?_eq_some_iff.mp hl
  exact Matching.mem_mapping_iff.mpr ⟨_, Matching.pair_self hg ops he, rfl, rfl⟩

end Nodes

section Edges
variable {g : Graph} (hg : g.WellFormed) (hs : g.Structural) {ops : List Operation} {span : Span}
include hg

theorem canonical_eq_iff {a b : Node} (ha : a ∈ g.nodes) (hb : b ∈ g.nodes) :
    g.canonical a.id = g.canonical b.id ↔ a.key = b.key := by
  have hcanonical : ∀ n ∈ g.nodes, g.findKey? n.key = some (g.canonical n.id) := by
    intro n hn
    obtain ⟨c, hc⟩ := Graph.exists_findKey? hn
    have hfind : g.nodes.find? (·.id = n.id) = some n :=
      (find?_key_eq_some_iff hg.built.ids_nodup).mpr ⟨hn, rfl⟩
    rw [Graph.canonical, hfind, Option.bind_some, hc]
    rfl
  have ha' := hcanonical a ha
  have hb' := hcanonical b hb
  constructor
  · intro he
    rw [he] at ha'
    exact hg.built.numbered.key_eq_of_findKey?_eq ha' hb'
  · intro hk
    rw [hk, hb'] at ha'
    exact (Option.some.inj ha').symm

include hs

theorem through?_self (ops : List Operation) (span : Span) {e : Edge} (he : e ∈ g.edges) :
    e.through? (ids1 span g (.ofGraphs g g ops)) = e.through? (ids2 span g (.ofGraphs g g ops)) := by
  obtain ⟨-, hsource, htarget⟩ := hs e he
  obtain ⟨n, hn, hns⟩ := List.mem_map.mp hsource
  obtain ⟨n', hn', hnt⟩ := List.mem_map.mp htarget
  have hls := lookup_ids_self hg ops span hn
  have hlt := lookup_ids_self hg ops span hn'
  rw [hns] at hls
  rw [hnt] at hlt
  simp only [Edge.through?, hls, hlt]

theorem exists_through?_self (ops : List Operation) (span : Span) {e : Edge} (he : e ∈ g.edges) :
    ∃ t, e.through? (ids1 span g (.ofGraphs g g ops)) = some t :=
  exists_through? hs (fun _ hn => exists_ids1 hg.built span ops hn) he

theorem through?_eq_iff (ops : List Operation) (span : Span) {d e : Edge} (hd : d ∈ g.edges)
    (he : e ∈ g.edges) :
    d.through? (ids1 span g (.ofGraphs g g ops)) = e.through? (ids1 span g (.ofGraphs g g ops)) ↔
      g.foldedTriple d = g.foldedTriple e := by
  have hends : ∀ i ∈ g.nodes.map (·.id), ∀ j ∈ g.nodes.map (·.id),
      (ids1 span g (.ofGraphs g g ops)).lookup i = (ids1 span g (.ofGraphs g g ops)).lookup j ↔
        g.canonical i = g.canonical j := by
    intro i hi j hj
    obtain ⟨a, ha, rfl⟩ := List.mem_map.mp hi
    obtain ⟨b, hb, rfl⟩ := List.mem_map.mp hj
    exact ((settles1 hg hg ops span).lookup_eq_iff ha hb).trans (canonical_eq_iff hg ha hb).symm
  obtain ⟨-, hds, hdt⟩ := hs d hd
  obtain ⟨-, hes, het⟩ := hs e he
  have hsource := hends d.source hds e.source hes
  have htarget := hends d.target hdt e.target het
  obtain ⟨t, ht⟩ := exists_through?_self hg hs ops span hd
  obtain ⟨u, hu⟩ := exists_through?_self hg hs ops span he
  obtain ⟨s, hls, q, hlt, rfl⟩ := through?_eq_some_iff.mp ht
  obtain ⟨s', hls', q', hlt', rfl⟩ := through?_eq_some_iff.mp hu
  rw [hls, hls', Option.some.injEq] at hsource
  rw [hlt, hlt', Option.some.injEq] at htarget
  rw [ht, hu, Option.some.injEq, Graph.foldedTriple, Graph.foldedTriple, Triple.mk.injEq,
    Triple.mk.injEq, hsource, htarget]

theorem filterMap_through?_self (ops : List Operation) (span : Span) :
    g.edges.filterMap (·.through? (ids2 span g (.ofGraphs g g ops))) =
      g.edges.filterMap (·.through? (ids1 span g (.ofGraphs g g ops))) :=
  List.filterMap_congr fun _ he => (through?_self hg hs ops span he).symm

variable {detector : String}
variable (hfit : (run detector g g (.ofGraphs g g ops) ops span).1.graph.EdgesFit)
include hfit

theorem triples_structuralEdges_self :
    (run detector g g (.ofGraphs g g ops) ops span).1.structuralEdges.map Edge.triple =
      (g.edges.filterMap (·.through? (ids1 span g (.ofGraphs g g ops)))).eraseDups := by
  rw [triples_structuralEdges hs hs hfit, filterMap_through?_self hg hs,
    eraseDups_append_of_subset fun t ht => ht]

theorem length_structuralEdges_self :
    (run detector g g (.ofGraphs g g ops) ops span).1.structuralEdges.length =
      (g.edges.map g.foldedTriple).eraseDups.length := by
  -- Every edge arrives, so a total function says where.
  let arrival : Edge → Triple := fun e =>
    (e.through? (ids1 span g (.ofGraphs g g ops))).getD e.triple
  have harrival : ∀ e ∈ g.edges,
      e.through? (ids1 span g (.ofGraphs g g ops)) = some (arrival e) := by
    intro e he
    obtain ⟨t, ht⟩ := exists_through?_self hg hs ops span he
    simp only [arrival, ht, Option.getD_some]
  have hmap : g.edges.filterMap (·.through? (ids1 span g (.ofGraphs g g ops))) =
      g.edges.map arrival := by
    rw [← List.filterMap_eq_map]
    exact List.filterMap_congr harrival
  have hsame : ∀ d ∈ g.edges, ∀ e ∈ g.edges,
      arrival d = arrival e ↔ g.foldedTriple d = g.foldedTriple e := by
    intro d hd e he
    rw [← through?_eq_iff hg hs ops span hd he, harrival d hd, harrival e he, Option.some.injEq]
  calc (run detector g g (.ofGraphs g g ops) ops span).1.structuralEdges.length
      = ((run detector g g (.ofGraphs g g ops) ops span).1.structuralEdges.map
          Edge.triple).length := (List.length_map _).symm
    _ = (g.edges.map arrival).eraseDups.length := by
        rw [triples_structuralEdges_self hg hs hfit, hmap]
    _ = (g.edges.map g.foldedTriple).eraseDups.length := length_eraseDups_map_eq hsame

end Edges

/-! ## No collisions and no parallel edges -/

section Identity
variable {g : Graph} (hg : g.WellFormed) {detector : String} {ops : List Operation} {span : Span}

theorem entities_of_nodup (hk : g.keys.Nodup) :
    (ofGraph g).entities = g.nodes.map fun n => ⟨n.key, n.id, n⟩ := Index.entities_ofNodes hk

include hg

theorem withoutVersions_run (hk : g.keys.Nodup) :
    (run detector g g (.ofGraphs g g ops) ops span).1.graph.nodes.map Node.withoutVersions =
      g.nodes.map Node.withoutVersions := by
  rw [nodes_run, nodes_self hg, entities_of_nodup hk, List.map_map]
  apply List.ext_getElem
  · simp
  · intro i hi hi'
    have hi₀ : i < g.nodes.length := by simpa using hi'
    have hn := withoutVersions_unaltered hg ops span ⟨g.nodes[i].key, g.nodes[i].id, g.nodes[i]⟩
    simp only [List.getElem_map, List.getElem_mapIdx, Function.comp_apply]
    calc (Node.renumber ⟨i⟩ _).withoutVersions
        = Node.renumber ⟨i⟩ g.nodes[i].withoutVersions := congrArg (Node.renumber ⟨i⟩) hn
      _ = Node.renumber g.nodes[i].id g.nodes[i].withoutVersions := by
          rw [hg.built.numbered.id_getElem hi₀]
      _ = g.nodes[i].withoutVersions := rfl

theorem lookup_ids1_of_nodup (ops : List Operation) (span : Span) (hk : g.keys.Nodup) {n : Node}
    (hn : n ∈ g.nodes) :
    (ids1 span g (.ofGraphs g g ops)).lookup n.id = some n.id := by
  refine ((settles1 hg hg ops span).lookup_eq_some_iff hn).mpr ?_
  obtain ⟨i, hi, rfl⟩ := List.getElem_of_mem hn
  have hid := hg.built.numbered.id_getElem hi
  have hnodes : nodes span (.ofGraphs g g ops) =
      g.nodes.map fun n => unaltered span (.ofGraphs g g ops) ⟨n.key, n.id, n⟩ := by
    rw [nodes_self hg, entities_of_nodup hk, List.map_map]
    rfl
  have hlt : i < (nodes span (.ofGraphs g g ops)).length := by
    rw [hnodes, List.length_map]
    exact hi
  rw [Graph.findKey?_of_nodup hk hn]
  simp only [hid, hnodes, List.getElem_map]
  exact ⟨by rwa [hnodes] at hlt, by rw [unaltered]⟩

variable (hs : g.Structural) (hk : g.keys.Nodup)
include hs hk

theorem through?_of_nodup {e : Edge} (he : e ∈ g.edges) :
    e.through? (ids1 span g (.ofGraphs g g ops)) = some e.triple := by
  obtain ⟨-, hsource, htarget⟩ := hs e he
  obtain ⟨n, hn, hns⟩ := List.mem_map.mp hsource
  obtain ⟨n', hn', hnt⟩ := List.mem_map.mp htarget
  have hls := lookup_ids1_of_nodup hg ops span hk hn
  have hlt := lookup_ids1_of_nodup hg ops span hk hn'
  rw [hns] at hls
  rw [hnt] at hlt
  exact through?_eq_some_iff.mpr ⟨e.source, hls, e.target, hlt, rfl⟩

variable (ht : g.triples.Nodup)
variable (hfit : (run detector g g (.ofGraphs g g ops) ops span).1.graph.EdgesFit)
include ht hfit

theorem triples_of_nodup :
    (run detector g g (.ofGraphs g g ops) ops span).1.structuralEdges.map Edge.triple = g.triples := by
  have hsame : g.edges.filterMap (·.through? (ids1 span g (.ofGraphs g g ops))) = g.triples := by
    rw [Graph.triples, ← List.filterMap_eq_map]
    exact List.filterMap_congr fun e he => through?_of_nodup hg hs hk he
  rw [triples_structuralEdges_self hg hs hfit, hsame, eraseDups_eq_self ht]

theorem content_of_nodup {x e : Edge} (he : e ∈ g.edges) (hxe : x.triple = e.triple)
    (hx : x ∈ (run detector g g (.ofGraphs g g ops) ops span).1.structuralEdges) :
    x.content = e.content := by
  -- Both copies that can be the strongest are the edge itself.
  obtain ⟨best, hbest, hcontent⟩ := (strongest_structuralEdges hs hs hfit x hx).exists_mem
  have hcopy : best ∈ g.edges ∧ best.through? (ids1 span g (.ofGraphs g g ops)) = some x.triple := by
    rcases List.mem_append.mp hbest with hb | hb
    · simpa using List.mem_filter.mp hb
    · obtain ⟨hb, hthrough⟩ := List.mem_filter.mp hb
      exact ⟨hb, (through?_self hg hs ops span hb).trans (of_decide_eq_true hthrough)⟩
  obtain ⟨hb, hthrough⟩ := hcopy
  rw [through?_of_nodup hg hs hk hb, hxe, Option.some.injEq] at hthrough
  rw [hcontent, List.inj_on_of_nodup_map ht hb he hthrough]

theorem structuralEdges_of_nodup :
    (run detector g g (.ofGraphs g g ops) ops span).1.structuralEdges = g.edges := by
  have htriples := triples_of_nodup hg hs hk ht hfit
  have hnumbered : Edge.Numbered
      (run detector g g (.ofGraphs g g ops) ops span).1.structuralEdges := by
    rw [structuralEdges_run hs hs hfit]
    exact (exact_structural span g g _).numbered
  have hlength := congrArg List.length htriples
  rw [List.length_map, Graph.triples, List.length_map] at hlength
  -- An edge is its number, its triple and its content.
  apply List.ext_getElem hlength
  intro i hi hi'
  have htriple := List.getElem_of_eq htriples (by rwa [List.length_map])
  simp only [Graph.triples, List.getElem_map] at htriple
  refine Edge.eq_of_content_eq ?_ htriple ?_
  · rw [hnumbered.id_getElem hi, hg.built.edges_numbered.id_getElem hi']
  · exact content_of_nodup hg hs hk ht hfit (List.getElem_mem hi') htriple (List.getElem_mem hi)

end Identity

/-- What becomes of a version that is merged with itself. -/
structure SelfMerge (g : Graph) (m : Matching) (r : Merged) : Prop where
  rekeys : m.rekeys = []
  unchanged : ∀ x ∈ r.graph.nodes, x.status = some .unchanged
  nodes_length : r.graph.nodes.length = g.keys.eraseDups.length
  edges_length : r.structuralEdges.length = (g.edges.map g.foldedTriple).eraseDups.length
  nodes_eq : g.keys.Nodup →
    r.graph.nodes.map Node.withoutVersions = g.nodes.map Node.withoutVersions
  edges_eq : g.keys.Nodup → g.triples.Nodup → r.structuralEdges = g.edges

/-- Merging a version with itself folds its nodes and edges, and is the identity if it need not. -/
theorem selfMerge_run {g : Graph} (hg : g.WellFormed) (hs : g.Structural) {detector : String}
    {ops : List Operation} {span : Span}
    (hfit : (run detector g g (.ofGraphs g g ops) ops span).1.graph.EdgesFit) :
    SelfMerge g (.ofGraphs g g ops) (run detector g g (.ofGraphs g g ops) ops span).1 where
  rekeys := Matching.rekeys_self hg ops
  unchanged x hx := by
    have hstatuses := map_nodes_run (f := (·.status)) (fun _ _ => rfl) detector g g
      (.ofGraphs g g ops) ops span
    rw [nodes_self hg, List.map_map] at hstatuses
    obtain ⟨e, -, he⟩ := List.mem_map.mp (hstatuses ▸ List.mem_map_of_mem hx)
    rw [← he]
    exact status_unaltered span _ e
  nodes_length := by
    rw [nodes_run, List.length_mapIdx, nodes_self hg, List.length_map, length_entities hg]
  edges_length := length_structuralEdges_self hg hs hfit
  nodes_eq hk := withoutVersions_run hg hk
  edges_eq hk ht := structuralEdges_of_nodup hg hs hk ht hfit

section Sample

def doubled (g : Graph) : Merged :=
  (run defaultDetector g g (.ofGraphs g g [.renameAt 3]) [.renameAt 3] ⟨.new "c0" 0, .new "c1" 1⟩).1

theorem selfMerge_calls :
    callsBefore.WellFormed ∧ callsBefore.Structural ∧ (doubled callsBefore).graph.EdgesFit ∧
      (callsBefore.edges.map callsBefore.foldedTriple).eraseDups.length = 1 ∧
      SelfMerge callsBefore (.ofGraphs callsBefore callsBefore [.renameAt 3]) (doubled callsBefore) ∧
    callsAfter.WellFormed ∧ callsAfter.Structural ∧ (doubled callsAfter).graph.EdgesFit ∧
      callsAfter.keys.Nodup ∧ callsAfter.triples.Nodup ∧
      SelfMerge callsAfter (.ofGraphs callsAfter callsAfter [.renameAt 3]) (doubled callsAfter) := by
  have hw1 : callsBefore.WellFormed := (parsed_calls _ _).toWellFormed
  have hw2 : callsAfter.WellFormed := (parsed_calls _ _).toWellFormed
  have hs1 : callsBefore.Structural := by decide +kernel
  have hs2 : callsAfter.Structural := by decide +kernel
  have hfit1 : (doubled callsBefore).graph.EdgesFit := by
    unfold Graph.EdgesFit
    decide +kernel
  have hfit2 : (doubled callsAfter).graph.EdgesFit := by
    unfold Graph.EdgesFit
    decide +kernel
  exact ⟨hw1, hs1, hfit1, by decide +kernel, selfMerge_run hw1 hs1 hfit1,
    hw2, hs2, hfit2, by decide +kernel, by decide +kernel, selfMerge_run hw2 hs2 hfit2⟩

end Sample

end Merge

end Lineage
