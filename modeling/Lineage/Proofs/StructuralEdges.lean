import Lineage.Proofs.Relocation
/-! # The edges of two versions in one graph

Structural edges of both versions that come to join the same merged nodes in the same relation are
one edge of the merged graph, in the place of the first of them and with what the earliest of the most
confident says. Operations add evolution edges and leave these alone. Main statements:
`triples_relocated`, `filter_relocated`, `structuralEdges_run`.
-/
namespace Lineage

open Refactoring (Operation)

/-- The triple of an edge once its ends have gone where the table says. -/
def Edge.through? (ids : List (NodeId × NodeId)) (e : Edge) : Option Triple := do
  return ⟨← ids.lookup e.source, e.kind, ← ids.lookup e.target⟩

def Merged.structuralEdges (r : Merged) : List Edge := r.graph.edges.filter (!·.kind.isEvolution)

/-- Every edge is found in the code itself and joins two nodes of the graph. -/
def Graph.Structural (g : Graph) : Prop :=
  ∀ e ∈ g.edges, e.kind.isEvolution = false ∧
    e.source ∈ g.nodes.map (·.id) ∧ e.target ∈ g.nodes.map (·.id)

instance (g : Graph) : Decidable g.Structural :=
  inferInstanceAs (Decidable (∀ e ∈ g.edges, e.kind.isEvolution = false ∧
    e.source ∈ g.nodes.map (·.id) ∧ e.target ∈ g.nodes.map (·.id)))

namespace Merge

section Relocated
variable {g : Graph} {ids : List (NodeId × NodeId)}

theorem relocated_eq (g : Graph) (ids : List (NodeId × NodeId)) :
    relocated g ids = g.edges.filterMap fun e =>
      (e.through? ids).map fun t => e.withEndpoints t.source t.target := by
  unfold relocated
  congr 1
  funext e
  simp only [Edge.through?, bind, pure]
  cases ids.lookup e.source with
  | none => rfl
  | some s =>
    cases ids.lookup e.target with
    | none => rfl
    | some t => rfl

theorem through?_eq_some_iff {e : Edge} {t : Triple} : e.through? ids = some t ↔
    ∃ s, ids.lookup e.source = some s ∧ ∃ d, ids.lookup e.target = some d ∧ ⟨s, e.kind, d⟩ = t := by
  simp only [Edge.through?, bind, Option.bind_eq_some_iff, pure, Option.some.injEq]

theorem kind_of_through? {e : Edge} {t : Triple} (h : e.through? ids = some t) : t.kind = e.kind := by
  obtain ⟨s, -, d, -, rfl⟩ := through?_eq_some_iff.mp h
  rfl

theorem triple_relocate {e : Edge} {t : Triple} (h : e.through? ids = some t) :
    (e.withEndpoints t.source t.target).triple = t := by
  rw [Edge.triple_withEndpoints, ← kind_of_through? h]

theorem triples_relocated (g : Graph) (ids : List (NodeId × NodeId)) :
    (relocated g ids).map Edge.triple = g.edges.filterMap (·.through? ids) := by
  rw [relocated_eq, List.map_filterMap]
  congr 1
  funext e
  cases h : e.through? ids with
  | none => rfl
  | some t =>
    have ht := triple_relocate h
    rw [Option.map_some, Option.map_some, ht]

theorem filter_relocated (g : Graph) (ids : List (NodeId × NodeId)) (t : Triple) :
    (relocated g ids).filter (·.triple = t) =
      (g.edges.filter (·.through? ids = some t)).map (·.withEndpoints t.source t.target) := by
  rw [relocated_eq]
  generalize g.edges = es
  induction es with
  | nil => rfl
  | cons e es ih =>
    rw [List.filterMap_cons, List.filter_cons]
    cases h : e.through? ids with
    | none => simpa [h] using ih
    | some u =>
      have hu := triple_relocate h
      by_cases hut : u = t
      · subst hut
        simp [hu, ih]
      · simp [hu, hut, ih]

theorem exists_through? (hg : g.Structural)
    (hids : ∀ n ∈ g.nodes, ∃ j, ids.lookup n.id = some j) {e : Edge} (he : e ∈ g.edges) :
    ∃ t, e.through? ids = some t := by
  obtain ⟨-, hs, ht⟩ := hg e he
  obtain ⟨n, hn, hns⟩ := List.mem_map.mp hs
  obtain ⟨n', hn', hnt⟩ := List.mem_map.mp ht
  obtain ⟨s, hs⟩ := hids n hn
  obtain ⟨t, ht⟩ := hids n' hn'
  rw [hns] at hs
  rw [hnt] at ht
  exact ⟨⟨s, e.kind, t⟩, through?_eq_some_iff.mpr ⟨s, hs, t, ht, rfl⟩⟩

end Relocated

structure Deduplicated (v1 v2 : Graph) (r : Merged) : Prop where
  triples_nodup : r.graph.triples.Nodup
  triples : r.structuralEdges.map Edge.triple =
    (v1.edges.filterMap (·.through? r.ids1) ++ v2.edges.filterMap (·.through? r.ids2)).eraseDups
  represented1 : ∀ e ∈ v1.edges, ∃ x ∈ r.structuralEdges, e.through? r.ids1 = some x.triple
  represented2 : ∀ e ∈ v2.edges, ∃ x ∈ r.structuralEdges, e.through? r.ids2 = some x.triple
  strongest : ∀ x ∈ r.structuralEdges, x.Strongest
    (v1.edges.filter (·.through? r.ids1 = some x.triple) ++
      v2.edges.filter (·.through? r.ids2 = some x.triple))

section Run
variable {detector : String} {v1 v2 : Graph} {m : Matching} {ops : List Operation} {span : Span}
variable (hs1 : v1.Structural) (hs2 : v2.Structural)

theorem structural_of_mem_relocated {g : Graph} (hg : g.Structural) {ids : List (NodeId × NodeId)}
    {e : Edge} (he : e ∈ relocated g ids) : e.kind.isEvolution = false := by
  rw [relocated_eq] at he
  obtain ⟨d, hd, hr⟩ := List.mem_filterMap.mp he
  obtain ⟨t, -, rfl⟩ := Option.map_eq_some_iff.mp hr
  exact (hg d hd).1

include hs1 hs2

/-- The structural edges are those that are inserted first. -/
theorem structuralEdges_run (hfit : (run detector v1 v2 m ops span).1.graph.EdgesFit) :
    (run detector v1 v2 m ops span).1.structuralEdges = (structural span v1 v2 m).graph.edges := by
  -- The filter keeps what comes from the versions, since triples tell the kinds of their edges.
  rw [Merged.structuralEdges, (filter_run hfit).2, List.filter_eq_self]
  intro e he
  have hmem : e.triple ∈ (structural span v1 v2 m).graph.triples := List.mem_map_of_mem he
  rw [triples_structural, List.mem_eraseDups] at hmem
  obtain ⟨d, hd, ht⟩ := List.mem_map.mp hmem
  have hkind : d.kind = e.kind := congrArg Triple.kind ht
  have hd' : d.kind.isEvolution = false := by
    rcases List.mem_append.mp hd with hd | hd
    · exact structural_of_mem_relocated hs1 hd
    · exact structural_of_mem_relocated hs2 hd
  rw [← hkind, hd']
  rfl

theorem triples_structuralEdges (hfit : (run detector v1 v2 m ops span).1.graph.EdgesFit) :
    (run detector v1 v2 m ops span).1.structuralEdges.map Edge.triple =
      (v1.edges.filterMap (·.through? (ids1 span v1 m)) ++
        v2.edges.filterMap (·.through? (ids2 span v2 m))).eraseDups := by
  have htriples := triples_structural span v1 v2 m
  rw [List.map_append, triples_relocated, triples_relocated] at htriples
  rw [structuralEdges_run hs1 hs2 hfit]
  exact htriples

theorem strongest_structuralEdges (hfit : (run detector v1 v2 m ops span).1.graph.EdgesFit) :
    ∀ x ∈ (run detector v1 v2 m ops span).1.structuralEdges, x.Strongest
      (v1.edges.filter (·.through? (ids1 span v1 m) = some x.triple) ++
        v2.edges.filter (·.through? (ids2 span v2 m) = some x.triple)) := by
  intro x hx
  rw [structuralEdges_run hs1 hs2 hfit] at hx
  have hstrong := EdgeStore.strongest_insertAll (s := EdgeStore.ofGraph (bare (nodes span m)))
    (edges_bare _) (exact_bare _) (fun e he => anchored_of_within rfl (within_both he))
    (filter_run hfit).1 x hx
  rw [List.filter_append, filter_relocated, filter_relocated, ← List.map_append] at hstrong
  exact Edge.Strongest.of_map (f := fun e => e.withEndpoints x.triple.source x.triple.target)
    (fun _ => rfl) hstrong

/-- Nothing of the two versions' structural edges is lost, and nothing is there twice. -/
theorem deduplicated_run (h1 : v1.Built) (h2 : v2.Built)
    (hfit : (run detector v1 v2 (.ofGraphs v1 v2 ops) ops span).1.graph.EdgesFit) :
    Deduplicated v1 v2 (run detector v1 v2 (.ofGraphs v1 v2 ops) ops span).1 := by
  have htriples := triples_structuralEdges hs1 hs2 hfit
  have hfound : ∀ t ∈ v1.edges.filterMap (·.through? (ids1 span v1 (.ofGraphs v1 v2 ops))) ++
      v2.edges.filterMap (·.through? (ids2 span v2 (.ofGraphs v1 v2 ops))),
      ∃ x ∈ (run detector v1 v2 (.ofGraphs v1 v2 ops) ops span).1.structuralEdges, x.triple = t := by
    intro t ht
    rw [← List.mem_eraseDups, ← htriples] at ht
    exact List.mem_map.mp ht
  refine ⟨triples_nodup_run, htriples, fun e he => ?_, fun e he => ?_,
    strongest_structuralEdges hs1 hs2 hfit⟩
  · obtain ⟨t, ht⟩ := exists_through? hs1 (fun n hn => exists_ids1 h1 span ops hn) he
    have hmem := List.mem_filterMap.mpr ⟨e, he, ht⟩
    obtain ⟨x, hx, rfl⟩ := hfound t (List.mem_append_left _ hmem)
    exact ⟨x, hx, ht⟩
  · obtain ⟨t, ht⟩ := exists_through? hs2 (fun n hn => exists_ids2 h1 h2 span ops hn) he
    have hmem := List.mem_filterMap.mpr ⟨e, he, ht⟩
    obtain ⟨x, hx, rfl⟩ := hfound t (List.mem_append_right _ hmem)
    exact ⟨x, hx, ht⟩

end Run

section Sample

def calls (ms : List (String × UInt32)) (cs : List (Nat × Nat × Confidence × String)) : Graph :=
  .ofLists (Graph.ofMethods ms).nodes <| cs.map fun c =>
    { source := ⟨c.1⟩, target := ⟨c.2.1⟩, kind := .calls, confidence := c.2.2.1, label := some c.2.2.2 }

theorem parsed_calls (ms : List (String × UInt32)) (cs : List (Nat × Nat × Confidence × String)) :
    (calls ms cs).Parsed := by
  have hms := Graph.parsed_ofMethods ms
  exact Graph.parsed_ofLists (fun n hn => ⟨hms.typed n hn, hms.unversioned n hn⟩) _

/-- The method `foo`, renamed to `baz` in the newer version, calls `bar`, which is there twice. -/
def callsBefore : Graph :=
  calls [("foo", 3), ("bar", 7), ("bar", 7)]
    [(0, 1, ⟨false, 0x3F000000⟩, "by name"), (0, 2, .one, "by type")]

def callsAfter : Graph := calls [("bar", 7), ("baz", 3)] [(1, 0, .one, "again"), (0, 0, .one, "itself")]

def callsMerged : Merged :=
  (run defaultDetector callsBefore callsAfter (.ofGraphs callsBefore callsAfter [.renameAt 3])
    [.renameAt 3] ⟨.new "c0" 0, .new "c1" 1⟩).1

/-- The three calls of `bar` by the renamed method are one edge, with the earliest certain label. -/
theorem deduplicated_calls :
    callsBefore.Structural ∧ callsAfter.Structural ∧ callsBefore.Built ∧ callsAfter.Built ∧
      callsMerged.graph.EdgesFit ∧
      callsMerged.structuralEdges.map (·.label) = [some "by type", some "itself"] ∧
      Deduplicated callsBefore callsAfter callsMerged := by
  have hs1 : callsBefore.Structural := by decide +kernel
  have hs2 : callsAfter.Structural := by decide +kernel
  have h1 : callsBefore.Built := (parsed_calls _ _).built
  have h2 : callsAfter.Built := (parsed_calls _ _).built
  have hfit : callsMerged.graph.EdgesFit := by
    unfold Graph.EdgesFit
    decide +kernel
  exact ⟨hs1, hs2, h1, h2, hfit, by decide +kernel, deduplicated_run hs1 hs2 h1 h2 hfit⟩

end Sample

end Merge

end Lineage
