import Lineage.Proofs.Landing
import Lineage.Proofs.StructuralEdges
/-! # Evolution edges and what they come from

The operations that are placed contribute edges, the first of each triple is emitted, and what is
emitted is lifted to types. The evolution edges of the merged graph have the triples of what is
contributed or lifted, and each is as strong as the strongest of these. Main statements:
`exists_placed`, `exists_emitted`, `strongest_run`, `exists_edge_iff_connects`, `warnings_run`.
-/
namespace Lineage

open Refactoring (Operation)
open Index (ofGraph)
open EdgeStore (Anchored)

namespace Merge

section Placed
variable {detector : String} {v1 v2 : Graph} {m : Matching} {ops : List Operation} {span : Span}
variable {op : Operation} {c : Contribution} {s t : NodeId}
variable (h1 : v1.Built) (h2 : v2.Built) (hm : m = .ofGraphs v1 v2 ops)
include h1 h2 hm

theorem exists_represents (hc : c ∈ placed (outcomes detector v1 v2 m ops span)) :
    ∃ op ∈ ops, Represents detector span v1 v2 (run detector v1 v2 m ops span).1 op c := by
  subst hm
  obtain ⟨op, hop, cs, hcs, hmem⟩ := mem_placed_iff.mp hc
  have hcontributes := contributes_contributions detector span h1 h2 ops op
  rw [hcs] at hcontributes
  cases hcontributes with
  | ok _ hrep _ => exact ⟨op, hop, hrep c hmem⟩

theorem exists_placed (hop : op ∈ ops)
    (hst : Connects v1 v2 (run detector v1 v2 m ops span).1 op s t) :
    ∃ c ∈ placed (outcomes detector v1 v2 m ops span),
      Represents detector span v1 v2 (run detector v1 v2 m ops span).1 op c ∧
        c.edge.source = s ∧ c.edge.target = t := by
  subst hm
  have hcontributes := contributes_contributions detector span h1 h2 ops op
  generalize hcs : contributions span detector v1 v2 (.ofGraphs v1 v2 ops) _ _ op = outcome
    at hcontributes
  cases hcontributes with
  | error hw =>
    -- An operation that complains lands nowhere on one side and connects nothing.
    obtain ⟨hs, ht⟩ := hst.mem
    rw [complaint?, if_neg (List.ne_nil_of_mem hs), if_neg (List.ne_nil_of_mem ht)] at hw
    cases hw
  | @ok cs _ hrep hall =>
    obtain ⟨c, hc, hends⟩ := hall s t hst
    exact ⟨c, mem_placed_iff.mpr ⟨op, hop, cs, hcs, hc⟩, hrep c hc, hends⟩

end Placed

theorem Represents.triple {detector : String} {span : Span} {v1 v2 : Graph} {r : Merged}
    {op : Operation} {c : Contribution} (h : Represents detector span v1 v2 r op c) :
    c.edge.triple = ⟨c.edge.source, op.kind.edgeKind, c.edge.target⟩ := by
  obtain ⟨old, new, he⟩ := h.edge
  rw [he]
  rfl

theorem Represents.confidence {detector : String} {span : Span} {v1 v2 : Graph} {r : Merged}
    {op : Operation} {c : Contribution} (h : Represents detector span v1 v2 r op c) :
    c.edge.confidence = op.confidence := by
  obtain ⟨old, new, he⟩ := h.edge
  rw [he]
  rfl

/-! ## The first of each triple -/

/-- What is kept of some contributions has all of their triples that are not known. -/
structure Covers (known : List Triple) (cs out : List Contribution) : Prop where
  subset : out ⊆ cs
  covers : ∀ c ∈ cs, c.edge.triple ∉ known → ∃ c' ∈ out, c'.edge.triple = c.edge.triple

section Emission
variable {known : List Triple} {s : EdgeStore} {cs out : List Contribution} {d : Contribution}

theorem Covers.keep (h : Covers known cs out) : Covers known (cs ++ [d]) (out ++ [d]) := by
  constructor
  · intro c hc
    rcases List.mem_append.mp hc with hc | hc
    · exact List.mem_append_left _ (h.subset hc)
    · exact List.mem_append_right _ hc
  · intro c hc hunknown
    rcases List.mem_append.mp hc with hc | hc
    · obtain ⟨c', hc', ht⟩ := h.covers c hc hunknown
      exact ⟨c', List.mem_append_left _ hc', ht⟩
    · exact ⟨c, List.mem_append_right _ hc, rfl⟩

theorem Covers.skip (h : Covers known cs out)
    (hd : d.edge.triple ∈ known ∨ ∃ c ∈ cs, c.edge.triple = d.edge.triple) :
    Covers known (cs ++ [d]) out := by
  constructor
  · intro c hc
    exact List.mem_append_left _ (h.subset hc)
  · intro c hc hunknown
    rcases List.mem_append.mp hc with hc | hc
    · exact h.covers c hc hunknown
    · obtain rfl := List.mem_singleton.mp hc
      obtain ⟨b, hb, ht⟩ := hd.resolve_left hunknown
      rw [← ht] at hunknown ⊢
      exact h.covers b hb hunknown

theorem covers_emitAll (h : s.Exact) (hends : ∀ c ∈ cs, Anchored s.graph c.edge) :
    Covers s.graph.triples cs (cs.foldl emit (s, [])).2 := by
  induction cs using List.reverseRecOn with
  | nil => exact ⟨nofun, nofun⟩
  | append_singleton cs d ih =>
    have hcs : ∀ c ∈ cs, Anchored s.graph c.edge := fun c hc => hends c (List.mem_append_left _ hc)
    have hfst : (cs.foldl emit (s, [])).1 = s.insertAll (cs.map (·.edge)) := fst_emitAll _ _
    have hsnd : ((cs ++ [d]).foldl emit (s, [])).2 =
        if ((cs.foldl emit (s, [])).1.insert d.edge).1 then (cs.foldl emit (s, [])).2 ++ [d]
        else (cs.foldl emit (s, [])).2 := by
      rw [List.foldl_append, List.foldl_cons, List.foldl_nil]
      rfl
    rw [hsnd]
    split
    · exact (ih hcs).keep
    · rename_i hold
      -- A triple that is known by now was known before or inserted for a contribution.
      have hd : Anchored (s.insertAll (cs.map (·.edge))).graph d.edge := by
        rw [EdgeStore.anchored_insertAll_iff]
        exact hends d (List.mem_append_right _ List.mem_cons_self)
      have hanchored : ∀ e ∈ cs.map (·.edge), Anchored s.graph e := by
        intro e he
        obtain ⟨c, hc, rfl⟩ := List.mem_map.mp he
        exact hcs c hc
      rw [hfst, EdgeStore.fst_insert_iff (EdgeStore.exact_insertAll h _), and_iff_right hd, not_not,
        EdgeStore.triples_insertAll h hanchored, List.mem_eraseDups, List.mem_append, List.map_map,
        List.mem_map] at hold
      exact (ih hcs).skip hold

end Emission

section Run
variable {detector : String} {v1 v2 : Graph} {m : Matching} {ops : List Operation} {span : Span}
variable {c : Contribution} {e : Edge} {t : Triple}

theorem anchored_placed (hc : c ∈ placed (outcomes detector v1 v2 m ops span)) :
    Anchored (structural span v1 v2 m).graph c.edge :=
  anchored_of_within (nodes_structural span v1 v2 m) (within_placed hc).2

theorem mem_placed_of_emitted (hc : c ∈ (evolved detector v1 v2 m ops span).2) :
    c ∈ placed (outcomes detector v1 v2 m ops span) :=
  (covers_emitAll (exact_structural span v1 v2 m) fun _ hc => anchored_placed hc).subset hc

theorem exists_edge_run (he : e ∈ evolutions detector v1 v2 m ops span) :
    ∃ x ∈ (run detector v1 v2 m ops span).1.graph.edges, x.triple = e.triple :=
  List.mem_map.mp (mem_triples_run_iff.mpr (.inr ⟨e, he, rfl⟩))

theorem kind_of_mem_lifted (he : e ∈ lifted detector v1 v2 m ops span) : e.kind = .refactored := by
  obtain ⟨c, -, hc⟩ := List.mem_filterMap.mp he
  simp only [propagated?, bind, Option.bind_eq_some_iff, pure, Option.some.injEq] at hc
  obtain ⟨_, -, _, -, _, -, _, -, _, -, _, -, _, -, _, -, _, -, rfl⟩ := hc
  rfl

variable (hs1 : v1.Structural) (hs2 : v2.Structural)
include hs1 hs2

theorem not_mem_triples_structural (ht : t.kind.isEvolution = true) :
    t ∉ (structural span v1 v2 m).graph.triples := by
  intro hmem
  rw [triples_structural, List.mem_eraseDups] at hmem
  obtain ⟨d, hd, rfl⟩ := List.mem_map.mp hmem
  have hkind : d.kind.isEvolution = false := by
    rcases List.mem_append.mp hd with hd | hd
    · exact structural_of_mem_relocated hs1 hd
    · exact structural_of_mem_relocated hs2 hd
  rw [Edge.triple, hkind] at ht
  cases ht

theorem exists_emitted (hc : c ∈ placed (outcomes detector v1 v2 m ops span)) :
    ∃ c' ∈ (evolved detector v1 v2 m ops span).2, c'.edge.triple = c.edge.triple :=
  (covers_emitAll (exact_structural span v1 v2 m) fun _ hc => anchored_placed hc).covers c hc
    (not_mem_triples_structural hs1 hs2 (within_placed hc).1)

theorem exists_copy_run (he : e ∈ (run detector v1 v2 m ops span).1.graph.edges)
    (hk : e.kind.isEvolution = true) :
    ∃ d ∈ evolutions detector v1 v2 m ops span, d.triple = e.triple :=
  (mem_triples_run_iff.mp (List.mem_map_of_mem he)).resolve_left
    (not_mem_triples_structural hs1 hs2 hk)

/-- Every evolution edge says what the strongest contributed or lifted edge of its triple says. -/
theorem strongest_run (hfit : (run detector v1 v2 m ops span).1.graph.EdgesFit)
    (he : e ∈ (run detector v1 v2 m ops span).1.graph.edges) (hk : e.kind.isEvolution = true) :
    e.Strongest ((evolutions detector v1 v2 m ops span).filter (·.triple = e.triple)) := by
  have hrun : (run detector v1 v2 m ops span).1.graph =
      ((EdgeStore.ofGraph (bare (nodes span m))).insertAll
        ((relocated v1 (ids1 span v1 m) ++ relocated v2 (ids2 span v2 m)) ++
          evolutions detector v1 v2 m ops span)).graph := by
    rw [graph_run_eq, structural]
    simp only [EdgeStore.insertAll, List.foldl_append]
  have hends : ∀ d ∈ (relocated v1 (ids1 span v1 m) ++ relocated v2 (ids2 span v2 m)) ++
      evolutions detector v1 v2 m ops span, Anchored (bare (nodes span m)) d := by
    intro d hd
    rcases List.mem_append.mp hd with hd | hd
    · exact anchored_of_within (s := EdgeStore.ofGraph (bare (nodes span m))) rfl (within_both hd)
    · exact anchored_of_within (s := EdgeStore.ofGraph (bare (nodes span m))) rfl
        (within_evolutions hd).2
  rw [hrun] at he hfit
  have hstrong := EdgeStore.strongest_insertAll (edges_bare _) (exact_bare _) hends hfit e he
  have hnone : (relocated v1 (ids1 span v1 m) ++ relocated v2 (ids2 span v2 m)).filter
      (·.triple = e.triple) = [] := by
    rw [List.filter_eq_nil_iff]
    intro d hd hde
    have hmem : e.triple ∈ (structural span v1 v2 m).graph.triples := by
      rw [triples_structural, List.mem_eraseDups]
      exact List.mem_map.mpr ⟨d, hd, by simpa using hde⟩
    exact not_mem_triples_structural hs1 hs2 hk hmem
  rw [List.filter_append, hnone, List.nil_append] at hstrong
  exact hstrong

theorem exists_best_run (hfit : (run detector v1 v2 m ops span).1.graph.EdgesFit)
    (he : e ∈ (run detector v1 v2 m ops span).1.graph.edges) (hk : e.kind.isEvolution = true) :
    ∃ d ∈ evolutions detector v1 v2 m ops span,
      d.triple = e.triple ∧ e.confidence = d.confidence ∧ e.attributes = d.attributes := by
  obtain ⟨d, hd, hcontent⟩ := (strongest_run hs1 hs2 hfit he hk).exists_mem
  obtain ⟨hmem, htriple⟩ := List.mem_filter.mp hd
  exact ⟨d, hmem, of_decide_eq_true htriple, congrArg Prod.fst hcontent,
    congrArg (fun c => c.2.2) hcontent⟩

end Run

/-! ## Operations and edges -/

section Connected
variable {detector : String} {v1 v2 : Graph} {m : Matching} {ops : List Operation} {span : Span}
variable {op : Operation} {k : EdgeKind} {e : Edge} {s t : NodeId}
variable (h1 : v1.Built) (h2 : v2.Built) (hm : m = .ofGraphs v1 v2 ops)
include h1 h2 hm

theorem represents_or_lifted (he : e ∈ evolutions detector v1 v2 m ops span) :
    (∃ op ∈ ops, ∃ c, Represents detector span v1 v2 (run detector v1 v2 m ops span).1 op c ∧
      c.edge = e) ∨ e ∈ lifted detector v1 v2 m ops span := by
  rcases List.mem_append.mp he with he | he
  · obtain ⟨c, hc, hce⟩ := List.mem_map.mp he
    obtain ⟨op, hop, hrep⟩ := exists_represents h1 h2 hm hc
    exact .inl ⟨op, hop, c, hrep, hce⟩
  · exact .inr he

theorem exists_connected_run (hop : op ∈ ops)
    (hst : Connects v1 v2 (run detector v1 v2 m ops span).1 op s t) :
    ∃ e ∈ (run detector v1 v2 m ops span).1.graph.edges, e.triple = ⟨s, op.kind.edgeKind, t⟩ := by
  obtain ⟨c, hc, hrep, rfl, rfl⟩ := exists_placed h1 h2 hm hop hst
  obtain ⟨e, he, het⟩ := exists_edge_run (List.mem_append_left _ (List.mem_map_of_mem hc))
  exact ⟨e, he, het.trans hrep.triple⟩

theorem exists_edge_iff_connects (hs1 : v1.Structural) (hs2 : v2.Structural)
    (hk : k.isEvolution = true) (hne : k ≠ .refactored) :
    (∃ e ∈ (run detector v1 v2 m ops span).1.graph.edges, e.triple = ⟨s, k, t⟩) ↔
      ∃ op ∈ ops, op.kind.edgeKind = k ∧
        Connects v1 v2 (run detector v1 v2 m ops span).1 op s t := by
  constructor
  · rintro ⟨e, he, het⟩
    have hkind : e.kind = k := congrArg Triple.kind het
    obtain ⟨d, hd, hde⟩ := exists_copy_run hs1 hs2 he (hkind ▸ hk)
    rw [het] at hde
    rcases represents_or_lifted h1 h2 hm hd with ⟨op, hop, c, hrep, rfl⟩ | hlifted
    · rw [hrep.triple, Triple.mk.injEq] at hde
      have hconnects := hrep.connects
      rw [hde.1, hde.2.2] at hconnects
      exact ⟨op, hop, hde.2.1, hconnects⟩
    · have hdk : d.kind = k := congrArg Triple.kind hde
      exact absurd (hdk.symm.trans (kind_of_mem_lifted hlifted)) hne
  · rintro ⟨op, hop, rfl, hst⟩
    exact exists_connected_run h1 h2 hm hop hst

end Connected

end Merge

end Lineage
