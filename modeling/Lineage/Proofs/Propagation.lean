import Lineage.Proofs.Placement
/-! # Members that change types

An operation that connects members of two different types is mirrored on the types: the graph has an
edge between them that is at least as confident as the one between the members, and every edge that
says it was lifted from members was. The types are looked up in each version, so this includes members
that are one node of the merged graph. Main statements: `exists_lifts_of_mem_lifted`,
`mem_lifted_of_lifts`, `propagation_run`.
-/
namespace Lineage

open Refactoring (Operation)
open Index (ofGraph)

/-! ## Attributes -/

/-- Of several bindings of one key the last one holds. -/
theorem TextMap.get?_ofList {α : Type} (xs : List (String × α)) (k : String) :
    (TextMap.ofList xs).get? k = xs.reverse.lookup k := by
  induction xs using List.reverseRecOn with
  | nil => rfl
  | append_singleton xs e ih =>
    have hs : TextMap.ofList (xs ++ [e]) = (TextMap.ofList xs).insert e.1 e.2 := List.foldl_append
    rw [hs, TextMap.get?_insert, ih, List.reverse_append]
    exact (lookup_cons_eq_ite k e.1 e.2 xs.reverse).symm

namespace Evolution

theorem get?_collect (xs : List (String × Option String)) (k : String) :
    (collect xs).get? k = xs.reverse.findSome? fun e => if k = e.1 then e.2 else none := by
  rw [collect, TextMap.get?_ofList, ← List.filterMap_reverse]
  induction xs.reverse with
  | nil => rfl
  | cons e es ih =>
    obtain ⟨j, v⟩ := e
    rw [List.findSome?_cons]
    cases v with
    | none =>
      have hskip : (if k = j then (none : Option String) else none) = none := by split <;> rfl
      rw [hskip, ← ih]
      rfl
    | some v =>
      show List.lookup k ((j, v) :: _) = _
      rw [lookup_cons_eq_ite, ih]
      by_cases hk : k = j
      · rw [if_pos hk, if_pos hk]
      · rw [if_neg hk, if_neg hk]

section Edge
variable {op : Operation} {s t : NodeId} {old new : Node} {o : Origin}

theorem refactoringType_edge : (edge op s t old new o).attr "refactoringType" = some op.kind.name := by
  rw [Edge.attr, edge, get?_collect, attributes, List.reverse_append, List.findSome?_append]
  have hnone : (particulars op old new).reverse.findSome?
      (fun e => if "refactoringType" = e.1 then e.2 else none) = none := by
    unfold particulars
    split <;> simp
  rw [hnone]
  simp

/-- The edge of an operation does not say that it was lifted. -/
theorem propagatedMemberType_edge : (edge op s t old new o).attr "propagatedMemberType" = none := by
  rw [Edge.attr, edge, get?_collect, List.findSome?_eq_none_iff]
  intro e he
  rw [List.mem_reverse, attributes, List.mem_append] at he
  have hkey : "propagatedMemberType" ≠ e.1 := by
    rcases he with he | he
    · revert e
      simp
    · unfold particulars at he
      split at he <;> revert e <;> simp
  rw [if_neg hkey]

end Edge

section MemberEdge
variable {s t : NodeId} {k : NodeKind} {e : Edge}

theorem propagatedMemberType_memberEdge :
    (memberEdge s t k e).attr "propagatedMemberType" = some k.name := by
  rw [Edge.attr, memberEdge, get?_collect]
  simp

theorem propagatedMemberRefactoring_memberEdge :
    (memberEdge s t k e).attr "propagatedMemberRefactoring" =
      some ((e.attr "refactoringType").getD e.kind.label) := by
  rw [Edge.attr, memberEdge, get?_collect]
  simp

/-- The versions are copied from the edge between the members. -/
theorem version_memberEdge {key : String} (hk : key = "fromVersion" ∨ key = "toVersion") :
    (memberEdge s t k e).attr key = e.attr key := by
  rw [Edge.attr, memberEdge, get?_collect]
  rcases hk with rfl | rfl
  · cases h : e.attr "fromVersion" <;> simp [h]
  · cases h : e.attr "toVersion" <;> simp [h]

end MemberEdge

end Evolution

theorem Graph.Structural.exists_type {g : Graph} (hs : g.Structural) (hg : g.Built)
    (hfit : g.NodesFit) {a i : NodeId} (h : g.enclosingType? a = some i) :
    ∃ o ∈ g.nodes, o.id = i ∧ o.kind = .type := by
  obtain ⟨e, he, rfl⟩ := Option.map_eq_some_iff.mp h
  have hmem : e ∈ g.edges :=
    (List.mem_filter.mp (List.mem_reverse.mp (List.mem_of_find?_eq_some he))).1
  have hfound := List.find?_some he
  obtain ⟨o, ho, hoe⟩ := List.mem_map.mp (hs e hmem).2.1
  rw [← hoe, Graph.node?_of_mem hg.numbered hfit ho] at hfound
  rw [Bool.and_eq_true] at hfound
  exact ⟨o, ho, hoe, by simpa using hfound.2⟩

def Merged.HasType (r : Merged) (i : NodeId) : Prop := ∃ n ∈ r.graph.nodes, n.id = i ∧ n.kind = .type

namespace Merge

/-! ## Members and their types -/

/-- An operation connects a member of the older version with one of the newer. Both are canonical,
and they go to the merged nodes `s` and `t`. -/
structure Links (v1 v2 : Graph) (r : Merged) (op : Operation) (a b : Node) (s t : NodeId) : Prop where
  old : a ∈ v1.nodes
  new : b ∈ v2.nodes
  canonical1 : a.id ∈ (ofGraph v1).ids
  canonical2 : b.id ∈ (ofGraph v2).ids
  member1 : a.kind.isMember = true
  member2 : b.kind.isMember = true
  lookup1 : r.ids1.lookup a.id = some s
  lookup2 : r.ids2.lookup b.id = some t
  connects : Connects v1 v2 r op s t

/-- The types around two members go to different merged nodes. -/
structure Apart (v1 v2 : Graph) (r : Merged) (a b : Node) (A B : NodeId) : Prop where
  owner1 : ∃ i, v1.enclosingType? a.id = some i ∧ r.ids1.lookup i = some A
  owner2 : ∃ i, v2.enclosingType? b.id = some i ∧ r.ids2.lookup i = some B
  ne : A ≠ B

/-- The edge `x` that an operation put between two members is lifted to the types around them. -/
structure Lifts (v1 v2 : Graph) (r : Merged) (op : Operation) (a b : Node) (x : Edge)
    (A B : NodeId) : Prop where
  links : Links v1 v2 r op a b x.source x.target
  stored : x ∈ r.graph.edges
  kind : x.kind = op.kind.edgeKind
  apart : Apart v1 v2 r a b A B

theorem canonical_injective {g : Graph} (hg : g.Built) {origin : MergedNode → Option NodeId}
    {ns : List MergedNode} {i j k : NodeId} (hi : i ∈ (ofGraph g).ids) (hj : j ∈ (ofGraph g).ids)
    (hik : (idMap g (ofGraph g) origin ns).lookup i = some k)
    (hjk : (idMap g (ofGraph g) origin ns).lookup j = some k) : i = j := by
  have horigin : ∀ l ∈ (ofGraph g).ids, (idMap g (ofGraph g) origin ns).lookup l = some k →
      ∃ hk : k.number < ns.length, origin ns[k.number] = some l := by
    intro l hl hlk
    obtain ⟨n, hn, rfl⟩ := List.mem_map.mp ((Index.ids_sublist g.nodes).subset hl)
    rw [lookup_idMap hg hn, Index.canonical?_of_mem_ids hl, Option.bind_some] at hlk
    exact position?_eq_some hlk
  obtain ⟨_, hi'⟩ := horigin i hi hik
  obtain ⟨_, hj'⟩ := horigin j hj hjk
  exact Option.some.inj (hi'.symm.trans hj')

section Stored
variable {detector : String} {v1 v2 : Graph} {m : Matching} {ops : List Operation} {span : Span}
variable {c : Contribution} {e x : Edge}

theorem exact_evolved : (evolved detector v1 v2 m ops span).1.Exact := by
  rw [fst_evolved]
  exact EdgeStore.exact_insertAll (exact_structural span v1 v2 m) _

theorem nodes_evolved : (evolved detector v1 v2 m ops span).1.graph.nodes =
    (run detector v1 v2 m ops span).1.graph.nodes := by
  rw [graph_run, EdgeStore.nodes_insertAll]

theorem within_evolved (he : e ∈ (evolved detector v1 v2 m ops span).1.graph.edges) :
    Within (nodes span m) e := by
  obtain ⟨e', he', -, ht, -⟩ := EdgeStore.kept_insertAll exact_evolved
    (lifted detector v1 v2 m ops span) e he
  have hsource : e'.source = e.source := congrArg Triple.source ht
  have htarget : e'.target = e.target := congrArg Triple.target ht
  have hwithin : Within (nodes span m) e' := within_run he'
  rwa [Within, hsource, htarget] at hwithin

theorem exists_stored (hfit : (run detector v1 v2 m ops span).1.graph.NodesFit)
    (hc : c ∈ placed (outcomes detector v1 v2 m ops span)) :
    ∃ x ∈ (evolved detector v1 v2 m ops span).1.graph.edges, x.triple = c.edge.triple ∧
      ((evolved detector v1 v2 m ops span).1.graph.edgesFrom c.edge.source).find?
        (fun e => e.target = c.edge.target && e.kind = c.edge.kind) = some x := by
  have hmem : c.edge.triple ∈ (evolved detector v1 v2 m ops span).1.graph.triples := by
    rw [fst_evolved, EdgeStore.triples_insertAll (exact_structural span v1 v2 m), List.mem_eraseDups]
    · exact List.mem_append_right _ (List.mem_map_of_mem (List.mem_map_of_mem hc))
    · intro e he
      obtain ⟨d, hd, rfl⟩ := List.mem_map.mp he
      exact anchored_placed hd
  obtain ⟨y, hy, ht⟩ := List.mem_map.mp hmem
  have hsource : y.source = c.edge.source := congrArg Triple.source ht
  have htarget : y.target = c.edge.target := congrArg Triple.target ht
  have hkind : y.kind = c.edge.kind := congrArg Triple.kind ht
  have hfrom : y ∈ (evolved detector v1 v2 m ops span).1.graph.edgesFrom c.edge.source :=
    List.mem_reverse.mpr (List.mem_filter.mpr ⟨hy, by simp [hsource]⟩)
  have hsome := List.find?_isSome (p := fun e => e.target = c.edge.target && e.kind = c.edge.kind)
    |>.mpr ⟨y, hfrom, by simp [htarget, hkind]⟩
  obtain ⟨x, hx⟩ := Option.isSome_iff_exists.mp hsome
  obtain ⟨hxmem, hslot⟩ := List.mem_filter.mp (List.mem_reverse.mp (List.mem_of_find?_eq_some hx))
  have hxends := List.find?_some hx
  simp only [Bool.and_eq_true, decide_eq_true_eq] at hxends hslot
  -- The numbers of merged nodes are their own slots, so the edge found has the very source.
  have hlen : (run detector v1 v2 m ops span).1.graph.nodes.length = (nodes span m).length := by
    rw [nodes_run, List.length_mapIdx]
  have hlt : ∀ i : NodeId, i.number < (nodes span m).length → slot i.number = i.number :=
    fun i hi => Graph.slot_eq_of_lt hfit (hlen ▸ hi)
  rw [hlt _ (within_evolved hxmem).1, hlt _ (within_placed hc).2.1] at hslot
  have hxsource : x.source = c.edge.source := congrArg NodeId.mk hslot
  refine ⟨x, hxmem, ?_, hx⟩
  rw [Edge.triple, Edge.triple, hxsource, hxends.1, hxends.2]

end Stored

section Lifted
variable {detector : String} {v1 v2 : Graph} {m : Matching} {ops : List Operation} {span : Span}
variable {op : Operation} {a b : Node} {c : Contribution} {e x : Edge} {s t A B : NodeId}
variable (h1 : v1.Built) (h2 : v2.Built) (hm : m = .ofGraphs v1 v2 ops)
variable (hfit : (run detector v1 v2 m ops span).1.graph.NodesFit)

include h1 h2 hm in
theorem exists_member_evolved (hfit : (run detector v1 v2 m ops span).1.graph.NodesFit)
    (ha : a ∈ v1.nodes) (hb : b ∈ v2.nodes)
    (hs : (run detector v1 v2 m ops span).1.ids1.lookup a.id = some s)
    (ht : (run detector v1 v2 m ops span).1.ids2.lookup b.id = some t) :
    (∃ n, (evolved detector v1 v2 m ops span).1.graph.node? s = some n ∧ n.kind = a.kind) ∧
      ∃ n, (evolved detector v1 v2 m ops span).1.graph.node? t = some n ∧ n.kind = b.kind := by
  subst hm
  have hnode : ∀ {k : NodeKind} {i : NodeId},
      (∃ n ∈ (run detector v1 v2 (.ofGraphs v1 v2 ops) ops span).1.graph.nodes,
        n.id = i ∧ n.kind = k) →
      ∃ n, (evolved detector v1 v2 (.ofGraphs v1 v2 ops) ops span).1.graph.node? i = some n ∧
        n.kind = k := by
    rintro k i ⟨n, hn, rfl, hk⟩
    have hfound := Graph.node?_of_mem (numbered_run detector v1 v2 _ ops span) hfit hn
    rw [Graph.node?, ← nodes_evolved] at hfound
    exact ⟨n, hfound, hk⟩
  exact ⟨hnode (exists_kind_ids1 h1 h2 detector ha hs), hnode (exists_kind_ids2 h2 detector hb ht)⟩

include h1 h2 hm hfit

/-- What is lifted comes from two members of different types. -/
theorem propagated?_eq_some
    (hc : c ∈ placed (outcomes detector v1 v2 m ops span))
    (hop : Represents detector span v1 v2 (run detector v1 v2 m ops span).1 op c)
    (h : propagated? v1 v2 (ids1 span v1 m) (ids2 span v2 m)
      (evolved detector v1 v2 m ops span).1.graph c = some e) :
    ∃ a b A B x, Links v1 v2 (run detector v1 v2 m ops span).1 op a b c.edge.source c.edge.target ∧
      Apart v1 v2 (run detector v1 v2 m ops span).1 a b A B ∧
      x ∈ (evolved detector v1 v2 m ops span).1.graph.edges ∧ x.triple = c.edge.triple ∧
      e = Evolution.memberEdge A B a.kind x := by
  obtain ⟨a, ha, hai⟩ := List.mem_map.mp ((Index.ids_sublist v1.nodes).subset hop.canonical1)
  obtain ⟨b, hb, hbi⟩ := List.mem_map.mp ((Index.ids_sublist v2.nodes).subset hop.canonical2)
  have hlookup1 := hop.lookup1
  have hlookup2 := hop.lookup2
  rw [← hai] at hlookup1
  rw [← hbi] at hlookup2
  obtain ⟨⟨n, hn, hna⟩, n', hn', hnb⟩ := exists_member_evolved h1 h2 hm hfit ha hb hlookup1 hlookup2
  obtain ⟨x, hx, hxt, hfind⟩ := exists_stored hfit hc
  simp only [propagated?, bind, Option.bind_eq_some_iff, pure, Option.some.injEq,
    Option.guard_eq_some', hn, hn', hfind] at h
  obtain ⟨_, rfl, _, rfl, _, hmembers, i, hi, A, hA, j, hj, B, hB, _, hne, _, rfl, rfl⟩ := h
  rw [Bool.and_eq_true, hna, hnb] at hmembers
  refine ⟨a, b, A, B, x, ⟨ha, hb, ?_, ?_, hmembers.1, hmembers.2, hlookup1, hlookup2, hop.connects⟩,
    ⟨⟨i, ?_, hA⟩, ⟨j, ?_, hB⟩, by simpa using hne⟩, hx, hxt, by rw [hna]⟩
  · rw [hai]
    exact hop.canonical1
  · rw [hbi]
    exact hop.canonical2
  · rw [hai]
    exact hi
  · rw [hbi]
    exact hj

theorem exists_propagated? (hc : c ∈ placed (outcomes detector v1 v2 m ops span))
    (hlinks : Links v1 v2 (run detector v1 v2 m ops span).1 op a b c.edge.source c.edge.target)
    (hapart : Apart v1 v2 (run detector v1 v2 m ops span).1 a b A B) (ha : c.v1 = a.id)
    (hb : c.v2 = b.id) :
    ∃ x ∈ (evolved detector v1 v2 m ops span).1.graph.edges, x.triple = c.edge.triple ∧
      propagated? v1 v2 (ids1 span v1 m) (ids2 span v2 m)
        (evolved detector v1 v2 m ops span).1.graph c =
          some (Evolution.memberEdge A B a.kind x) := by
  obtain ⟨⟨n, hn, hna⟩, n', hn', hnb⟩ := exists_member_evolved h1 h2 hm hfit hlinks.old hlinks.new
    hlinks.lookup1 hlinks.lookup2
  obtain ⟨x, hx, hxt, hfind⟩ := exists_stored hfit hc
  obtain ⟨i, hi, hA⟩ := hapart.owner1
  obtain ⟨j, hj, hB⟩ := hapart.owner2
  refine ⟨x, hx, hxt, ?_⟩
  simp only [propagated?, bind, Option.bind_eq_some_iff, pure, Option.some.injEq,
    Option.guard_eq_some', hn, hn', hfind, ha, hb]
  refine ⟨n, rfl, n', rfl, (), ?_, i, hi, A, hA, j, hj, B, hB, (), by simpa using hapart.ne, x, rfl, ?_⟩
  · rw [hna, hnb, hlinks.member1, hlinks.member2]
    rfl
  · rw [hna]

end Lifted

/-- What the lifted edges are to be: there is one for all members of different types that are
connected, unless a more confident edge takes its place, and each tells of the edge it was lifted
from. -/
structure Propagation (v1 v2 : Graph) (ops : List Operation) (r : Merged) : Prop where
  complete : ∀ op ∈ ops, ∀ a b s t A B, Links v1 v2 r op a b s t → Apart v1 v2 r a b A B →
    ∃ x, Lifts v1 v2 r op a b x A B ∧ x.source = s ∧ x.target = t ∧
      ∃ e ∈ r.graph.edges, e.triple = ⟨A, .refactored, B⟩ ∧ x.confidence ≤ e.confidence
  sound : ∀ e ∈ r.graph.edges, e.kind.isEvolution = true → e.attr "propagatedMemberType" ≠ none →
    ∃ op ∈ ops, ∃ a b x, Lifts v1 v2 r op a b x e.source e.target ∧
      r.HasType e.source ∧ r.HasType e.target ∧ e.source ≠ e.target ∧
      e.attr "propagatedMemberType" = some a.kind.name ∧
      e.attr "propagatedMemberRefactoring" = x.attr "refactoringType" ∧
      e.attr "fromVersion" = x.attr "fromVersion" ∧ e.attr "toVersion" = x.attr "toVersion"

section Run
variable {detector : String} {v1 v2 : Graph} {m : Matching} {ops : List Operation} {span : Span}
variable {op : Operation} {a b : Node} {c : Contribution} {e x : Edge} {s t A B : NodeId}
variable (h1 : v1.Built) (h2 : v2.Built) (hs1 : v1.Structural) (hs2 : v2.Structural)
variable (hfit1 : v1.NodesFit) (hfit2 : v2.NodesFit) (hm : m = .ofGraphs v1 v2 ops)
variable (hnodes : (run detector v1 v2 m ops span).1.graph.NodesFit)
variable (hedges : (run detector v1 v2 m ops span).1.graph.EdgesFit)

include h1 h2 hs1 hfit1 hm in
theorem Apart.hasType1 (h : Apart v1 v2 (run detector v1 v2 m ops span).1 a b A B) :
    (run detector v1 v2 m ops span).1.HasType A := by
  subst hm
  obtain ⟨i, hi, hA⟩ := h.owner1
  obtain ⟨o, ho, rfl, hk⟩ := hs1.exists_type h1 hfit1 hi
  obtain ⟨n, hn, hni, hnk⟩ := exists_kind_ids1 h1 h2 detector ho hA
  exact ⟨n, hn, hni, hnk.trans hk⟩

include h2 hs2 hfit2 hm in
theorem Apart.hasType2 (h : Apart v1 v2 (run detector v1 v2 m ops span).1 a b A B) :
    (run detector v1 v2 m ops span).1.HasType B := by
  subst hm
  obtain ⟨j, hj, hB⟩ := h.owner2
  obtain ⟨o, ho, rfl, hk⟩ := hs2.exists_type h2 hfit2 hj
  obtain ⟨n, hn, hni, hnk⟩ := exists_kind_ids2 h2 detector ho hB
  exact ⟨n, hn, hni, hnk.trans hk⟩

include h1 h2 hm in
/-- A member is not merged with a type. -/
theorem Links.not_hasType (h : Links v1 v2 (run detector v1 v2 m ops span).1 op a b s t) :
    ¬(run detector v1 v2 m ops span).1.HasType s := by
  subst hm
  rintro ⟨n, hn, hns, hnk⟩
  obtain ⟨n', hn', hn's, hn'k⟩ := exists_kind_ids1 h1 h2 detector h.old h.lookup1
  have hids := (numbered_run detector v1 v2 (.ofGraphs v1 v2 ops) ops span).nodup
  have heq : n = n' := List.inj_on_of_nodup_map hids hn hn' (hns.trans hn's.symm)
  have hmember := h.member1
  rw [← hn'k, ← heq, hnk] at hmember
  cases hmember

include h1 h2 hs1 hfit1 hm hnodes

theorem hasType_of_mem_lifted (he : e ∈ lifted detector v1 v2 m ops span) :
    (run detector v1 v2 m ops span).1.HasType e.source := by
  obtain ⟨c, hc, hlift⟩ := List.mem_filterMap.mp he
  have hplaced := mem_placed_of_emitted hc
  obtain ⟨op, -, hop⟩ := exists_represents h1 h2 hm hplaced
  obtain ⟨a, b, A, B, x, -, hapart, -, -, rfl⟩ :=
    propagated?_eq_some h1 h2 hm hnodes hplaced hop hlift
  exact hapart.hasType1 h1 h2 hs1 hfit1 hm

include hedges

/-- What is lifted to types leaves the edges between members alone. -/
theorem mem_edges_run_iff_of_links
    (h : Links v1 v2 (run detector v1 v2 m ops span).1 op a b x.source x.target) :
    x ∈ (run detector v1 v2 m ops span).1.graph.edges ↔
      x ∈ (evolved detector v1 v2 m ops span).1.graph.edges := by
  have hother : ∀ e ∈ lifted detector v1 v2 m ops span,
      decide (e.triple = x.triple) = false := by
    intro e he
    rw [decide_eq_false_iff_not]
    intro hex
    have hsource : e.source = x.source := congrArg Triple.source hex
    have htype := hasType_of_mem_lifted h1 h2 hs1 hfit1 hm hnodes he
    rw [hsource] at htype
    exact h.not_hasType h1 h2 hm htype
  have hfit : ((evolved detector v1 v2 m ops span).1.insertAll
      (lifted detector v1 v2 m ops span)).graph.EdgesFit := hedges
  have hfilter := EdgeStore.filter_insertAll (p := fun t => decide (t = x.triple)) exact_evolved
    hfit hother
  have hself : ∀ es : List Edge, x ∈ es ↔ x ∈ es.filter fun e => decide (e.triple = x.triple) := by
    intro es
    simp
  rw [graph_run, hself, hfilter, ← hself]

include hs2

/-- An edge between members names the refactoring it comes from. -/
theorem exists_refactoringType
    (h : Links v1 v2 (run detector v1 v2 m ops span).1 op a b x.source x.target)
    (hx : x ∈ (run detector v1 v2 m ops span).1.graph.edges) (hk : x.kind.isEvolution = true) :
    ∃ name, x.attr "refactoringType" = some name := by
  obtain ⟨best, hbest, htriple, -, hattrs⟩ := exists_best_run hs1 hs2 hedges hx hk
  rcases represents_or_lifted h1 h2 hm hbest with ⟨op', -, c, hop', rfl⟩ | hlifted
  · obtain ⟨old, new, hedge⟩ := hop'.edge
    rw [Edge.attr, hattrs, ← Edge.attr, hedge]
    exact ⟨_, Evolution.refactoringType_edge⟩
  · have hsource : best.source = x.source := congrArg Triple.source htriple
    have htype := hasType_of_mem_lifted h1 h2 hs1 hfit1 hm hnodes hlifted
    rw [hsource] at htype
    exact absurd htype (h.not_hasType h1 h2 hm)

omit hs2 in
theorem exists_lifts_of_mem_lifted (he : e ∈ lifted detector v1 v2 m ops span) :
    ∃ op ∈ ops, ∃ a b x A B, Lifts v1 v2 (run detector v1 v2 m ops span).1 op a b x A B ∧
      e = Evolution.memberEdge A B a.kind x := by
  obtain ⟨c, hc, hlift⟩ := List.mem_filterMap.mp he
  have hplaced := mem_placed_of_emitted hc
  obtain ⟨op, hmem, hop⟩ := exists_represents h1 h2 hm hplaced
  obtain ⟨a, b, A, B, x, hlinks, hapart, hx, hxt, rfl⟩ :=
    propagated?_eq_some h1 h2 hm hnodes hplaced hop hlift
  rw [hop.triple, Edge.triple, Triple.mk.injEq] at hxt
  obtain ⟨hsource, hkind, htarget⟩ := hxt
  rw [← hsource, ← htarget] at hlinks
  have hstored := (mem_edges_run_iff_of_links h1 h2 hs1 hfit1 hm hnodes hedges hlinks).mpr hx
  exact ⟨op, hmem, a, b, x, A, B, ⟨hlinks, hstored, hkind, hapart⟩, rfl⟩

theorem mem_lifted_of_lifts (hmem : op ∈ ops)
    (h : Lifts v1 v2 (run detector v1 v2 m ops span).1 op a b x A B) :
    Evolution.memberEdge A B a.kind x ∈ lifted detector v1 v2 m ops span := by
  -- The operation's own contribution may have come late; the one emitted has the same ends, and
  -- these tell the members.
  obtain ⟨c, hc, hop, hsource, htarget⟩ := exists_placed h1 h2 hm hmem h.links.connects
  obtain ⟨c', hc', ht⟩ := exists_emitted hs1 hs2 hc
  have hplaced := mem_placed_of_emitted hc'
  obtain ⟨op', -, hop'⟩ := exists_represents h1 h2 hm hplaced
  have hxt : x.triple = c'.edge.triple := by
    rw [ht, hop.triple, hsource, htarget, ← h.kind]
    rfl
  have hsource' : x.source = c'.edge.source := congrArg Triple.source hxt
  have htarget' : x.target = c'.edge.target := congrArg Triple.target hxt
  have hlookup1 := h.links.lookup1
  have hlookup2 := h.links.lookup2
  rw [hsource'] at hlookup1
  rw [htarget'] at hlookup2
  have ha : c'.v1 = a.id := by
    subst hm
    exact canonical_injective h1 hop'.canonical1 h.links.canonical1 hop'.lookup1 hlookup1
  have hb : c'.v2 = b.id := by
    subst hm
    exact canonical_injective h2 hop'.canonical2 h.links.canonical2 hop'.lookup2 hlookup2
  have hlinks : Links v1 v2 (run detector v1 v2 m ops span).1 op' a b c'.edge.source
      c'.edge.target :=
    { h.links with lookup1 := hlookup1, lookup2 := hlookup2, connects := hop'.connects }
  obtain ⟨x', hx', hx't, hlift⟩ := exists_propagated? h1 h2 hm hnodes hplaced hlinks h.apart ha hb
  have hstored := (mem_edges_run_iff_of_links h1 h2 hs1 hfit1 hm hnodes hedges h.links).mp h.stored
  have heq : x' = x := List.inj_on_of_nodup_map exact_evolved.nodup hx' hstored
    (hx't.trans hxt.symm)
  rw [← heq]
  exact List.mem_filterMap.mpr ⟨c', hc', hlift⟩

theorem complete_propagation (hop : op ∈ ops)
    (hlinks : Links v1 v2 (run detector v1 v2 m ops span).1 op a b s t)
    (hapart : Apart v1 v2 (run detector v1 v2 m ops span).1 a b A B) :
    ∃ x, Lifts v1 v2 (run detector v1 v2 m ops span).1 op a b x A B ∧ x.source = s ∧ x.target = t ∧
      ∃ e ∈ (run detector v1 v2 m ops span).1.graph.edges,
        e.triple = ⟨A, .refactored, B⟩ ∧ x.confidence ≤ e.confidence := by
  obtain ⟨x, hx, hxt⟩ := exists_connected_run h1 h2 hm hop hlinks.connects
  rw [Edge.triple, Triple.mk.injEq] at hxt
  obtain ⟨hsource, hkind, htarget⟩ := hxt
  have hlifts : Lifts v1 v2 (run detector v1 v2 m ops span).1 op a b x A B := by
    refine ⟨?_, hx, hkind, hapart⟩
    rw [hsource, htarget]
    exact hlinks
  refine ⟨x, hlifts, hsource, htarget, ?_⟩
  -- The lifted copy may be outdone by another edge between the types, but not by a weaker one.
  have hmem : Evolution.memberEdge A B a.kind x ∈ lifted detector v1 v2 m ops span :=
    mem_lifted_of_lifts h1 h2 hs1 hs2 hfit1 hm hnodes hedges hop hlifts
  obtain ⟨e, he, het⟩ := exists_edge_run (List.mem_append_right _ hmem)
  have htriple : e.triple = ⟨A, .refactored, B⟩ := het
  have hevolution : e.kind.isEvolution = true := by
    have hk : e.kind = .refactored := congrArg Triple.kind htriple
    rw [hk]
    rfl
  have hstrong := strongest_run hs1 hs2 hedges he hevolution
  refine ⟨e, he, htriple, hstrong.le (c := Evolution.memberEdge A B a.kind x) ?_⟩
  exact List.mem_filter.mpr ⟨List.mem_append_right _ hmem, by simpa using het.symm⟩

theorem exists_lifted_of_attr (he : e ∈ (run detector v1 v2 m ops span).1.graph.edges)
    (hk : e.kind.isEvolution = true) (hattr : e.attr "propagatedMemberType" ≠ none) :
    ∃ op ∈ ops, ∃ a b x, Lifts v1 v2 (run detector v1 v2 m ops span).1 op a b x e.source e.target ∧
      e.attributes = (Evolution.memberEdge e.source e.target a.kind x).attributes := by
  obtain ⟨best, hbest, htriple, -, hattrs⟩ := exists_best_run hs1 hs2 hedges he hk
  rcases represents_or_lifted h1 h2 hm hbest with ⟨op, -, c, hop, rfl⟩ | hlifted
  · obtain ⟨old, new, hedge⟩ := hop.edge
    rw [Edge.attr, hattrs, ← Edge.attr, hedge, Evolution.propagatedMemberType_edge] at hattr
    exact absurd rfl hattr
  · obtain ⟨op, hop, a, b, x, A, B, hlifts, rfl⟩ :=
      exists_lifts_of_mem_lifted h1 h2 hs1 hfit1 hm hnodes hedges hlifted
    have hsource : A = e.source := congrArg Triple.source htriple
    have htarget : B = e.target := congrArg Triple.target htriple
    subst hsource htarget
    exact ⟨op, hop, a, b, x, hlifts, hattrs⟩

end Run

/-- Members that come to belong to other types leave a trace between the types, and only they do. -/
theorem propagation_run {detector : String} {v1 v2 : Graph} {ops : List Operation} {span : Span}
    (h1 : v1.Built) (h2 : v2.Built) (hs1 : v1.Structural) (hs2 : v2.Structural)
    (hfit1 : v1.NodesFit) (hfit2 : v2.NodesFit)
    (hnodes : (run detector v1 v2 (.ofGraphs v1 v2 ops) ops span).1.graph.NodesFit)
    (hedges : (run detector v1 v2 (.ofGraphs v1 v2 ops) ops span).1.graph.EdgesFit) :
    Propagation v1 v2 ops (run detector v1 v2 (.ofGraphs v1 v2 ops) ops span).1 where
  complete op hop a b s t A B hlinks hapart :=
    complete_propagation h1 h2 hs1 hs2 hfit1 rfl hnodes hedges hop hlinks hapart
  sound e he hk hattr := by
    obtain ⟨op, hop, a, b, x, hlifts, hattrs⟩ :=
      exists_lifted_of_attr h1 h2 hs1 hs2 hfit1 rfl hnodes hedges he hk hattr
    have hx : x.kind.isEvolution = true := by
      rw [hlifts.kind]
      exact isEvolution_edgeKind op.kind
    obtain ⟨name, hname⟩ := exists_refactoringType h1 h2 hs1 hs2 hfit1 rfl hnodes hedges
      hlifts.links hlifts.stored hx
    have hattr : ∀ k, e.attr k = (Evolution.memberEdge e.source e.target a.kind x).attr k := by
      intro k
      rw [Edge.attr, hattrs, ← Edge.attr]
    refine ⟨op, hop, a, b, x, hlifts, hlifts.apart.hasType1 h1 h2 hs1 hfit1 rfl,
      hlifts.apart.hasType2 h2 hs2 hfit2 rfl, hlifts.apart.ne, ?_, ?_, ?_, ?_⟩
    · rw [hattr, Evolution.propagatedMemberType_memberEdge]
    · rw [hattr, Evolution.propagatedMemberRefactoring_memberEdge, hname]
      rfl
    · rw [hattr, Evolution.version_memberEdge (.inl rfl)]
    · rw [hattr, Evolution.version_memberEdge (.inr rfl)]

section Sample

def household (owner : Nat) (signature : String) (line : UInt32) : Graph :=
  .ofLists
    [{ kind := .type, name := "A", qualifiedName := "A", filePath := "A.java"
       lineStart := some 1, lineEnd := some 9 },
     { kind := .type, name := "B", qualifiedName := "B", filePath := "A.java"
       lineStart := some 21, lineEnd := some 29 },
     { kind := .method, name := "foo", qualifiedName := signature, filePath := "A.java"
       lineStart := some line, lineEnd := some (line + 2) }]
    [{ source := ⟨owner⟩, target := ⟨2⟩, kind := .declares }]

def movedBefore : Graph := household 0 "A#foo()" 3

def movedAfter : Graph := household 1 "B#foo()" 23

def moveFoo : Operation where
  kind := .moveMethod
  before := [{ filePath := "A.java", startLine := 3, endLine := 5 }]
  after := [{ filePath := "A.java", startLine := 23, endLine := 25 }]

def moved : Merged :=
  (run defaultDetector movedBefore movedAfter (.ofGraphs movedBefore movedAfter [moveFoo]) [moveFoo]
    ⟨.new "c0" 0, .new "c1" 1⟩).1

theorem propagation_moved :
    movedBefore.Built ∧ movedAfter.Built ∧ movedBefore.Structural ∧ movedAfter.Structural ∧
      movedBefore.NodesFit ∧ movedAfter.NodesFit ∧ moved.graph.NodesFit ∧ moved.graph.EdgesFit ∧
      moved.evolutionEdges.map (·.triple) = [⟨⟨2⟩, .moved, ⟨2⟩⟩, ⟨⟨0⟩, .refactored, ⟨1⟩⟩] ∧
      Propagation movedBefore movedAfter [moveFoo] moved := by
  have h1 : movedBefore.Built := Graph.built_ofLists _ _
  have h2 : movedAfter.Built := Graph.built_ofLists _ _
  have hs1 : movedBefore.Structural := by decide +kernel
  have hs2 : movedAfter.Structural := by decide +kernel
  have hfit1 : movedBefore.NodesFit := by decide +kernel
  have hfit2 : movedAfter.NodesFit := by decide +kernel
  have hnodes : moved.graph.NodesFit := by decide +kernel
  have hedges : moved.graph.EdgesFit := by decide +kernel
  exact ⟨h1, h2, hs1, hs2, hfit1, hfit2, hnodes, hedges, by decide +kernel,
    propagation_run h1 h2 hs1 hs2 hfit1 hfit2 hnodes hedges⟩

end Sample

end Merge

end Lineage
