import Lineage.Proofs.Chain
import Lineage.Proofs.StructuralEdges
/-! # Aggregates only grow

Whatever pairs are folded, in whatever order, nodes of an aggregate stand for different entities, its
index leads to them, and no two of its edges say the same. A fold keeps every node with its versions
and its beginning, and every edge with what it says and at least its confidence; the nodes of the
pair are joined by key or former key, and its edges arrive between the joined nodes. Main statements:
`preserved_joinAll`, `lands_joinAll`, `sound_ofMerged`, `advances_ofMerged`.
-/
namespace Lineage

open Refactoring (Operation)

/-- A merged graph of two parsed versions, under any operations. -/
def Merged.OfParsed (m : Merged) : Prop :=
  ∃ detector v1 v2 ops span, v1.Parsed ∧ v2.Parsed ∧
    m = (Merge.run detector v1 v2 (.ofGraphs v1 v2 ops) ops span).1

namespace Aggregate

/-! ## Nodes -/

/-- Every node is still there, under its number, with its versions and its beginning. -/
def Preserved (ns ns' : List Node) : Prop :=
  ∀ n ∈ ns, ∃ n' ∈ ns', n'.id = n.id ∧ (∀ v ∈ n.versions, v ∈ n'.versions) ∧
    ∀ v, n.firstVersion = some v → n'.firstVersion = some v

theorem Preserved.refl (ns : List Node) : Preserved ns ns :=
  fun n hn => ⟨n, hn, rfl, fun _ hv => hv, fun _ hv => hv⟩

theorem Preserved.trans {ns₁ ns₂ ns₃ : List Node} (h : Preserved ns₁ ns₂) (h' : Preserved ns₂ ns₃) :
    Preserved ns₁ ns₃ := by
  intro n hn
  obtain ⟨n₂, hn₂, hi₂, hv₂, hf₂⟩ := h n hn
  obtain ⟨n₃, hn₃, hi₃, hv₃, hf₃⟩ := h' n₂ hn₂
  exact ⟨n₃, hn₃, hi₃.trans hi₂, fun v hv => hv₃ v (hv₂ v hv), fun v hv => hf₃ v (hf₂ v hv)⟩

theorem Preserved.ids_subset {ns ns' : List Node} (h : Preserved ns ns') :
    ns.map (·.id) ⊆ ns'.map (·.id) := by
  intro i hi
  obtain ⟨n, hn, rfl⟩ := List.mem_map.mp hi
  obtain ⟨n', hn', he, -⟩ := h n hn
  exact List.mem_map.mpr ⟨n', hn', he⟩

theorem preserved_settle {ns : List Node} {c n : Node} (hid : (ns.map (·.id)).Nodup) (hc : c ∈ ns) :
    Preserved ns (settle c n ns) := by
  intro x hx
  by_cases hxc : x.id = c.id
  · obtain rfl := List.inj_on_of_nodup_map hid hx hc hxc
    refine ⟨update x n, (mem_settle_iff hx).mpr (.inl rfl), rfl, fun v hv => ?_, fun v hv => ?_⟩
    · exact (TextSet.mem_union _ _ _).mpr (.inl hv)
    · show (x.firstVersion <|> n.firstVersion) = some v
      rw [hv]
      rfl
  · exact ⟨x, (mem_settle_iff hc).mpr (.inr ⟨hx, hxc⟩), rfl, fun _ hv => hv, fun _ hv => hv⟩

/-- The number of a joined node: that of the node it is joined with, or a new one. -/
def Lands (g : Graph) (n : Node) (i : NodeId) : Prop :=
  match former? g n with
  | some c => i = c.id
  | none => i ∉ g.nodes.map (·.id)

section Step
variable {j : Join} {n : Node}

theorem edges_joinNode (j : Join) (n : Node) : (joinNode j n).graph.edges = j.graph.edges := by
  unfold joinNode
  dsimp only
  split <;> rfl

/-- A node goes where its key leads afterwards. -/
theorem ids_joinNode (j : Join) (n : Node) :
    ∃ i, (joinNode j n).ids = j.ids ++ [(n.id, i)] ∧ (joinNode j n).index.lookup n.key = some i := by
  unfold joinNode
  cases hl : j.index.lookup n.key with
  | some i => exact ⟨i, rfl, hl⟩
  | none =>
    dsimp only
    cases hr : reindexed? j.index n with
    | some r =>
      simp only [reindexed?, bind, Option.bind_eq_some_iff, pure, Option.some.injEq] at hr
      obtain ⟨_, -, i, -, rfl⟩ := hr
      exact ⟨i, rfl, List.lookup_cons_self⟩
    | none => exact ⟨j.graph.nextNode, rfl, List.lookup_cons_self⟩

variable (h : Indexed j.graph.nodes j.index) (hcap : j.graph.nodes.length ≤ UInt32.size)
include h hcap

theorem preserved_joinNode : Preserved j.graph.nodes (joinNode j n).graph.nodes := by
  have hjoins : Joins j n (joinNode j n).graph.nodes (joinNode j n).index := joins_joinNode h hcap
  generalize (joinNode j n).graph.nodes = ns, (joinNode j n).index = index at hjoins
  cases hjoins with
  | known hc => exact preserved_settle h.numbered.nodup (mem_of_entity?_eq_some hc).1
  | renamed hn hk hc => exact preserved_settle h.numbered.nodup (mem_of_entity?_eq_some hc).1
  | unknown hn hf =>
    exact fun x hx => ⟨x, List.mem_append_left _ hx, rfl, fun _ hv => hv, fun _ hv => hv⟩

theorem lands_joinNode {i : NodeId} (hi : (joinNode j n).index.lookup n.key = some i) :
    Lands j.graph n i := by
  have hjoins : Joins j n (joinNode j n).graph.nodes (joinNode j n).index := joins_joinNode h hcap
  generalize (joinNode j n).graph.nodes = ns, (joinNode j n).index = index at hjoins hi
  have hlookup : ∀ k, j.index.lookup k = (j.graph.entity? k).map (·.id) := h.lookup
  -- Each way of joining puts the number into the index that `former?` looks for in the graph.
  unfold Lands former?
  cases hjoins with
  | @known c hc =>
    rw [hlookup, hc, Option.map_some, Option.some.injEq] at hi
    rw [hc]
    exact hi.symm
  | @renamed c hn hk hc =>
    rw [List.lookup_cons_self, Option.some.injEq] at hi
    rw [hn, hk, Option.none_or, Option.bind_some, hc]
    exact hi.symm
  | unknown hn hf =>
    rw [List.lookup_cons_self, Option.some.injEq] at hi
    have hnone : n.formerKey?.bind j.graph.entity? = none := Option.bind_eq_none_iff.mpr hf
    rw [hn, Option.none_or, hnone, ← hi, h.numbered]
    simp [Graph.nextNode]

end Step

section Run
variable {ns : List Node}

theorem edges_joinAll (j : Join) (ns : List Node) :
    (ns.foldl joinNode j).graph.edges = j.graph.edges := by
  induction ns generalizing j with
  | nil => rfl
  | cons n ns ih => rw [List.foldl_cons, ih, edges_joinNode]

variable {j : Join} (h : Indexed j.graph.nodes j.index)
include h

theorem preserved_joinAll (hcap : (ns.foldl joinNode j).graph.nodes.length ≤ UInt32.size) :
    Preserved j.graph.nodes (ns.foldl joinNode j).graph.nodes := by
  induction ns generalizing j with
  | nil => exact .refl _
  | cons n ns ih =>
    have hcap₀ : j.graph.nodes.length ≤ UInt32.size :=
      Nat.le_trans (length_le_joinAll j (n :: ns)) hcap
    exact (preserved_joinNode h hcap₀).trans (ih (indexed_joinNode h hcap₀) hcap)

theorem lands_joinAll (ho : Orderly ns)
    (hcap : (ns.foldl joinNode j).graph.nodes.length ≤ UInt32.size) :
    ∃ new : List (NodeId × NodeId), (ns.foldl joinNode j).ids = j.ids ++ new ∧
      new.map (·.1) = ns.map (·.id) ∧
      ∀ n ∈ ns, ∃ i, (n.id, i) ∈ new ∧ (ns.foldl joinNode j).index.lookup n.key = some i ∧
        Lands j.graph n i := by
  induction ns generalizing j with
  | nil => exact ⟨[], (List.append_nil _).symm, rfl, fun n hn => absurd hn List.not_mem_nil⟩
  | cons n ns ih =>
    have hcap₀ : j.graph.nodes.length ≤ UInt32.size :=
      Nat.le_trans (length_le_joinAll j (n :: ns)) hcap
    have h₁ := indexed_joinNode (n := n) h hcap₀
    -- The claim for the later nodes is about the graph after the first one; it is carried back.
    obtain ⟨hi₂, hf₂⟩ := folds_joinAll h₁ ho.tail hcap
    obtain ⟨new, hids, hkeys, hnew⟩ := ih h₁ ho.tail hcap
    obtain ⟨i, hi, hl⟩ := ids_joinNode j n
    refine ⟨(n.id, i) :: new, ?_, by rw [List.map_cons, List.map_cons, hkeys], fun m hm => ?_⟩
    · rw [List.foldl_cons, hids, hi, List.append_assoc]
      rfl
    · rcases List.mem_cons.mp hm with rfl | hm
      · refine ⟨i, List.mem_cons_self, ?_, lands_joinNode h hcap₀ hl⟩
        rw [List.foldl_cons, hi₂.lookup, ← hl, h₁.lookup]
        exact congrArg (Option.map _) (hf₂.entity?_head ho)
      · obtain ⟨i', hmem, hl', hlands⟩ := hnew m hm
        refine ⟨i', List.mem_cons_of_mem _ hmem, hl', ?_⟩
        have hn := ho.formerKey?_ne List.mem_cons_self List.mem_cons_self
        have hsame := ((folds_joinNode h hcap₀ hn).former?_eq ho hm).2
        have hsubset := (preserved_joinNode (n := n) h hcap₀).ids_subset
        unfold Lands at hlands ⊢
        rw [hsame] at hlands
        cases hf : former? j.graph m with
        | some c =>
          rw [hf] at hlands
          exact hlands
        | none =>
          rw [hf] at hlands
          exact fun hmem' => hlands (hsubset hmem')

end Run

/-! ## One fold -/

/-- What folding relies on in a merged graph. -/
structure Foldable (m : Merged) : Prop where
  orderly : Orderly m.graph.nodes
  ids_nodup : (m.graph.nodes.map (·.id)).Nodup
  anchored : ∀ e ∈ m.graph.edges,
    e.source ∈ m.graph.nodes.map (·.id) ∧ e.target ∈ m.graph.nodes.map (·.id)

structure Sound (a : Aggregate) : Prop where
  indexed : Indexed a.graph.nodes a.index
  exact : a.store.Exact

def joined (a : Aggregate) (m : Merged) : Join := m.graph.nodes.foldl joinNode ⟨a.graph, a.index, []⟩

theorem sound_empty : Sound empty := ⟨⟨rfl, .nil, fun _ => rfl⟩, EdgeStore.exact_ofGraph rfl⟩

section Fold
variable {a : Aggregate} {m : Merged}

/-- The store of an aggregate after nodes are joined and before edges are inserted. -/
def joinedStore (a : Aggregate) (m : Merged) : EdgeStore := { a.store with graph := (a.joined m).graph }

theorem store_fold (a : Aggregate) (m : Merged) :
    (a.fold m).store = (a.joinedStore m).insertAll (Merge.relocated m.graph (a.joined m).ids) := rfl

theorem edges_joined (a : Aggregate) (m : Merged) : (a.joined m).graph.edges = a.graph.edges :=
  edges_joinAll ⟨a.graph, a.index, []⟩ m.graph.nodes

theorem Fits.joined (hfit : (a.fold m).Fits) : (a.joined m).graph.nodes.length ≤ UInt32.size := by
  rw [Fits, nodes_fold] at hfit
  exact hfit

theorem exact_joinedStore (h : a.store.Exact) : (a.joinedStore m).Exact := by
  have he : (a.joinedStore m).graph.edges = a.store.graph.edges := edges_joined a m
  refine ⟨?_, ?_, ?_⟩
  · rw [he]
    exact h.numbered
  · rw [he]
    exact h.seen
  · rw [Graph.triples, he]
    exact h.nodup

variable (h : a.Sound) (hm : Foldable m) (hfit : (a.fold m).Fits)
include h hm hfit

theorem Sound.fold : (a.fold m).Sound where
  indexed := (folds_fold h.indexed hm.orderly hfit).1
  exact := by
    rw [store_fold]
    exact EdgeStore.exact_insertAll (exact_joinedStore h.exact) _

omit hm in
theorem preserved_fold : Preserved a.graph.nodes (a.fold m).graph.nodes := by
  rw [nodes_fold]
  exact preserved_joinAll (j := ⟨a.graph, a.index, []⟩) h.indexed hfit.joined

theorem lands_fold {n : Node} (hn : n ∈ m.graph.nodes) : ∃ i,
    (a.joined m).ids.lookup n.id = some i ∧ (a.fold m).index.lookup n.key = some i ∧
      Lands a.graph n i := by
  obtain ⟨new, hids, hkeys, hnew⟩ :=
    lands_joinAll (j := ⟨a.graph, a.index, []⟩) h.indexed hm.orderly hfit.joined
  obtain ⟨i, hmem, hl, hlands⟩ := hnew n hn
  refine ⟨i, ?_, hl, hlands⟩
  have hall : (a.joined m).ids = new := hids
  rw [hall]
  exact lookup_of_mem (hkeys ▸ hm.ids_nodup) hmem

theorem hasNode_of_lookup {k : EntityKey} {i : NodeId} (hl : (a.fold m).index.lookup k = some i) :
    (a.joined m).graph.hasNode i := by
  have hi := (h.fold hm hfit).indexed
  rw [hi.lookup] at hl
  obtain ⟨x, hx, rfl⟩ := Option.map_eq_some_iff.mp hl
  obtain ⟨p, hp, rfl⟩ := List.getElem_of_mem (List.mem_of_find?_eq_some hx)
  rw [hi.numbered.id_getElem hp]
  apply Graph.hasNode_of_lt
  rw [nodes_fold] at hp
  exact hp

theorem exists_relocated {e : Edge} (he : e ∈ m.graph.edges) :
    ∃ s ∈ m.graph.nodes, ∃ t ∈ m.graph.nodes, s.id = e.source ∧ t.id = e.target ∧
      ∃ i j, (a.joined m).ids.lookup e.source = some i ∧ (a.joined m).ids.lookup e.target = some j ∧
        (a.fold m).index.lookup s.key = some i ∧ (a.fold m).index.lookup t.key = some j := by
  obtain ⟨hsource, htarget⟩ := hm.anchored e he
  obtain ⟨s, hs, hse⟩ := List.mem_map.mp hsource
  obtain ⟨t, ht, hte⟩ := List.mem_map.mp htarget
  obtain ⟨i, hi, hki, -⟩ := lands_fold h hm hfit hs
  obtain ⟨j, hj, hkj, -⟩ := lands_fold h hm hfit ht
  exact ⟨s, hs, t, ht, hse, hte, i, j, hse ▸ hi, hte ▸ hj, hki, hkj⟩

theorem anchored_relocated {d : Edge} (hd : d ∈ Merge.relocated m.graph (a.joined m).ids) :
    EdgeStore.Anchored (a.joinedStore m).graph d := by
  obtain ⟨e, he, hr⟩ := List.mem_filterMap.mp hd
  simp only [bind, Option.bind_eq_some_iff, pure, Option.some.injEq] at hr
  obtain ⟨i, hi, j, hj, rfl⟩ := hr
  obtain ⟨s, -, t, -, -, -, i', j', hi', hj', hki, hkj⟩ := exists_relocated h hm hfit he
  obtain rfl := Option.some.inj (hi'.symm.trans hi)
  obtain rfl := Option.some.inj (hj'.symm.trans hj)
  exact ⟨hasNode_of_lookup h hm hfit hki, hasNode_of_lookup h hm hfit hkj⟩

theorem exists_image {e : Edge} (he : e ∈ m.graph.edges) :
    ∃ s ∈ m.graph.nodes, ∃ t ∈ m.graph.nodes, s.id = e.source ∧ t.id = e.target ∧
      ∃ x ∈ (a.fold m).graph.edges, x.kind = e.kind ∧
        (a.fold m).index.lookup s.key = some x.source ∧
        (a.fold m).index.lookup t.key = some x.target := by
  obtain ⟨s, hs, t, ht, hse, hte, i, j, hi, hj, hki, hkj⟩ := exists_relocated h hm hfit he
  have hmem : e.withEndpoints i j ∈ Merge.relocated m.graph (a.joined m).ids := by
    refine List.mem_filterMap.mpr ⟨e, he, ?_⟩
    simp only [hi, hj, bind, Option.bind_some, pure]
  have htriple : (e.withEndpoints i j).triple ∈ (a.fold m).store.graph.triples := by
    rw [store_fold, EdgeStore.triples_insertAll (exact_joinedStore h.exact)
      (fun d hd => anchored_relocated h hm hfit hd), List.mem_eraseDups]
    exact List.mem_append_right _ (List.mem_map_of_mem hmem)
  obtain ⟨x, hx, hxt⟩ := List.mem_map.mp htriple
  rw [Edge.triple_withEndpoints, Edge.triple, Triple.mk.injEq] at hxt
  obtain ⟨hsource, hkind, htarget⟩ := hxt
  exact ⟨s, hs, t, ht, hse, hte, x, hx, hkind, hsource ▸ hki, htarget ▸ hkj⟩

end Fold

/-- What a fold leads to, and what it keeps of the aggregate before. -/
structure Advances (a : Aggregate) (m : Merged) (a' : Aggregate) : Prop where
  nodes_numbered : Graph.Numbered a'.graph.nodes
  edges_numbered : Edge.Numbered a'.graph.edges
  keys_nodup : a'.graph.keys.Nodup
  index : ∀ k i, a'.index.lookup k = some i ↔ ∃ n ∈ a'.graph.nodes, n.key = k ∧ n.id = i
  triples_nodup : a'.graph.triples.Nodup
  nodes : Preserved a.graph.nodes a'.graph.nodes
  edges : Edge.Kept a.graph.edges a'.graph.edges
  joins : ∀ n ∈ m.graph.nodes, ∃ i, a'.index.lookup n.key = some i ∧ Lands a.graph n i
  images : ∀ e ∈ m.graph.edges, ∃ s ∈ m.graph.nodes, ∃ t ∈ m.graph.nodes,
    s.id = e.source ∧ t.id = e.target ∧ ∃ x ∈ a'.graph.edges, x.kind = e.kind ∧
      a'.index.lookup s.key = some x.source ∧ a'.index.lookup t.key = some x.target

theorem advances_fold {a : Aggregate} {m : Merged} (h : a.Sound) (hm : Foldable m)
    (hfit : (a.fold m).Fits) : Advances a m (a.fold m) := by
  have hsound := h.fold hm hfit
  refine
    { nodes_numbered := hsound.indexed.numbered
      edges_numbered := hsound.exact.numbered
      keys_nodup := hsound.indexed.keys_nodup
      index := fun k i => ?_
      triples_nodup := hsound.exact.nodup
      nodes := preserved_fold h hfit
      edges := ?_
      joins := fun n hn => ?_
      images := fun e he => exists_image h hm hfit he }
  · rw [hsound.indexed.lookup, Option.map_eq_some_iff]
    simp only [find?_key_eq_some_iff hsound.indexed.keys_nodup, and_assoc]
  · have hkept := EdgeStore.kept_insertAll (exact_joinedStore (m := m) h.exact)
      (Merge.relocated m.graph (a.joined m).ids)
    have hedges : (a.joinedStore m).graph.edges = a.graph.edges := edges_joined a m
    rw [hedges, ← store_fold] at hkept
    exact hkept
  · obtain ⟨i, -, hl, hlands⟩ := lands_fold h hm hfit hn
    exact ⟨i, hl, hlands⟩

/-! ## Any sequence of folds -/

theorem foldable_of_ofParsed {m : Merged} (h : m.OfParsed) : Foldable m := by
  obtain ⟨detector, v1, v2, ops, span, h1, h2, rfl⟩ := h
  have hnumbered := Merge.numbered_run detector v1 v2 (.ofGraphs v1 v2 ops) ops span
  refine ⟨Merge.orderly_run h1 h2, hnumbered.nodup, fun e he => ?_⟩
  have hmem : ∀ i : NodeId, i.number < (Merge.nodes span (.ofGraphs v1 v2 ops)).length →
      i ∈ (Merge.run detector v1 v2 (.ofGraphs v1 v2 ops) ops span).1.graph.nodes.map (·.id) := by
    intro i hi
    rw [hnumbered, Merge.nodes_run, List.length_mapIdx]
    exact List.mem_map.mpr ⟨i.number, List.mem_range.mpr hi, rfl⟩
  obtain ⟨hsource, htarget⟩ := Merge.within_run he
  exact ⟨hmem _ hsource, hmem _ htarget⟩

theorem ofMerged_snoc (ms : List Merged) (m : Merged) :
    ofMerged (ms ++ [m]) = (ofMerged ms).fold m := by
  simp only [ofMerged, List.foldl_append, List.foldl_cons, List.foldl_nil]

theorem sound_ofMerged {ms : List Merged} (h : ∀ m ∈ ms, m.OfParsed) (hfit : (ofMerged ms).Fits) :
    (ofMerged ms).Sound := by
  induction ms using List.reverseRecOn with
  | nil => exact sound_empty
  | append_singleton ms m ih =>
    rw [ofMerged_snoc] at hfit ⊢
    have hsound := ih (fun x hx => h x (List.mem_append_left _ hx)) hfit.of_fold
    have hm := foldable_of_ofParsed (h m (List.mem_append_right _ List.mem_cons_self))
    exact hsound.fold hm hfit

/-- After any folds one more keeps what there was, and the index and the edges are as they should. -/
theorem advances_ofMerged {ms : List Merged} {m : Merged} (h : ∀ x ∈ ms ++ [m], x.OfParsed)
    (hfit : (ofMerged (ms ++ [m])).Fits) : Advances (ofMerged ms) m (ofMerged (ms ++ [m])) := by
  rw [ofMerged_snoc] at hfit ⊢
  have hsound := sound_ofMerged (fun x hx => h x (List.mem_append_left _ hx)) hfit.of_fold
  have hm := foldable_of_ofParsed (h m (List.mem_append_right _ List.mem_cons_self))
  exact advances_fold hsound hm hfit

section Sample
open Merge (callsBefore callsAfter callsMerged parsed_calls)

def callsKept : Merged :=
  (Merge.run defaultDetector callsBefore callsBefore (.ofGraphs callsBefore callsBefore []) []
    ⟨.new "b9" 0, .new "c0" 0⟩).1

/-- The renamed method is joined with its former self, so the methods stay two. -/
theorem advances_callsMerged :
    (∀ x ∈ [callsKept] ++ [callsMerged], x.OfParsed) ∧
      (ofMerged ([callsKept] ++ [callsMerged])).Fits ∧
      (ofMerged ([callsKept] ++ [callsMerged])).graph.nodes.map (·.name) = ["baz", "bar"] ∧
      Advances (ofMerged [callsKept]) callsMerged (ofMerged ([callsKept] ++ [callsMerged])) := by
  have h1 : callsBefore.Parsed := parsed_calls _ _
  have h2 : callsAfter.Parsed := parsed_calls _ _
  have hparsed : ∀ x ∈ [callsKept] ++ [callsMerged], x.OfParsed := by
    intro x hx
    rcases List.mem_append.mp hx with hx | hx
    · rw [List.mem_singleton.mp hx]
      exact ⟨_, _, _, _, _, h1, h1, rfl⟩
    · rw [List.mem_singleton.mp hx]
      exact ⟨_, _, _, _, _, h1, h2, rfl⟩
  have hfit : (ofMerged ([callsKept] ++ [callsMerged])).Fits := by
    unfold Fits
    decide +kernel
  exact ⟨hparsed, hfit, by decide +kernel, advances_ofMerged hparsed hfit⟩

end Sample

end Aggregate

end Lineage
