import Lineage.Merge
import Lineage.Proofs.EdgeStore
import Lineage.Proofs.Matching
/-! # The nodes of a merged graph

A merged node is an entity kept from the older version, one that is gone, or one that the newer
version adds. Merged nodes have distinct keys: every entity of the newer version gives one, and every
entity of the older version that is neither found there nor rekeyed. Main statements:
`mem_nodes_iff`, `keys_nodup_nodes`, `nodes_run`.
-/
namespace Lineage

open Refactoring (Operation)
open Index (ofGraph)

namespace Merge

def gone (span : Span) (n : Node) : Node := { n.stamp span.older.id with status := some .deleted }

def fresh (span : Span) (n : Node) : Node := { n.stamp span.newer.id with status := some .added }

/-- Where the nodes of a merged graph come from. -/
inductive Arises (span : Span) (m : Matching) : MergedNode → Prop
  | kept {old new : Entity} (hold : old ∈ m.index1.entities) (hnew : new ∈ m.index2.entities)
      (hp : .ofEntities old new ∈ m.pairs) :
      Arises span m
        ⟨Merge.kept span m old.node new.node (.ofEntities old new), some old.id, some new.id⟩
  | gone {old : Entity} (hold : old ∈ m.index1.entities) (hp : old.id ∉ m.pairs.map (·.v1)) :
      Arises span m ⟨Merge.gone span old.node, some old.id, none⟩
  | fresh {new : Entity} (hnew : new ∈ m.index2.entities) (hp : new.id ∉ m.pairs.map (·.v2)) :
      Arises span m ⟨Merge.fresh span new.node, none, some new.id⟩

theorem fst_emitAll (acc : EdgeStore × List Contribution) (cs : List Contribution) :
    (cs.foldl emit acc).1 = acc.1.insertAll (cs.map (·.edge)) := by
  induction cs generalizing acc with
  | nil => rfl
  | cons c cs ih =>
    rw [List.foldl_cons, ih]
    rfl

/-- The merged nodes, numbered in order, without edges. -/
def bare (ns : List MergedNode) : Graph := ns.foldl (fun g n => (g.addNode n.node).2) Graph.empty

theorem nodes_bare (ns : List MergedNode) :
    (bare ns).nodes = ns.mapIdx fun i n => n.node.renumber ⟨i⟩ := by
  have hbare := Graph.nodes_addNodes MergedNode.node Graph.empty ns
  simp only [Graph.empty, List.nil_append, List.length_nil, Nat.zero_add] at hbare
  exact hbare

theorem edges_bare (ns : List MergedNode) : (bare ns).edges = [] := by
  induction ns using List.reverseRecOn with
  | nil => rfl
  | append_singleton ns n ih =>
    have hs : bare (ns ++ [n]) = ((bare ns).addNode n.node).2 := List.foldl_append
    rw [hs, Graph.edges_addNode, ih]

theorem nodes_run (detector : String) (v1 v2 : Graph) (m : Matching) (ops : List Operation)
    (span : Span) :
    (run detector v1 v2 m ops span).1.graph.nodes =
      (nodes span m).mapIdx fun i n => n.node.renumber ⟨i⟩ := by
  simp only [run, fst_emitAll, EdgeStore.nodes_insertAll, EdgeStore.ofGraph]
  exact nodes_bare _

/-- What does not depend on a node's number can be told before the nodes are numbered. -/
theorem map_nodes_run {β : Type} {f : Node → β} (hf : ∀ n i, f (n.renumber i) = f n)
    (detector : String) (v1 v2 : Graph) (m : Matching) (ops : List Operation) (span : Span) :
    (run detector v1 v2 m ops span).1.graph.nodes.map f = (nodes span m).map (f ·.node) := by
  rw [nodes_run]
  apply List.ext_getElem
  · simp
  · intro i hi hi'
    simp [hf]

theorem numbered_run (detector : String) (v1 v2 : Graph) (m : Matching) (ops : List Operation)
    (span : Span) : Graph.Numbered (run detector v1 v2 m ops span).1.graph.nodes := by
  rw [nodes_run, Graph.Numbered]
  apply List.ext_getElem
  · simp
  · intro i hi hi'
    simp [Node.renumber]

section Metadata
variable {span : Span} {m : Matching} {old new : Node} {p : Pair}

theorem metadatum_kept_of_ne {k : String} (hk : k ≠ Meta.renamedFrom) :
    (kept span m old new p).metadatum k = new.metadatum k := by
  unfold kept Node.metadatum
  dsimp only
  split
  · rw [TextMap.get?_insert, if_neg hk]
  · rfl

theorem renamedFrom_kept (hn : new.metadatum Meta.renamedFrom = none) :
    (kept span m old new p).metadatum Meta.renamedFrom = (m.rekeyOf2? p.v2).map (·.oldKey) := by
  unfold kept Node.metadatum
  dsimp only
  split
  · rename_i r hr
    rw [TextMap.get?_insert, if_pos rfl, hr]
    rfl
  · rename_i hr
    rw [hr]
    exact hn

/-- The former key is kept as metadata, which no key depends on. -/
@[simp] theorem key_kept : (kept span m old new p).key = new.key := by
  have ht : (kept span m old new p).metadatum Meta.type = new.metadatum Meta.type :=
    metadatum_kept_of_ne (by decide)
  have hk : (kept span m old new p).kind = new.kind := rfl
  simp only [Node.key, Node.keyText, hk, ht]
  rfl

@[simp] theorem key_gone : (gone span old).key = old.key := rfl

@[simp] theorem key_fresh : (fresh span new).key = new.key := rfl

end Metadata

section Nodes
variable {v1 v2 : Graph} (h1 : v1.WellFormed) (h2 : v2.WellFormed)
variable {ops : List Operation} {span : Span} {n : MergedNode}

include h1 h2

theorem arises_olderNode {old : Entity} (hold : old ∈ (ofGraph v1).entities) :
    Arises span (.ofGraphs v1 v2 ops) (olderNode span (.ofGraphs v1 v2 ops) old) := by
  have hc := Matching.coherent_ofGraphs h1 h2 ops
  unfold olderNode
  split
  · rename_i p hp
    obtain ⟨hmem, hpid⟩ := hc.pairOf1?_eq_some_iff.mp hp
    obtain ⟨e, he, d, hd, rfl, -⟩ := Matching.entities_of_mem_pairs h1 h2 hmem
    obtain rfl := h1.entity_eq_of_id he hold hpid
    have hnode : (Matching.ofGraphs v1 v2 ops).index2.node? d.id = some d.node :=
      h2.node?_eq_some_iff.mpr ⟨d, hd, rfl, rfl⟩
    simp only [Pair.ofEntities, hnode]
    exact .kept he hd hmem
  · rename_i hp
    exact .gone hold (Matching.pairOf1?_eq_none_iff.mp hp)

theorem mem_nodes_iff :
    n ∈ nodes span (.ofGraphs v1 v2 ops) ↔ Arises span (.ofGraphs v1 v2 ops) n := by
  have hc := Matching.coherent_ofGraphs h1 h2 ops
  rw [nodes, List.mem_append, List.mem_map, List.mem_filterMap]
  constructor
  · rintro (⟨old, hold, rfl⟩ | ⟨new, hnew, hn⟩)
    · exact arises_olderNode h1 h2 hold
    · unfold newerNode? at hn
      split at hn
      · cases hn
      · rename_i hp
        cases hn
        exact .fresh hnew (Matching.pairOf2?_eq_none_iff.mp hp)
  · intro h
    cases h with
    | @kept old new hold hnew hp =>
      refine .inl ⟨old, hold, ?_⟩
      have hnode : (Matching.ofGraphs v1 v2 ops).index2.node? new.id = some new.node :=
        h2.node?_eq_some_iff.mpr ⟨new, hnew, rfl, rfl⟩
      have hpair : (Matching.ofGraphs v1 v2 ops).pairOf1? old.id = some (.ofEntities old new) :=
        hc.pairOf1?_eq_some_iff.mpr ⟨hp, rfl⟩
      simp only [olderNode, hpair]
      simp only [Pair.ofEntities, hnode]
    | @gone old hold hp =>
      refine .inl ⟨old, hold, ?_⟩
      simp only [olderNode, Matching.pairOf1?_eq_none_iff.mpr hp]
      rfl
    | @fresh new hnew hp =>
      refine .inr ⟨new, hnew, ?_⟩
      simp only [newerNode?, Matching.pairOf2?_eq_none_iff.mpr hp]
      rfl

/-- Entities of one key are paired, whatever the operations. -/
theorem paired_of_key_eq {old new : Entity} (hold : old ∈ (ofGraph v1).entities)
    (hnew : new ∈ (ofGraph v2).entities) (hk : old.key = new.key) :
    old.id ∈ (Matching.ofGraphs v1 v2 ops).pairs.map (·.v1) ∧
      new.id ∈ (Matching.ofGraphs v1 v2 ops).pairs.map (·.v2) := by
  have hpair : .ofEntities old new ∈ (Matching.ofGraphs v1 v2 ops).pairs :=
    (Matching.mem_pairs_iff h1 h2).mpr (.inr ⟨old, hold, new, hnew, hk, rfl⟩)
  exact ⟨List.mem_map_of_mem hpair, List.mem_map_of_mem hpair⟩

/-- The newer entity behind a merged node is the one of its key. -/
theorem Arises.v2_eq (hn : Arises span (.ofGraphs v1 v2 ops) n) :
    n.v2 = (ofGraph v2).lookup? n.node.key := by
  have hfound : ∀ new ∈ (ofGraph v2).entities, some new.id = (ofGraph v2).lookup? new.node.key := by
    intro new hnew
    have hk := h2.isIndexOf.key_node new hnew
    exact (h2.lookup?_eq_some_iff.mpr ⟨new, hnew, hk.symm, rfl⟩).symm
  cases hn with
  | kept hold hnew hp =>
    rw [key_kept]
    exact hfound _ hnew
  | @gone old hold hp =>
    symm
    rw [key_gone, Option.eq_none_iff_forall_ne_some]
    intro i hi
    obtain ⟨new, hnew, hk, -⟩ := h2.lookup?_eq_some_iff.mp hi
    have hkey := h1.isIndexOf.key_node old hold
    exact hp (paired_of_key_eq h1 h2 hold hnew (hk.trans hkey).symm).1
  | fresh hnew hp =>
    rw [key_fresh]
    exact hfound _ hnew

theorem Arises.eq_of_key_eq {n' : MergedNode} (hn : Arises span (.ofGraphs v1 v2 ops) n)
    (hn' : Arises span (.ofGraphs v1 v2 ops) n') (hk : n.node.key = n'.node.key) : n = n' := by
  have hv : n.v2 = n'.v2 := by rw [hn.v2_eq h1 h2, hn'.v2_eq h1 h2, hk]
  cases hn with
  | @kept old new hold hnew hp =>
    cases hn' with
    | @kept old' new' hold' hnew' hp' =>
      obtain rfl := h2.entity_eq_of_id hnew hnew' (Option.some.inj hv)
      have he := Matching.pair_eq_of_v2_eq h1 h2 hp hp' rfl
      obtain rfl := h1.entity_eq_of_id hold hold' (congrArg Pair.v1 he)
      rfl
    | gone hold' hp' => cases hv
    | @fresh new' hnew' hp' =>
      obtain rfl := h2.entity_eq_of_id hnew hnew' (Option.some.inj hv)
      exact absurd (List.mem_map_of_mem hp) hp'
  | @gone old hold hp =>
    cases hn' with
    | kept hold' hnew' hp' => cases hv
    | @gone old' hold' hp' =>
      have hkey := h1.isIndexOf.key_node old hold
      have hkey' := h1.isIndexOf.key_node old' hold'
      rw [h1.entity_eq_of_key hold hold' (hkey.symm.trans (hk.trans hkey'))]
    | fresh hnew' hp' => cases hv
  | @fresh new hnew hp =>
    cases hn' with
    | @kept old' new' hold' hnew' hp' =>
      obtain rfl := h2.entity_eq_of_id hnew hnew' (Option.some.inj hv)
      exact absurd (List.mem_map_of_mem hp') hp
    | gone hold' hp' => cases hv
    | @fresh new' hnew' hp' =>
      rw [h2.entity_eq_of_id hnew hnew' (Option.some.inj hv)]

omit h1 h2 in
theorem v1_olderNode (span : Span) (m : Matching) (e : Entity) : (olderNode span m e).v1 = some e.id := by
  unfold olderNode
  split
  · split <;> rfl
  · rfl

omit h1 h2 in
theorem newerNode?_eq_some {m : Matching} {e : Entity} (h : newerNode? span m e = some n) :
    n.v1 = none ∧ n.v2 = some e.id := by
  unfold newerNode? at h
  split at h
  · cases h
  · cases h; exact ⟨rfl, rfl⟩

theorem nodes_nodup : (nodes span (.ofGraphs v1 v2 ops)).Nodup := by
  refine List.Nodup.append ?_ ?_ ?_
  · refine List.Nodup.of_map MergedNode.v1 ?_
    have hv : MergedNode.v1 ∘ olderNode span (.ofGraphs v1 v2 ops) = some ∘ Entity.id :=
      funext (v1_olderNode span _)
    rw [List.map_map, hv, ← List.map_map]
    exact h1.ids_nodup.map (Option.some_injective _)
  · refine List.Nodup.of_map MergedNode.v2 ?_
    refine List.Nodup.sublist (map_filterMap_sublist (f := some ∘ Entity.id) ?_ _) ?_
    · exact fun e n h => (newerNode?_eq_some h).2
    · rw [← List.map_map]
      exact h2.ids_nodup.map (Option.some_injective _)
  · intro n hn hn'
    obtain ⟨e, -, rfl⟩ := List.mem_map.mp hn
    obtain ⟨d, -, hd⟩ := List.mem_filterMap.mp hn'
    have hv := v1_olderNode span (.ofGraphs v1 v2 ops) e
    rw [(newerNode?_eq_some hd).1] at hv
    cases hv

theorem keys_nodup_nodes : ((nodes span (.ofGraphs v1 v2 ops)).map (·.node.key)).Nodup :=
  List.Nodup.map_on
    (fun _ hn _ hn' hk =>
      ((mem_nodes_iff h1 h2).mp hn).eq_of_key_eq h1 h2 ((mem_nodes_iff h1 h2).mp hn') hk)
    (nodes_nodup h1 h2)

end Nodes

end Merge

end Lineage
