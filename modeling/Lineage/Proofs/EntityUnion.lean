import Lineage.Document
import Lineage.Proofs.MergedEntities
import Lineage.Proofs.Relocation
import Lineage.Proofs.StatusPartition
import Mathlib.Data.List.Count
/-! # A merged graph is the union of two versions

Behind every merged node stands an entity of the older version, one of the newer version, or a pair
of both. Nodes of one version share their merged node exactly if they stand for one entity, and nodes
of the two versions if their entities are paired. A node's status and versions tell which versions
are behind it, and all counts of statuses agree. Main statements: `Settles.lookup_eq_some_iff`,
`statuses_nodes`, and what `EntityUnion` says of every merge.
-/
namespace Lineage

open Refactoring (Operation)
open Index (ofGraph)

/-- One of the graph's nodes goes to the node `x`. -/
def Graph.Reaches (g : Graph) (ids : List (NodeId × NodeId)) (x : Node) : Prop :=
  ∃ n ∈ g.nodes, ids.lookup n.id = some x.id

/-- No node says in which versions it occurs. -/
def Graph.Undated (g : Graph) : Prop := ∀ n ∈ g.nodes, n.versions = .empty ∧ n.firstVersion = none

theorem Graph.Parsed.undated {g : Graph} (h : g.Parsed) : g.Undated :=
  fun n hn => ⟨(h.unversioned n hn).versions, (h.unversioned n hn).firstVersion⟩

theorem Graph.Undated.ofGraph {g : Graph} (h : g.Undated) :
    ∀ e ∈ (ofGraph g).entities, e.node.versions = .empty ∧ e.node.firstVersion = none := by
  refine Index.forall_node_ofNodes (P := fun n => n.versions = .empty ∧ n.firstVersion = none) ?_ h
  rintro a b ⟨hav, haf⟩ ⟨hbv, -⟩
  refine ⟨?_, haf⟩
  show a.versions.union b.versions = .empty
  rw [hav, hbv]
  rfl

/-! ## Counts by status -/

namespace StatusCounts

def of (c : StatusCounts) : Status → Nat
  | .unchanged => c.unchanged
  | .modified => c.modified
  | .added => c.added
  | .deleted => c.deleted

def byName? (c : StatusCounts) (name : String) : Option Nat :=
  ((Status.ofName? name).map c.of).filter (0 < ·)

end StatusCounts

theorem get?_tally (xs : List String) (x : String) :
    (tally xs).get? x = (some (xs.count x)).filter (0 < ·) := by
  induction xs using List.reverseRecOn with
  | nil => rfl
  | append_singleton xs y ih =>
    have hs : tally (xs ++ [y]) = (tally xs).insert y (((tally xs).get? y).getD 0 + 1) :=
      List.foldl_append
    rw [hs, TextMap.get?_insert, List.count_append, List.count_singleton]
    by_cases hxy : x = y
    · subst hxy
      have hcount : ((some (xs.count x)).filter (0 < ·)).getD 0 = xs.count x := by
        cases xs.count x <;> rfl
      rw [if_pos rfl, ih, hcount]
      simp [Option.filter]
    · rw [if_neg hxy, ih]
      simp [Ne.symm hxy]

theorem Status.name_injective : Function.Injective Status.name := by
  intro s t h
  revert h
  cases s <;> cases t <;> decide

theorem Status.ofName?_eq_some_iff {name : String} {s : Status} :
    Status.ofName? name = some s ↔ s.name = name := by
  constructor
  · intro h
    simpa using List.find?_some h
  · rintro rfl
    cases s <;> decide

theorem get?_tally_names (ss : List Status) (name : String) :
    (tally (ss.map Status.name)).get? name = (StatusCounts.ofStatuses ss).byName? name := by
  rw [get?_tally, StatusCounts.byName?]
  cases h : Status.ofName? name with
  | none =>
    have hnot : name ∉ ss.map Status.name := by
      intro hmem
      obtain ⟨s, -, hs⟩ := List.mem_map.mp hmem
      rw [Status.ofName?_eq_some_iff.mpr hs] at h
      cases h
    rw [List.count_eq_zero.mpr hnot]
    rfl
  | some s =>
    have hs := Status.ofName?_eq_some_iff.mp h
    have hof : (StatusCounts.ofStatuses ss).of s = ss.count s := by cases s <;> rfl
    rw [← hs, List.count_map_of_injective ss Status.name Status.name_injective, Option.map_some, hof]

namespace Merge

/-! ## One merged node for each entity -/

/-- Every canonical node of the graph stands behind exactly one merged node. -/
structure Settles (g : Graph) (origin : MergedNode → Option NodeId) (ns : List MergedNode) : Prop where
  wellFormed : g.WellFormed
  covers : ∀ c ∈ (ofGraph g).ids, ∃ n ∈ ns, origin n = some c
  canonical : ∀ n ∈ ns, ∀ c, origin n = some c → c ∈ (ofGraph g).ids
  unique : ∀ n ∈ ns, ∀ n' ∈ ns, ∀ c, origin n = some c → origin n' = some c → n = n'
  nodup : ns.Nodup

namespace Settles

variable {g : Graph} {origin : MergedNode → Option NodeId} {ns : List MergedNode}
variable (h : Settles g origin ns) {n a b : Node}
include h

theorem lookup_eq_some_iff (hn : n ∈ g.nodes) {j : NodeId} :
    (idMap g (ofGraph g) origin ns).lookup n.id = some j ↔
      ∃ hj : j.number < ns.length, origin ns[j.number] = g.findKey? n.key := by
  obtain ⟨c, hc⟩ := Graph.exists_findKey? hn
  rw [lookup_idMap h.wellFormed.built hn, h.wellFormed.canonical?_eq_findKey? hn, hc, Option.bind_some]
  constructor
  · exact position?_eq_some
  · rintro ⟨hj, ho⟩
    -- The search goes from the end, but the position it finds is the only one there is.
    obtain ⟨i, hi⟩ := exists_position? ⟨_, List.getElem_mem hj, ho⟩
    obtain ⟨hi', ho'⟩ := position?_eq_some hi
    have heq := h.unique _ (List.getElem_mem hi') _ (List.getElem_mem hj) c ho' ho
    have hij : i.number = j.number := h.nodup.getElem_inj_iff.mp heq
    rw [hi]
    exact congrArg (fun i => some (NodeId.mk i)) hij

theorem exists_lookup (hn : n ∈ g.nodes) : ∃ (j : NodeId) (hj : j.number < ns.length),
    (idMap g (ofGraph g) origin ns).lookup n.id = some j ∧ origin ns[j.number] = g.findKey? n.key := by
  have hcovers : ∀ i ∈ (ofGraph g).ids, ∃ n ∈ ns, origin n = some i := h.covers
  obtain ⟨j, hj⟩ := exists_lookup_idMap h.wellFormed.built hcovers hn
  obtain ⟨hlt, ho⟩ := (h.lookup_eq_some_iff hn).mp hj
  exact ⟨j, hlt, hj, ho⟩

theorem lookup_eq_iff (ha : a ∈ g.nodes) (hb : b ∈ g.nodes) :
    (idMap g (ofGraph g) origin ns).lookup a.id = (idMap g (ofGraph g) origin ns).lookup b.id ↔
      a.key = b.key := by
  obtain ⟨j, hj, hl, ho⟩ := h.exists_lookup ha
  rw [hl, eq_comm, h.lookup_eq_some_iff hb]
  constructor
  · rintro ⟨_, ho'⟩
    obtain ⟨c, hc⟩ := Graph.exists_findKey? ha
    exact h.wellFormed.built.numbered.key_eq_of_findKey?_eq hc (ho'.symm.trans (ho.trans hc))
  · intro hk
    exact ⟨hj, hk ▸ ho⟩

theorem reaches_iff {i : Nat} (hi : i < ns.length) :
    g.Reaches (idMap g (ofGraph g) origin ns) (ns[i].node.renumber ⟨i⟩) ↔ (origin ns[i]).isSome := by
  constructor
  · rintro ⟨n, hn, hl⟩
    obtain ⟨_, ho⟩ := (h.lookup_eq_some_iff hn).mp hl
    obtain ⟨c, hc⟩ := Graph.exists_findKey? hn
    exact Option.isSome_iff_exists.mpr ⟨c, ho.trans hc⟩
  · intro hs
    obtain ⟨c, hc⟩ := Option.isSome_iff_exists.mp hs
    have hmem := h.canonical _ (List.getElem_mem hi) c hc
    rw [h.wellFormed.ids_eq] at hmem
    obtain ⟨n, hn, rfl⟩ := List.mem_map.mp hmem
    obtain ⟨hg, hfirst⟩ := List.mem_filter.mp hn
    have hfind : g.findKey? n.key = some n.id := of_decide_eq_true hfirst
    exact ⟨n, hg, (h.lookup_eq_some_iff hg).mpr ⟨hi, hc.trans hfind.symm⟩⟩

end Settles

section Origins
variable {v1 v2 : Graph} (h1 : v1.WellFormed) (h2 : v2.WellFormed)
variable {ops : List Operation} {span : Span} {n : MergedNode} {c : NodeId}

theorem mem_nodes_of_v1_eq {m : Matching} (hn : n ∈ nodes span m) (hc : n.v1 = some c) :
    ∃ e ∈ m.index1.entities, e.id = c ∧ n = olderNode span m e := by
  rcases List.mem_append.mp hn with hn | hn
  · obtain ⟨e, he, rfl⟩ := List.mem_map.mp hn
    rw [v1_olderNode, Option.some.injEq] at hc
    exact ⟨e, he, hc, rfl⟩
  · obtain ⟨e, -, he⟩ := List.mem_filterMap.mp hn
    rw [(newerNode?_eq_some he).1] at hc
    cases hc

include h1 h2

theorem settles1 (ops : List Operation) (span : Span) :
    Settles v1 MergedNode.v1 (nodes span (.ofGraphs v1 v2 ops)) where
  wellFormed := h1
  covers _ hc := exists_v1 hc
  canonical n hn c hc := by
    obtain ⟨e, he, rfl, -⟩ := mem_nodes_of_v1_eq hn hc
    exact List.mem_map_of_mem he
  unique n hn n' hn' c hc hc' := by
    obtain ⟨e, he, hec, rfl⟩ := mem_nodes_of_v1_eq hn hc
    obtain ⟨e', he', hec', rfl⟩ := mem_nodes_of_v1_eq hn' hc'
    rw [h1.entity_eq_of_id he he' (hec.trans hec'.symm)]
  nodup := nodes_nodup h1 h2

theorem settles2 (ops : List Operation) (span : Span) :
    Settles v2 MergedNode.v2 (nodes span (.ofGraphs v1 v2 ops)) where
  wellFormed := h2
  covers _ hc := exists_v2 h1.built hc
  canonical n hn c hc := by
    rw [((mem_nodes_iff h1 h2).mp hn).v2_eq h1 h2] at hc
    obtain ⟨e, he, -, rfl⟩ := h2.lookup?_eq_some_iff.mp hc
    exact List.mem_map_of_mem he
  unique n hn n' hn' c hc hc' := by
    -- A newer entity may stand behind a kept or a fresh node; either goes by the entity's key.
    have ha := (mem_nodes_iff h1 h2).mp hn
    have ha' := (mem_nodes_iff h1 h2).mp hn'
    rw [ha.v2_eq h1 h2] at hc
    rw [ha'.v2_eq h1 h2] at hc'
    obtain ⟨e, he, hek, hec⟩ := h2.lookup?_eq_some_iff.mp hc
    obtain ⟨e', he', hek', hec'⟩ := h2.lookup?_eq_some_iff.mp hc'
    obtain rfl := h2.entity_eq_of_id he he' (hec.trans hec'.symm)
    exact ha.eq_of_key_eq h1 h2 ha' (hek.symm.trans hek')
  nodup := nodes_nodup h1 h2

/-- Rekeys lead from methods to methods, so nodes keep their kind on the way. -/
theorem Arises.kind_eq_of_v1_eq (hn : Arises span (.ofGraphs v1 v2 ops) n) {a : Node} (ha : a ∈ v1.nodes)
    (hv : n.v1 = v1.findKey? a.key) : n.node.kind = a.kind := by
  have hkey : ∀ old ∈ (ofGraph v1).entities, some old.id = v1.findKey? a.key →
      old.key.kind = a.kind := by
    intro old hold ho
    have hk := h1.built.numbered.key_eq_of_findKey?_eq (Index.findKey?_key_ofGraph hold) ho.symm
    exact congrArg EntityKey.kind hk
  obtain ⟨c, hc⟩ := Graph.exists_findKey? ha
  cases hn with
  | @kept old new hold hnew hp =>
    obtain ⟨e, he, d, hd, hpair, hkind⟩ := Matching.entities_of_mem_pairs h1 h2 hp
    obtain rfl := h1.entity_eq_of_id hold he (congrArg Pair.v1 hpair)
    obtain rfl := h2.entity_eq_of_id hnew hd (congrArg Pair.v2 hpair)
    have hnode := congrArg EntityKey.kind (h2.isIndexOf.key_node new hnew)
    exact hnode.trans (hkind.symm.trans (hkey old hold hv))
  | @gone old hold hp =>
    have hnode := congrArg EntityKey.kind (h1.isIndexOf.key_node old hold)
    exact hnode.trans (hkey old hold hv)
  | fresh hnew hp => cases hv.trans hc

theorem Arises.kind_eq_of_v2_eq (hn : Arises span (.ofGraphs v1 v2 ops) n) {b : Node} (hb : b ∈ v2.nodes)
    (hv : n.v2 = v2.findKey? b.key) : n.node.kind = b.kind := by
  obtain ⟨c, hc⟩ := Graph.exists_findKey? hb
  have hn2 : n.v2 = v2.findKey? n.node.key := by
    rw [hn.v2_eq h1 h2, h2.isIndexOf.lookup?]
    rfl
  have hk := h2.built.numbered.key_eq_of_findKey?_eq (hn2.symm.trans (hv.trans hc)) hc
  exact congrArg EntityKey.kind hk

/-! ## Statuses -/

theorem status_olderNode {old : Entity} (hold : old ∈ (ofGraph v1).entities) :
    (olderNode span (.ofGraphs v1 v2 ops) old).node.status =
      some ((Matching.ofGraphs v1 v2 ops).status1 old.id) := by
  have hc := Matching.coherent_ofGraphs h1 h2 ops
  have harises : Arises span (.ofGraphs v1 v2 ops) (olderNode span (.ofGraphs v1 v2 ops) old) :=
    arises_olderNode h1 h2 hold
  have hv := v1_olderNode span (.ofGraphs v1 v2 ops) old
  generalize olderNode span (.ofGraphs v1 v2 ops) old = n at harises hv
  cases harises with
  | @kept old' new hold' hnew hp =>
    have hstatus := hc.status1_of_mem hp
    rw [← Option.some.inj hv]
    exact congrArg some hstatus.symm
  | @gone old' hold' hp =>
    rw [← Option.some.inj hv, Matching.status1_of_not_mem hp]
    rfl
  | fresh hnew hp => cases hv

theorem statuses_nodes :
    (nodes span (.ofGraphs v1 v2 ops)).filterMap (·.node.status) =
      (Matching.ofGraphs v1 v2 ops).statuses1.map (·.2) ++
        ((Matching.ofGraphs v1 v2 ops).statuses2.filter fun e =>
          ((Matching.ofGraphs v1 v2 ops).pairOf2? e.1).isNone).map (·.2) := by
  have hold : ((ofGraph v1).entities.map (olderNode span (.ofGraphs v1 v2 ops))).filterMap
      (·.node.status) = (ofGraph v1).entities.map fun e => (Matching.ofGraphs v1 v2 ops).status1 e.id := by
    rw [List.filterMap_map, ← List.filterMap_eq_map]
    exact List.filterMap_congr fun e he => status_olderNode h1 h2 he
  have hnew : ∀ es : List Entity,
      (es.filterMap (newerNode? span (.ofGraphs v1 v2 ops))).filterMap (·.node.status) =
        ((es.map fun e => (e.id, (Matching.ofGraphs v1 v2 ops).status2 e.id)).filter fun e =>
          ((Matching.ofGraphs v1 v2 ops).pairOf2? e.1).isNone).map (·.2) := by
    intro es
    induction es with
    | nil => rfl
    | cons e es ih =>
      rw [List.map_cons, List.filter_cons, List.filterMap_cons]
      cases hp : (Matching.ofGraphs v1 v2 ops).pairOf2? e.id with
      | none => simpa [newerNode?, Matching.status2, hp] using ih
      | some p => simpa [newerNode?, hp] using ih
  rw [nodes, List.filterMap_append, Matching.statuses1, Matching.statuses2, Index.ids, Index.ids]
  simp only [List.map_map]
  exact congrArg₂ (· ++ ·) hold (hnew (ofGraph v2).entities)

end Origins

/-! ## Versions -/

/-- The node occurs in two versions or one, which are its first and its last. -/
def Dated (first last : String) (n : Node) : Prop :=
  (∀ v, v ∈ n.versions ↔ v = first ∨ v = last) ∧
    n.firstVersion = some first ∧ n.lastVersion = some last

theorem Dated.renumber {first last : String} {n : Node} (h : Dated first last n) (i : NodeId) :
    Dated first last (n.renumber i) := h

theorem dated_stamp {n : Node} (hv : n.versions = .empty ∧ n.firstVersion = none) (c : String) :
    Dated c c (n.stamp c) := by
  obtain ⟨hv, hf⟩ := hv
  refine ⟨fun v => ?_, ?_, rfl⟩
  · simp [Node.stamp, hv]
  · simp only [Node.stamp, hf]
    rfl

theorem dated_kept {span : Span} {m : Matching} {old new : Node} {p : Pair}
    (ho : old.versions = .empty ∧ old.firstVersion = none)
    (hn : new.versions = .empty ∧ new.firstVersion = none) :
    Dated span.older.id span.newer.id (kept span m old new p) := by
  refine ⟨fun v => ?_, ?_, rfl⟩
  · simp only [kept, ho.1, hn.1, TextSet.mem_insert, TextSet.mem_union, TextSet.not_mem_empty,
      or_false]
    exact or_comm
  · simp only [kept, ho.2]
    rfl

/-- What the merged graph of two versions says of their entities. -/
structure EntityUnion (span : Span) (v1 v2 : Graph) (m : Matching) (r : Merged) : Prop where
  ids_nodup : (r.graph.nodes.map (·.id)).Nodup
  keys_nodup : r.graph.keys.Nodup
  keys : ∀ k, k ∈ r.graph.keys ↔ (k ∈ v1.keys ∨ k ∈ v2.keys) ∧ ∀ x ∈ m.rekeys, x.older ≠ k
  total1 : ∀ n ∈ v1.nodes, ∃ x ∈ r.graph.nodes, r.ids1.lookup n.id = some x.id ∧ x.kind = n.kind
  total2 : ∀ n ∈ v2.nodes, ∃ x ∈ r.graph.nodes, r.ids2.lookup n.id = some x.id ∧ x.kind = n.kind
  covered : ∀ x ∈ r.graph.nodes, v1.Reaches r.ids1 x ∨ v2.Reaches r.ids2 x
  same1 : ∀ a ∈ v1.nodes, ∀ b ∈ v1.nodes,
    r.ids1.lookup a.id = r.ids1.lookup b.id ↔ a.key = b.key
  same2 : ∀ a ∈ v2.nodes, ∀ b ∈ v2.nodes,
    r.ids2.lookup a.id = r.ids2.lookup b.id ↔ a.key = b.key
  across : ∀ a ∈ v1.nodes, ∀ b ∈ v2.nodes, r.ids1.lookup a.id = r.ids2.lookup b.id ↔
    ∃ i j, v1.findKey? a.key = some i ∧ v2.findKey? b.key = some j ∧ (i, j) ∈ m.mapping
  both : ∀ x ∈ r.graph.nodes, v1.Reaches r.ids1 x → v2.Reaches r.ids2 x →
    (x.status = some .unchanged ∨ x.status = some .modified) ∧ Dated span.older.id span.newer.id x
  gone : ∀ x ∈ r.graph.nodes, v1.Reaches r.ids1 x → ¬v2.Reaches r.ids2 x →
    x.status = some .deleted ∧ Dated span.older.id span.older.id x
  fresh : ∀ x ∈ r.graph.nodes, ¬v1.Reaches r.ids1 x → v2.Reaches r.ids2 x →
    x.status = some .added ∧ Dated span.newer.id span.newer.id x
  counts : r.counts = m.counts
  statistics : ∀ name, (Statistics.ofGraph r.graph).nodesByStatus.get? name = m.counts.byName? name

section Run
variable {v1 v2 : Graph} (h1 : v1.WellFormed) (h2 : v2.WellFormed)
variable {detector : String} {ops : List Operation} {span : Span} {x : Node}

theorem mem_nodes_run_iff {m : Matching} : x ∈ (run detector v1 v2 m ops span).1.graph.nodes ↔
    ∃ (i : Nat) (hi : i < (nodes span m).length), (nodes span m)[i].node.renumber ⟨i⟩ = x := by
  rw [nodes_run, List.mem_mapIdx]

include h1 h2

/-- Nodes of the two versions go to one merged node if matching relates their entities. -/
theorem lookup_ids1_eq_lookup_ids2_iff {a b : Node} (ha : a ∈ v1.nodes) (hb : b ∈ v2.nodes) :
    (ids1 span v1 (.ofGraphs v1 v2 ops)).lookup a.id = (ids2 span v2 (.ofGraphs v1 v2 ops)).lookup b.id ↔
      ∃ i j, v1.findKey? a.key = some i ∧ v2.findKey? b.key = some j ∧
        (i, j) ∈ (Matching.ofGraphs v1 v2 ops).mapping := by
  have hs1 := settles1 h1 h2 ops span
  have hs2 := settles2 h1 h2 ops span
  constructor
  · intro he
    obtain ⟨k, hk, hl, ho⟩ := hs1.exists_lookup ha
    have hl2 : (ids2 span v2 (.ofGraphs v1 v2 ops)).lookup b.id = some k := he.symm.trans hl
    obtain ⟨_, ho2⟩ := (hs2.lookup_eq_some_iff hb).mp hl2
    obtain ⟨i, hi⟩ := Graph.exists_findKey? ha
    obtain ⟨j, hj⟩ := Graph.exists_findKey? hb
    refine ⟨i, j, hi, hj, ?_⟩
    rw [hi] at ho
    rw [hj] at ho2
    -- Both nodes go to one merged node, which only a pair can give two origins.
    have harises : Arises span (.ofGraphs v1 v2 ops) (nodes span (.ofGraphs v1 v2 ops))[k.number] :=
      (mem_nodes_iff h1 h2).mp (List.getElem_mem hk)
    generalize (nodes span (.ofGraphs v1 v2 ops))[k.number] = n at harises ho ho2
    cases harises with
    | kept hold hnew hp =>
      exact Matching.mem_mapping_iff.mpr ⟨_, hp, Option.some.inj ho, Option.some.inj ho2⟩
    | gone hold hp => cases ho2
    | fresh hnew hp => cases ho
  · rintro ⟨i, j, hi, hj, hij⟩
    obtain ⟨p, hp, rfl, rfl⟩ := Matching.mem_mapping_iff.mp hij
    obtain ⟨old, hold, new, hnew, rfl, -⟩ := Matching.entities_of_mem_pairs h1 h2 hp
    have hmem : _ ∈ nodes span (.ofGraphs v1 v2 ops) :=
      (mem_nodes_iff h1 h2).mpr (.kept hold hnew hp)
    obtain ⟨k, hk, hget⟩ := List.getElem_of_mem hmem
    have hl1 := (hs1.lookup_eq_some_iff ha (j := ⟨k⟩)).mpr ⟨hk, by rw [hget]; exact hi.symm⟩
    have hl2 := (hs2.lookup_eq_some_iff hb (j := ⟨k⟩)).mpr ⟨hk, by rw [hget]; exact hj.symm⟩
    exact hl1.trans hl2.symm

theorem statuses_run : (run detector v1 v2 (.ofGraphs v1 v2 ops) ops span).1.graph.nodes.filterMap
    (·.status) = (Matching.ofGraphs v1 v2 ops).statuses1.map (·.2) ++
      ((Matching.ofGraphs v1 v2 ops).statuses2.filter fun e =>
        ((Matching.ofGraphs v1 v2 ops).pairOf2? e.1).isNone).map (·.2) := by
  have hmap := congrArg (List.filterMap id) (map_nodes_run (f := (·.status)) (fun _ _ => rfl)
    detector v1 v2 (.ofGraphs v1 v2 ops) ops span)
  rw [List.filterMap_map, List.filterMap_map] at hmap
  exact hmap.trans (statuses_nodes h1 h2)

theorem entityUnion_run (hu1 : v1.Undated) (hu2 : v2.Undated) :
    EntityUnion span v1 v2 (.ofGraphs v1 v2 ops)
      (run detector v1 v2 (.ofGraphs v1 v2 ops) ops span).1 := by
  have hs1 := settles1 h1 h2 ops span
  have hs2 := settles2 h1 h2 ops span
  have hc := Matching.coherent_ofGraphs h1 h2 ops
  have hcounts : (run detector v1 v2 (.ofGraphs v1 v2 ops) ops span).1.counts =
      (Matching.ofGraphs v1 v2 ops).counts :=
    congrArg StatusCounts.ofStatuses (statuses_run h1 h2)
  -- Every merged node arises from an entity, and which versions reach it can be read off.
  have hnode : ∀ x ∈ (run detector v1 v2 (.ofGraphs v1 v2 ops) ops span).1.graph.nodes,
      ∃ (n : MergedNode) (i : NodeId), x = n.node.renumber i ∧
        Arises span (.ofGraphs v1 v2 ops) n ∧
        (v1.Reaches (ids1 span v1 (.ofGraphs v1 v2 ops)) x ↔ n.v1.isSome) ∧
        (v2.Reaches (ids2 span v2 (.ofGraphs v1 v2 ops)) x ↔ n.v2.isSome) := by
    intro x hx
    obtain ⟨i, hi, rfl⟩ := mem_nodes_run_iff.mp hx
    exact ⟨_, ⟨i⟩, rfl, (mem_nodes_iff h1 h2).mp (List.getElem_mem hi), hs1.reaches_iff hi,
      hs2.reaches_iff hi⟩
  refine
    { ids_nodup := (numbered_run detector v1 v2 _ ops span).nodup
      keys_nodup := by rw [keys_run]; exact keys_nodup_nodes h1 h2
      keys := fun k => by rw [keys_run]; exact mem_keys_nodes_iff h1 h2
      total1 := fun n hn => ?_
      total2 := fun n hn => ?_
      covered := fun x hx => ?_
      same1 := fun a ha b hb => hs1.lookup_eq_iff ha hb
      same2 := fun a ha b hb => hs2.lookup_eq_iff ha hb
      across := fun a ha b hb => lookup_ids1_eq_lookup_ids2_iff h1 h2 ha hb
      both := fun x hx hr1 hr2 => ?_
      gone := fun x hx hr1 hr2 => ?_
      fresh := fun x hx hr1 hr2 => ?_
      counts := hcounts
      statistics := fun name => ?_ }
  · obtain ⟨j, hj, hl, ho⟩ := hs1.exists_lookup hn
    have harises := (mem_nodes_iff h1 h2).mp (List.getElem_mem hj)
    exact ⟨_, mem_nodes_run_iff.mpr ⟨j.number, hj, rfl⟩, hl, harises.kind_eq_of_v1_eq h1 h2 hn ho⟩
  · obtain ⟨j, hj, hl, ho⟩ := hs2.exists_lookup hn
    have harises := (mem_nodes_iff h1 h2).mp (List.getElem_mem hj)
    exact ⟨_, mem_nodes_run_iff.mpr ⟨j.number, hj, rfl⟩, hl, harises.kind_eq_of_v2_eq h1 h2 hn ho⟩
  · obtain ⟨n, i, -, harises, hreach1, hreach2⟩ := hnode x hx
    cases harises with
    | kept hold hnew hp => exact .inl (hreach1.mpr rfl)
    | gone hold hp => exact .inl (hreach1.mpr rfl)
    | fresh hnew hp => exact .inr (hreach2.mpr rfl)
  · obtain ⟨n, i, rfl, harises, hreach1, hreach2⟩ := hnode x hx
    cases harises with
    | @kept old new hold hnew hp =>
      refine ⟨(hc.status _ hp).imp (congrArg some) (congrArg some), ?_⟩
      exact (dated_kept (hu1.ofGraph old hold) (hu2.ofGraph new hnew)).renumber i
    | gone hold hp => cases hreach2.mp hr2
    | fresh hnew hp => cases hreach1.mp hr1
  · obtain ⟨n, i, rfl, harises, hreach1, hreach2⟩ := hnode x hx
    cases harises with
    | kept hold hnew hp => exact absurd (hreach2.mpr rfl) hr2
    | @gone old hold hp => exact ⟨rfl, (dated_stamp (hu1.ofGraph old hold) span.older.id).renumber i⟩
    | fresh hnew hp => cases hreach1.mp hr1
  · obtain ⟨n, i, rfl, harises, hreach1, hreach2⟩ := hnode x hx
    cases harises with
    | kept hold hnew hp => exact absurd (hreach1.mpr rfl) hr1
    | gone hold hp => cases hreach2.mp hr2
    | @fresh new hnew hp => exact ⟨rfl, (dated_stamp (hu2.ofGraph new hnew) span.newer.id).renumber i⟩
  · rw [← hcounts, Merged.counts, ← get?_tally_names, List.map_filterMap]
    rfl

end Run

section Sample
open Lineage.Graph (ofMethods)

def variedBefore : Graph := ofMethods [("foo", 3), ("bar", 7), ("bar", 11), ("old", 15)]

def variedAfter : Graph := ofMethods [("bar", 7), ("baz", 3), ("new", 19)]

theorem entityUnion_varied : variedBefore.WellFormed ∧ variedAfter.WellFormed ∧
    variedBefore.Undated ∧ variedAfter.Undated ∧
    (Matching.ofGraphs variedBefore variedAfter [.renameAt 3]).counts = ⟨1, 1, 1, 1⟩ ∧
    EntityUnion ⟨.new "c0" 0, .new "c1" 1⟩ variedBefore variedAfter
      (.ofGraphs variedBefore variedAfter [.renameAt 3])
      (run defaultDetector variedBefore variedAfter
        (.ofGraphs variedBefore variedAfter [.renameAt 3]) [.renameAt 3]
        ⟨.new "c0" 0, .new "c1" 1⟩).1 := by
  have h1 : variedBefore.Parsed := Graph.parsed_ofMethods _
  have h2 : variedAfter.Parsed := Graph.parsed_ofMethods _
  exact ⟨h1.toWellFormed, h2.toWellFormed, h1.undated, h2.undated, by decide +kernel,
    entityUnion_run h1.toWellFormed h2.toWellFormed h1.undated h2.undated⟩

end Sample

end Merge

end Lineage
