import Lineage.Proofs.Matching
/-! # What matching says of the entities of two versions

Matching relates canonical nodes of one kind one to one, and gives each canonical node exactly one
status. Operations join methods that would count as deleted with methods that would count as added,
and change nothing else. Main statements: `kind_eq_of_mem_pairs`, `pairs_perm`, and what the two
structures say of every matching.
-/
namespace Lineage.Matching

open Refactoring (Operation)
open Index (ofGraph)

/-- The related nodes of the two versions. -/
def mapping (m : Matching) : List (NodeId × NodeId) := m.pairs.map fun p => (p.v1, p.v2)

/-- The mapping is one-to-one between canonical nodes of one kind, and the status tables cover the
canonical nodes: related ones share a status, the others are deleted or added. -/
structure StatusPartition (v1 v2 : Graph) (m : Matching) : Prop where
  forward : ∀ a b, m.forward? a = some b ↔ (a, b) ∈ m.mapping
  backward : ∀ a b, m.backward? b = some a ↔ (a, b) ∈ m.mapping
  nodup1 : (m.mapping.map (·.1)).Nodup
  nodup2 : (m.mapping.map (·.2)).Nodup
  canonical : ∀ a b, (a, b) ∈ m.mapping → a ∈ v1.canonicalIds ∧ b ∈ v2.canonicalIds
  sameKind : ∀ old ∈ v1.nodes, ∀ new ∈ v2.nodes, (old.id, new.id) ∈ m.mapping → old.kind = new.kind
  domain1 : m.statuses1.map (·.1) = v1.canonicalIds
  domain2 : m.statuses2.map (·.1) = v2.canonicalIds
  related : ∀ a b, (a, b) ∈ m.mapping →
    ∃ s, (s = .unchanged ∨ s = .modified) ∧ (a, s) ∈ m.statuses1 ∧ (b, s) ∈ m.statuses2
  deleted : ∀ a s, m.forward? a = none → (a, s) ∈ m.statuses1 → s = .deleted
  added : ∀ b s, m.backward? b = none → (b, s) ∈ m.statuses2 → s = .added
  not_added : ∀ a, (a, .added) ∉ m.statuses1
  not_deleted : ∀ b, (b, .deleted) ∉ m.statuses2
  total : m.counts.total + m.mapping.length = v1.canonicalIds.length + v2.canonicalIds.length

/-- What the operations change in the matching `m₀` that is made without them. -/
structure RekeyEffect (v1 v2 : Graph) (m₀ m : Matching) : Prop where
  mapping : ∀ a b,
    (a, b) ∈ m.mapping ↔ (a, b) ∈ m₀.mapping ∨ ∃ r ∈ m.rekeys, r.v1 = a ∧ r.v2 = b
  disjoint : ∀ r ∈ m.rekeys, (r.v1, r.v2) ∉ m₀.mapping
  older : ∀ r ∈ m.rekeys, (∃ n ∈ v1.nodes, n.id = r.v1 ∧ n.kind = .method) ∧
    (r.v1, .deleted) ∈ m₀.statuses1 ∧ (r.v1, .modified) ∈ m.statuses1
  newer : ∀ r ∈ m.rekeys, (∃ n ∈ v2.nodes, n.id = r.v2 ∧ n.kind = .method) ∧
    (r.v2, .added) ∈ m₀.statuses2 ∧ (r.v2, .modified) ∈ m.statuses2
  others1 : ∀ a s, (∀ r ∈ m.rekeys, r.v1 ≠ a) → ((a, s) ∈ m.statuses1 ↔ (a, s) ∈ m₀.statuses1)
  others2 : ∀ b s, (∀ r ∈ m.rekeys, r.v2 ≠ b) → ((b, s) ∈ m.statuses2 ↔ (b, s) ∈ m₀.statuses2)
  fewerDeleted : m.counts.deleted + m.rekeys.length = m₀.counts.deleted
  fewerAdded : m.counts.added + m.rekeys.length = m₀.counts.added
  moreModified : m.counts.modified = m₀.counts.modified + m.rekeys.length
  sameUnchanged : m.counts.unchanged = m₀.counts.unchanged

section Tables
variable {m : Matching} {a b : NodeId} {s : Status}

theorem mem_statuses1_iff : (a, s) ∈ m.statuses1 ↔ a ∈ m.index1.ids ∧ m.status1 a = s := by
  simp only [statuses1, List.mem_map, Prod.mk.injEq]
  constructor
  · rintro ⟨i, hi, rfl, hs⟩
    exact ⟨hi, hs⟩
  · rintro ⟨hi, hs⟩
    exact ⟨a, hi, rfl, hs⟩

theorem mem_statuses2_iff : (b, s) ∈ m.statuses2 ↔ b ∈ m.index2.ids ∧ m.status2 b = s := by
  simp only [statuses2, List.mem_map, Prod.mk.injEq]
  constructor
  · rintro ⟨i, hi, rfl, hs⟩
    exact ⟨hi, hs⟩
  · rintro ⟨hi, hs⟩
    exact ⟨b, hi, rfl, hs⟩

theorem mem_mapping_iff : (a, b) ∈ m.mapping ↔ ∃ p ∈ m.pairs, p.v1 = a ∧ p.v2 = b := by
  simp only [mapping, List.mem_map, Prod.mk.injEq]

namespace Coherent

variable (h : Coherent m)
include h

theorem status1_eq_deleted_or : m.status1 a = .deleted ∨ m.status1 a = .unchanged ∨
    m.status1 a = .modified := by
  by_cases ha : a ∈ m.pairs.map (·.v1)
  · obtain ⟨p, hp, rfl⟩ := List.mem_map.mp ha
    rw [h.status1_of_mem hp]
    exact .inr (h.status p hp)
  · exact .inl (status1_of_not_mem ha)

theorem status2_eq_added_or : m.status2 b = .added ∨ m.status2 b = .unchanged ∨
    m.status2 b = .modified := by
  by_cases hb : b ∈ m.pairs.map (·.v2)
  · obtain ⟨p, hp, rfl⟩ := List.mem_map.mp hb
    rw [h.status2_of_mem hp]
    exact .inr (h.status p hp)
  · exact .inl (status2_of_not_mem hb)

theorem total_add_length : m.counts.total + m.pairs.length = m.index1.size + m.index2.size := by
  have hc := h.unchanged_add_modified
  have hl1 := h.length_pairs_le1
  have hl2 := h.length_pairs_le2
  rw [h.counts_eq] at hc ⊢
  simp only [StatusCounts.total] at hc ⊢
  omega

end Coherent

end Tables

section Graphs
variable {v1 v2 : Graph}

theorem kind_eq_of_mem_pairs (h1 : v1.WellFormed) (h2 : v2.WellFormed) {ops : List Operation}
    {p : Pair} (hp : p ∈ (ofGraphs v1 v2 ops).pairs) {old new : Node} (hold : old ∈ v1.nodes)
    (hnew : new ∈ v2.nodes) (ho : old.id = p.v1) (hn : new.id = p.v2) : old.kind = new.kind := by
  obtain ⟨e, he, d, hd, rfl, hk⟩ := entities_of_mem_pairs h1 h2 hp
  obtain ⟨n, hmem, hni, hnk⟩ := h1.isIndexOf.mem_nodes e he
  obtain ⟨n', hmem', hni', hnk'⟩ := h2.isIndexOf.mem_nodes d hd
  obtain rfl := List.inj_on_of_nodup_map h1.built.ids_nodup hmem hold (hni.trans ho.symm)
  obtain rfl := List.inj_on_of_nodup_map h2.built.ids_nodup hmem' hnew (hni'.trans hn.symm)
  rw [← hnk, ← hnk'] at hk
  exact hk

theorem statusPartition_ofGraphs (h1 : v1.WellFormed) (h2 : v2.WellFormed) (ops : List Operation) :
    StatusPartition v1 v2 (ofGraphs v1 v2 ops) := by
  have hc := coherent_ofGraphs h1 h2 ops
  have hids1 : (ofGraphs v1 v2 ops).index1.ids = v1.canonicalIds := h1.ids_eq
  have hids2 : (ofGraphs v1 v2 ops).index2.ids = v2.canonicalIds := h2.ids_eq
  refine
    { forward := fun a b => by rw [hc.forward?_eq_some_iff, mem_mapping_iff]
      backward := fun a b => by
        rw [← hc.forward?_eq_some_iff_backward?, hc.forward?_eq_some_iff, mem_mapping_iff]
      nodup1 := by rw [mapping, List.map_map]; exact hc.nodup1
      nodup2 := by rw [mapping, List.map_map]; exact hc.nodup2
      canonical := fun a b hab => ?_
      sameKind := fun old hold new hnew hab => ?_
      domain1 := by rw [← hids1, statuses1, List.map_map]; exact List.map_id _
      domain2 := by rw [← hids2, statuses2, List.map_map]; exact List.map_id _
      related := fun a b hab => ?_
      deleted := fun a s ha hs => ?_
      added := fun b s hb hs => ?_
      not_added := fun a ha => ?_
      not_deleted := fun b hb => ?_
      total := ?_ }
  · obtain ⟨p, hp, rfl, rfl⟩ := mem_mapping_iff.mp hab
    exact ⟨hids1 ▸ hc.mem1 p hp, hids2 ▸ hc.mem2 p hp⟩
  · obtain ⟨p, hp, hp1, hp2⟩ := mem_mapping_iff.mp hab
    exact kind_eq_of_mem_pairs h1 h2 hp hold hnew hp1.symm hp2.symm
  · obtain ⟨p, hp, rfl, rfl⟩ := mem_mapping_iff.mp hab
    exact ⟨p.status, hc.status p hp, mem_statuses1_iff.mpr ⟨hc.mem1 p hp, hc.status1_of_mem hp⟩,
      mem_statuses2_iff.mpr ⟨hc.mem2 p hp, hc.status2_of_mem hp⟩⟩
  · rw [forward?, Option.map_eq_none_iff] at ha
    rw [← (mem_statuses1_iff.mp hs).2]
    exact status1_of_not_mem (pairOf1?_eq_none_iff.mp ha)
  · rw [backward?, Option.map_eq_none_iff] at hb
    rw [← (mem_statuses2_iff.mp hs).2]
    exact status2_of_not_mem (pairOf2?_eq_none_iff.mp hb)
  · have ha := (mem_statuses1_iff.mp ha).2
    rcases hc.status1_eq_deleted_or (a := a) with h | h | h <;> rw [ha] at h <;> cases h
  · have hb := (mem_statuses2_iff.mp hb).2
    rcases hc.status2_eq_added_or (b := b) with h | h | h <;> rw [hb] at h <;> cases h
  · have ht := hc.total_add_length
    rw [mapping, List.length_map, ht, ← hids1, ← hids2, Index.ids, Index.ids, List.length_map,
      List.length_map]
    rfl

section Sample
open Lineage.Graph (ofMethods)

theorem statusPartition_renameAt :
    (ofMethods [("foo", 3), ("bar", 7)]).WellFormed ∧ (ofMethods [("baz", 3), ("bar", 7)]).WellFormed ∧
      StatusPartition (ofMethods [("foo", 3), ("bar", 7)]) (ofMethods [("baz", 3), ("bar", 7)])
        (ofGraphs (ofMethods [("foo", 3), ("bar", 7)]) (ofMethods [("baz", 3), ("bar", 7)])
          [.renameAt 3]) := by
  have h1 := (Graph.parsed_ofMethods [("foo", 3), ("bar", 7)]).toWellFormed
  have h2 := (Graph.parsed_ofMethods [("baz", 3), ("bar", 7)]).toWellFormed
  exact ⟨h1, h2, statusPartition_ofGraphs h1 h2 [.renameAt 3]⟩

end Sample

theorem mem_pairs_nil_iff (h1 : v1.WellFormed) (h2 : v2.WellFormed) {p : Pair} :
    p ∈ (ofGraphs v1 v2 []).pairs ↔ ∃ old ∈ (ofGraph v1).entities, ∃ new ∈ (ofGraph v2).entities,
      old.key = new.key ∧ .ofEntities old new = p := by
  rw [mem_pairs_iff h1 h2, rekeys_ofGraphs_nil]
  simp

/-- Without operations, the methods of a rekey have no partner: the old key is gone and the new one
is unknown. -/
theorem unpaired_of_mem_rekeys (h1 : v1.WellFormed) (h2 : v2.WellFormed) (ops : List Operation)
    {r : Rekey} (hr : r ∈ (ofGraphs v1 v2 ops).rekeys) :
    r.v1 ∉ (ofGraphs v1 v2 []).pairs.map (·.v1) ∧ r.v2 ∉ (ofGraphs v1 v2 []).pairs.map (·.v2) := by
  have hv := (admissible_rekeys h1 h2 ops).valid r hr
  obtain ⟨e, he, hek, hei⟩ := hv.old
  obtain ⟨d, hd, hdk, hdi⟩ := hv.new
  constructor
  · intro hp
    obtain ⟨p, hp, hpv⟩ := List.mem_map.mp hp
    obtain ⟨old, hold, new, hnew, hk, rfl⟩ := (mem_pairs_nil_iff h1 h2).mp hp
    obtain rfl := h1.entity_eq_of_id hold he (hpv.trans hei.symm)
    exact hv.gone new hnew (hk.symm.trans hek)
  · intro hp
    obtain ⟨p, hp, hpv⟩ := List.mem_map.mp hp
    obtain ⟨old, hold, new, hnew, hk, rfl⟩ := (mem_pairs_nil_iff h1 h2).mp hp
    obtain rfl := h2.entity_eq_of_id hnew hd (hpv.trans hdi.symm)
    exact hv.unknown old hold (hk.trans hdk)

theorem pairs_perm (h1 : v1.WellFormed) (h2 : v2.WellFormed) (ops : List Operation) :
    (ofGraphs v1 v2 ops).pairs.Perm
      ((ofGraphs v1 v2 []).pairs ++ (ofGraphs v1 v2 ops).rekeys.map .ofRekey) := by
  have ha := admissible_rekeys h1 h2 ops
  have hc := coherent_ofGraphs h1 h2 ops
  have hrekeys : ((ofGraphs v1 v2 ops).rekeys.map Pair.ofRekey).Nodup := by
    refine List.Nodup.of_map (·.v1) ?_
    rw [List.map_map]
    exact ha.disjoint.1
  have hdisj : (ofGraphs v1 v2 []).pairs.Disjoint ((ofGraphs v1 v2 ops).rekeys.map .ofRekey) := by
    intro p hp hpr
    obtain ⟨r, hr, rfl⟩ := List.mem_map.mp hpr
    exact (unpaired_of_mem_rekeys h1 h2 ops hr).1 (List.mem_map_of_mem hp)
  rw [List.perm_ext_iff_of_nodup (hc.nodup1.of_map _)
    (((coherent_ofGraphs h1 h2 []).nodup1.of_map _).append hrekeys hdisj)]
  intro p
  rw [mem_pairs_iff h1 h2, List.mem_append, mem_pairs_nil_iff h1 h2, List.mem_map, or_comm]

section Effect
variable (h1 : v1.WellFormed) (h2 : v2.WellFormed) (ops : List Operation)
include h1 h2

theorem mem_pairs_iff_of_ops {p : Pair} :
    p ∈ (ofGraphs v1 v2 ops).pairs ↔
      p ∈ (ofGraphs v1 v2 []).pairs ∨ ∃ r ∈ (ofGraphs v1 v2 ops).rekeys, .ofRekey r = p := by
  rw [(pairs_perm h1 h2 ops).mem_iff, List.mem_append, List.mem_map]

theorem length_pairs_eq : (ofGraphs v1 v2 ops).pairs.length =
    (ofGraphs v1 v2 []).pairs.length + (ofGraphs v1 v2 ops).rekeys.length := by
  rw [(pairs_perm h1 h2 ops).length_eq, List.length_append, List.length_map]

theorem count_status_eq (s : Status) :
    ((ofGraphs v1 v2 ops).pairs.map (·.status)).count s =
      ((ofGraphs v1 v2 []).pairs.map (·.status)).count s +
        if s = .modified then (ofGraphs v1 v2 ops).rekeys.length else 0 := by
  have hr : ((ofGraphs v1 v2 ops).rekeys.map Pair.ofRekey).map (·.status) =
      List.replicate (ofGraphs v1 v2 ops).rekeys.length Status.modified := by
    rw [List.map_map, List.eq_replicate_iff, List.length_map]
    refine ⟨rfl, fun t ht => ?_⟩
    obtain ⟨r, -, rfl⟩ := List.mem_map.mp ht
    rfl
  rw [((pairs_perm h1 h2 ops).map _).count_eq, List.map_append, List.count_append, hr,
    List.count_replicate]
  cases s <;> rfl

theorem pairOf1?_eq_of_forall_ne {a : NodeId}
    (ha : ∀ r ∈ (ofGraphs v1 v2 ops).rekeys, r.v1 ≠ a) :
    (ofGraphs v1 v2 ops).pairOf1? a = (ofGraphs v1 v2 []).pairOf1? a := by
  ext p
  rw [(coherent_ofGraphs h1 h2 ops).pairOf1?_eq_some_iff,
    (coherent_ofGraphs h1 h2 []).pairOf1?_eq_some_iff, mem_pairs_iff_of_ops h1 h2 ops]
  constructor
  · rintro ⟨hp | ⟨r, hr, rfl⟩, hpa⟩
    · exact ⟨hp, hpa⟩
    · exact absurd hpa (ha r hr)
  · exact fun ⟨hp, hpa⟩ => ⟨.inl hp, hpa⟩

theorem pairOf2?_eq_of_forall_ne {b : NodeId}
    (hb : ∀ r ∈ (ofGraphs v1 v2 ops).rekeys, r.v2 ≠ b) :
    (ofGraphs v1 v2 ops).pairOf2? b = (ofGraphs v1 v2 []).pairOf2? b := by
  ext p
  rw [(coherent_ofGraphs h1 h2 ops).pairOf2?_eq_some_iff,
    (coherent_ofGraphs h1 h2 []).pairOf2?_eq_some_iff, mem_pairs_iff_of_ops h1 h2 ops]
  constructor
  · rintro ⟨hp | ⟨r, hr, rfl⟩, hpb⟩
    · exact ⟨hp, hpb⟩
    · exact absurd hpb (hb r hr)
  · exact fun ⟨hp, hpb⟩ => ⟨.inl hp, hpb⟩

/-- The rekeys take as many entities from the deleted ones as from the added ones. -/
theorem counts_eq_of_ops :
    (ofGraphs v1 v2 ops).counts.deleted + (ofGraphs v1 v2 ops).rekeys.length =
        (ofGraphs v1 v2 []).counts.deleted ∧
      (ofGraphs v1 v2 ops).counts.added + (ofGraphs v1 v2 ops).rekeys.length =
        (ofGraphs v1 v2 []).counts.added := by
  have hc := coherent_ofGraphs h1 h2 ops
  have hlen := length_pairs_eq h1 h2 ops
  have hle1 := hc.length_pairs_le1
  have hle2 := hc.length_pairs_le2
  have hsize1 : (ofGraphs v1 v2 []).index1.size = (ofGraphs v1 v2 ops).index1.size := rfl
  have hsize2 : (ofGraphs v1 v2 []).index2.size = (ofGraphs v1 v2 ops).index2.size := rfl
  rw [hc.counts_eq, (coherent_ofGraphs h1 h2 []).counts_eq]
  constructor
  · dsimp only
    omega
  · dsimp only
    omega

theorem methods_of_mem_rekeys {r : Rekey} (hr : r ∈ (ofGraphs v1 v2 ops).rekeys) :
    (∃ n ∈ v1.nodes, n.id = r.v1 ∧ n.kind = .method) ∧
      ∃ n ∈ v2.nodes, n.id = r.v2 ∧ n.kind = .method := by
  have hv := (admissible_rekeys h1 h2 ops).valid r hr
  constructor
  · obtain ⟨e, he, hek, hei⟩ := hv.old
    obtain ⟨n, hn, hni, hnk⟩ := h1.isIndexOf.mem_nodes e he
    exact ⟨n, hn, hni.trans hei, congrArg EntityKey.kind (hnk.trans hek)⟩
  · obtain ⟨d, hd, hdk, hdi⟩ := hv.new
    obtain ⟨n, hn, hni, hnk⟩ := h2.isIndexOf.mem_nodes d hd
    exact ⟨n, hn, hni.trans hdi, congrArg EntityKey.kind (hnk.trans hdk)⟩

end Effect

/-- Operations join methods that would be deleted with methods that would be added, and change
nothing else. -/
theorem rekeyEffect_ofGraphs (h1 : v1.WellFormed) (h2 : v2.WellFormed) (ops : List Operation) :
    RekeyEffect v1 v2 (ofGraphs v1 v2 []) (ofGraphs v1 v2 ops) := by
  have hc := coherent_ofGraphs h1 h2 ops
  have hc₀ := coherent_ofGraphs h1 h2 []
  have hpair : ∀ r ∈ (ofGraphs v1 v2 ops).rekeys, Pair.ofRekey r ∈ (ofGraphs v1 v2 ops).pairs :=
    fun r hr => (mem_pairs_iff h1 h2).mpr (.inl ⟨r, hr, rfl⟩)
  refine
    { mapping := fun a b => ?_
      disjoint := fun r hr hab => ?_
      older := fun r hr => ⟨(methods_of_mem_rekeys h1 h2 ops hr).1, ?_, ?_⟩
      newer := fun r hr => ⟨(methods_of_mem_rekeys h1 h2 ops hr).2, ?_, ?_⟩
      others1 := fun a s hne => ?_
      others2 := fun b s hne => ?_
      fewerDeleted := (counts_eq_of_ops h1 h2 ops).1
      fewerAdded := (counts_eq_of_ops h1 h2 ops).2
      moreModified := ?_
      sameUnchanged := ?_ }
  · rw [mem_mapping_iff, mem_mapping_iff]
    simp only [mem_pairs_iff_of_ops h1 h2 ops, or_and_right, exists_or]
    refine or_congr_right ⟨?_, ?_⟩
    · rintro ⟨_, ⟨r, hr, rfl⟩, h1, h2⟩
      exact ⟨r, hr, h1, h2⟩
    · rintro ⟨r, hr, h1, h2⟩
      exact ⟨_, ⟨r, hr, rfl⟩, h1, h2⟩
  · obtain ⟨p, hp, hp1, -⟩ := mem_mapping_iff.mp hab
    exact (unpaired_of_mem_rekeys h1 h2 ops hr).1 (List.mem_map.mpr ⟨p, hp, hp1⟩)
  · exact mem_statuses1_iff.mpr ⟨hc.mem1 _ (hpair r hr),
      status1_of_not_mem (unpaired_of_mem_rekeys h1 h2 ops hr).1⟩
  · exact mem_statuses1_iff.mpr ⟨hc.mem1 _ (hpair r hr), hc.status1_of_mem (hpair r hr)⟩
  · exact mem_statuses2_iff.mpr ⟨hc.mem2 _ (hpair r hr),
      status2_of_not_mem (unpaired_of_mem_rekeys h1 h2 ops hr).2⟩
  · exact mem_statuses2_iff.mpr ⟨hc.mem2 _ (hpair r hr), hc.status2_of_mem (hpair r hr)⟩
  · rw [mem_statuses1_iff, mem_statuses1_iff, status1, status1,
      pairOf1?_eq_of_forall_ne h1 h2 ops hne]
    rfl
  · rw [mem_statuses2_iff, mem_statuses2_iff, status2, status2,
      pairOf2?_eq_of_forall_ne h1 h2 ops hne]
    rfl
  · rw [hc.counts_eq, hc₀.counts_eq]
    exact count_status_eq h1 h2 ops .modified
  · rw [hc.counts_eq, hc₀.counts_eq]
    exact count_status_eq h1 h2 ops .unchanged

section Sample
open Lineage.Graph (ofMethods)

theorem rekeyEffect_renameAt :
    (ofMethods [("foo", 3), ("bar", 7)]).WellFormed ∧ (ofMethods [("baz", 3), ("bar", 7)]).WellFormed ∧
      (ofGraphs (ofMethods [("foo", 3), ("bar", 7)]) (ofMethods [("baz", 3), ("bar", 7)])
        [.renameAt 3]).rekeys.length = 1 ∧
      RekeyEffect (ofMethods [("foo", 3), ("bar", 7)]) (ofMethods [("baz", 3), ("bar", 7)])
        (ofGraphs (ofMethods [("foo", 3), ("bar", 7)]) (ofMethods [("baz", 3), ("bar", 7)]) [])
        (ofGraphs (ofMethods [("foo", 3), ("bar", 7)]) (ofMethods [("baz", 3), ("bar", 7)])
          [.renameAt 3]) := by
  have h1 := (Graph.parsed_ofMethods [("foo", 3), ("bar", 7)]).toWellFormed
  have h2 := (Graph.parsed_ofMethods [("baz", 3), ("bar", 7)]).toWellFormed
  exact ⟨h1, h2, by decide +kernel, rekeyEffect_ofGraphs h1 h2 [.renameAt 3]⟩

end Sample

end Graphs

end Lineage.Matching
