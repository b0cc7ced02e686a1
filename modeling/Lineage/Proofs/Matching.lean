import Lineage.Proofs.Rekey
/-! # Matchings are one-to-one

An entity of the older version is paired with the method that an accepted rekey leads it to, or else
with the entity of the same key. So each entity is in at most one pair, and pairs and unpaired
entities account for every status. Main statements: `mem_pairs_iff`, `coherent_ofGraphs`,
`counts_eq`.
-/
namespace Lineage

open Refactoring (Operation)
open Index (ofGraph)

def Pair.ofEntities (old new : Entity) : Pair :=
  ⟨old.id, new.id, if old.node.fingerprint = new.node.fingerprint then .unchanged else .modified⟩

def Pair.ofRekey (r : Rekey) : Pair := ⟨r.v1, r.v2, .modified⟩

/-- The signature is part of a method's fingerprint. -/
theorem Node.fingerprint_ne_of_key_ne {n m : Node} {s t : String} (hn : n.key = ⟨.method, s⟩)
    (hm : m.key = ⟨.method, t⟩) (h : s ≠ t) : n.fingerprint ≠ m.fingerprint := by
  simp only [key, EntityKey.mk.injEq] at hn hm
  obtain ⟨hnk, hnt⟩ := hn
  obtain ⟨hmk, hmt⟩ := hm
  simp only [keyText, hnk] at hnt
  simp only [keyText, hmk] at hmt
  intro he
  simp only [fingerprint, hnk, hmk, Fingerprint.mk.injEq, List.cons.injEq, true_and] at he
  exact h (hnt.symm.trans ((Option.some.inj he.2.1).trans hmt))

namespace Matching

section SearchKeys
variable {v1 v2 : Graph} (h1 : v1.WellFormed) (h2 : v2.WellFormed)
variable {rs : List Rekey} {k : EntityKey} {i : NodeId}

theorem lookup_searchKeys_append (x2 : Index) (rs : List Rekey) (r : Rekey) (k : EntityKey) :
    (searchKeys x2 (rs ++ [r])).lookup k =
      if k = r.older then some r.v2
      else if k = r.newer then none else (searchKeys x2 rs).lookup k := by
  have hs : searchKeys x2 (rs ++ [r]) = (r.older, r.v2) :: (searchKeys x2 rs).filter
      fun e => decide (e.1 ≠ r.newer) && decide (e.1 ≠ r.older) := List.foldl_append
  rw [hs, lookup_cons_eq_ite,
    lookup_filter_key fun j => decide (j ≠ r.newer) && decide (j ≠ r.older)]
  by_cases ho : k = r.older
  · rw [if_pos ho, if_pos ho]
  · rw [if_neg ho, if_neg ho]
    by_cases hn : k = r.newer <;> simp [hn, ho]

include h1

/-- The old key of a rekey leads to the newer method; the new key leads nowhere; all else is as in
the newer version. -/
theorem lookup_searchKeys_eq_some_iff (ha : Rekey.Admissible (ofGraph v1) (ofGraph v2) rs) :
    (searchKeys (ofGraph v2) rs).lookup k = some i ↔
      (∃ r ∈ rs, r.older = k ∧ r.v2 = i) ∨
        ((∀ r ∈ rs, r.newer ≠ k) ∧ (ofGraph v2).lookup? k = some i) := by
  induction rs using List.reverseRecOn with
  | nil =>
    rw [searchKeys, List.foldl_nil, lookup_map_key]
    simp [Index.lookup?, Index.find?]
  | append_singleton rs r ih =>
    have hr : r ∈ rs ++ [r] := List.mem_append_right _ List.mem_cons_self
    have hrs : ∀ s ∈ rs, s ∈ rs ++ [r] := fun s hs => List.mem_append_left _ hs
    have hv := ha.valid r hr
    rw [lookup_searchKeys_append]
    by_cases ho : k = r.older
    · subst ho
      rw [if_pos rfl, Option.some.injEq]
      constructor
      · exact fun he => .inl ⟨r, hr, rfl, he⟩
      · rintro (⟨s, hs, hso, rfl⟩ | ⟨-, hl⟩)
        · rw [ha.eq_of_older_eq h1 hs hr hso]
        · obtain ⟨e, he⟩ := Option.map_eq_some_iff.mp hl
          exact absurd (by simpa using List.find?_some he.1)
            (hv.gone e (List.mem_of_find?_eq_some he.1))
    rw [if_neg ho]
    by_cases hn : k = r.newer
    · subst hn
      rw [if_pos rfl]
      constructor
      · intro he
        cases he
      · rintro (⟨s, hs, hso, -⟩ | ⟨hne, -⟩)
        · exact absurd hso ((ha.valid s hs).older_ne_newer hv)
        · exact absurd rfl (hne r hr)
    · rw [if_neg hn, ih (ha.left)]
      simp only [List.mem_append, List.mem_singleton, or_and_right, exists_or, exists_eq_left,
        or_imp, forall_and, forall_eq, Ne.symm ho, Ne.symm hn, false_and, or_false, not_false_eq_true,
        and_true, ne_eq]

end SearchKeys

theorem rekeys_ofGraphs_nil (v1 v2 : Graph) : (ofGraphs v1 v2 []).rekeys = [] := by
  simp [ofGraphs, Rekey.candidates, Rekey.select]

theorem pair?_eq_some_iff {x2 : Index} {keys : List (EntityKey × NodeId)} {old : Entity} {p : Pair} :
    pair? x2 keys old = some p ↔ ∃ i n, keys.lookup old.node.key = some i ∧ x2.node? i = some n ∧
      ⟨old.id, i, if old.node.fingerprint = n.fingerprint then .unchanged else .modified⟩ = p := by
  simp only [pair?, bind, Option.bind_eq_some_iff, pure, Option.some.injEq, exists_and_left]

section Pairs
variable {v1 v2 : Graph} (h1 : v1.WellFormed) (h2 : v2.WellFormed)
variable {ops : List Operation} {p q : Pair}

include h1 h2

theorem admissible_rekeys (ops : List Operation) :
    Rekey.Admissible (ofGraph v1) (ofGraph v2) (ofGraphs v1 v2 ops).rekeys :=
  Rekey.admissible_select h1 h2 ops

/-- A rekeyed method has another signature, so it counts as modified. -/
theorem ofEntities_eq_ofRekey {r : Rekey} (hr : r.Valid (ofGraph v1) (ofGraph v2)) {old new : Entity}
    (hold : old ∈ (ofGraph v1).entities) (hnew : new ∈ (ofGraph v2).entities)
    (ho : old.key = r.older ∧ old.id = r.v1) (hn : new.key = r.newer ∧ new.id = r.v2) :
    Pair.ofEntities old new = .ofRekey r := by
  have hne : r.oldKey ≠ r.newKey := fun h =>
    hr.older_ne_newer hr (by rw [Rekey.older, Rekey.newer, h])
  have hf := Node.fingerprint_ne_of_key_ne ((h1.isIndexOf.key_node old hold).trans ho.1)
    ((h2.isIndexOf.key_node new hnew).trans hn.1) hne
  rw [Pair.ofEntities, Pair.ofRekey, if_neg hf, ho.2, hn.2]

theorem mem_pairs_iff :
    p ∈ (ofGraphs v1 v2 ops).pairs ↔
      (∃ r ∈ (ofGraphs v1 v2 ops).rekeys, .ofRekey r = p) ∨
        ∃ old ∈ (ofGraph v1).entities, ∃ new ∈ (ofGraph v2).entities,
          old.key = new.key ∧ .ofEntities old new = p := by
  have ha := admissible_rekeys h1 h2 ops
  have hp : (ofGraphs v1 v2 ops).pairs = (ofGraph v1).entities.filterMap
      (pair? (ofGraph v2) (searchKeys (ofGraph v2) (ofGraphs v1 v2 ops).rekeys)) := rfl
  rw [hp, List.mem_filterMap]
  simp only [pair?_eq_some_iff, lookup_searchKeys_eq_some_iff h1 ha, h2.node?_eq_some_iff,
    h2.lookup?_eq_some_iff]
  constructor
  · rintro ⟨old, hold, i, n, hl, ⟨new, hnew, rfl, rfl⟩, rfl⟩
    rw [h1.isIndexOf.key_node old hold] at hl
    rcases hl with ⟨r, hr, hk, hi⟩ | ⟨-, d, hd, hk, hi⟩
    · obtain ⟨e, he, hek, hei⟩ := (ha.valid r hr).old
      obtain ⟨d, hd, hdk, hdi⟩ := (ha.valid r hr).new
      obtain rfl := h1.entity_eq_of_key he hold (hek.trans hk)
      obtain rfl := h2.entity_eq_of_id hd hnew (hdi.trans hi)
      exact .inl ⟨r, hr,
        (ofEntities_eq_ofRekey h1 h2 (ha.valid r hr) he hd ⟨hek, hei⟩ ⟨hdk, hdi⟩).symm⟩
    · obtain rfl := h2.entity_eq_of_id hd hnew hi
      exact .inr ⟨old, hold, d, hd, hk.symm, rfl⟩
  · rintro (⟨r, hr, rfl⟩ | ⟨old, hold, new, hnew, hk, rfl⟩)
    · obtain ⟨e, he, hek, hei⟩ := (ha.valid r hr).old
      obtain ⟨d, hd, hdk, hdi⟩ := (ha.valid r hr).new
      exact ⟨e, he, d.id, d.node,
        .inl ⟨r, hr, hek.symm.trans (h1.isIndexOf.key_node e he).symm, hdi.symm⟩, ⟨d, hd, rfl, rfl⟩,
        ofEntities_eq_ofRekey h1 h2 (ha.valid r hr) he hd ⟨hek, hei⟩ ⟨hdk, hdi⟩⟩
    · -- No rekey leads away from an entity that both versions have.
      have hnewer : ∀ r ∈ (ofGraphs v1 v2 ops).rekeys, r.newer ≠ old.node.key := fun r hr h =>
        (ha.valid r hr).unknown old hold ((h1.isIndexOf.key_node old hold).symm.trans h.symm)
      exact ⟨old, hold, new.id, new.node,
        .inr ⟨hnewer, new, hnew, by rw [h1.isIndexOf.key_node old hold, hk], rfl⟩,
        ⟨new, hnew, rfl, rfl⟩, rfl⟩

theorem entities_of_mem_pairs (hp : p ∈ (ofGraphs v1 v2 ops).pairs) :
    ∃ old ∈ (ofGraph v1).entities, ∃ new ∈ (ofGraph v2).entities,
      p = .ofEntities old new ∧ old.key.kind = new.key.kind := by
  rcases (mem_pairs_iff h1 h2).mp hp with ⟨r, hr, rfl⟩ | ⟨old, hold, new, hnew, hk, rfl⟩
  · have hv := (admissible_rekeys h1 h2 ops).valid r hr
    obtain ⟨e, he, hek, hei⟩ := hv.old
    obtain ⟨d, hd, hdk, hdi⟩ := hv.new
    exact ⟨e, he, d, hd, (ofEntities_eq_ofRekey h1 h2 hv he hd ⟨hek, hei⟩ ⟨hdk, hdi⟩).symm,
      by rw [hek, hdk]; rfl⟩
  · exact ⟨old, hold, new, hnew, rfl, by rw [hk]⟩

/-- No two entities of the older version are paired with one of the newer version: the rekeys do not
share methods, and the method of a rekey has a key that the older version does not know. -/
theorem pair_eq_of_v2_eq (hp : p ∈ (ofGraphs v1 v2 ops).pairs) (hq : q ∈ (ofGraphs v1 v2 ops).pairs)
    (h : p.v2 = q.v2) : p = q := by
  have ha := admissible_rekeys h1 h2 ops
  have hmix : ∀ r ∈ (ofGraphs v1 v2 ops).rekeys, ∀ old ∈ (ofGraph v1).entities,
      ∀ new ∈ (ofGraph v2).entities, old.key = new.key → new.id ≠ r.v2 := by
    intro r hr old hold new hnew hk hi
    obtain ⟨d, hd, hdk, hdi⟩ := (ha.valid r hr).new
    obtain rfl := h2.entity_eq_of_id hnew hd (hi.trans hdi.symm)
    exact (ha.valid r hr).unknown old hold (hk.trans hdk)
  rcases (mem_pairs_iff h1 h2).mp hp with ⟨r, hr, rfl⟩ | ⟨old, hold, new, hnew, hk, rfl⟩
  · rcases (mem_pairs_iff h1 h2).mp hq with ⟨s, hs, rfl⟩ | ⟨old, hold, new, hnew, hk, rfl⟩
    · rw [List.inj_on_of_nodup_map ha.disjoint.2 hr hs h]
    · exact absurd h.symm (hmix r hr old hold new hnew hk)
  · rcases (mem_pairs_iff h1 h2).mp hq with ⟨s, hs, rfl⟩ | ⟨old', hold', new', hnew', hk', rfl⟩
    · exact absurd h (hmix s hs old hold new hnew hk)
    · obtain rfl := h2.entity_eq_of_id hnew hnew' h
      obtain rfl := h1.entity_eq_of_key hold hold' (hk.trans hk'.symm)
      rfl

end Pairs

/-! ## One-to-one matchings -/

def forward? (m : Matching) (v1 : NodeId) : Option NodeId := (m.pairOf1? v1).map (·.v2)

def backward? (m : Matching) (v2 : NodeId) : Option NodeId := (m.pairOf2? v2).map (·.v1)

/-- Each entity is in at most one pair, and pairs tell whether their entities are changed. -/
structure Coherent (m : Matching) : Prop where
  ids1 : m.index1.ids.Nodup
  ids2 : m.index2.ids.Nodup
  nodup1 : (m.pairs.map (·.v1)).Nodup
  nodup2 : (m.pairs.map (·.v2)).Nodup
  mem1 : ∀ p ∈ m.pairs, p.v1 ∈ m.index1.ids
  mem2 : ∀ p ∈ m.pairs, p.v2 ∈ m.index2.ids
  status : ∀ p ∈ m.pairs, p.status = .unchanged ∨ p.status = .modified

theorem map_v1_sublist (x2 : Index) (keys : List (EntityKey × NodeId)) (es : List Entity) :
    ((es.filterMap (pair? x2 keys)).map (·.v1)).Sublist (es.map (·.id)) := by
  refine map_filterMap_sublist (fun e p hp => ?_) es
  obtain ⟨i, n, -, -, rfl⟩ := pair?_eq_some_iff.mp hp
  rfl

theorem coherent_ofGraphs {v1 v2 : Graph} (h1 : v1.WellFormed) (h2 : v2.WellFormed)
    (ops : List Operation) : Coherent (ofGraphs v1 v2 ops) where
  ids1 := h1.ids_nodup
  ids2 := h2.ids_nodup
  nodup1 := h1.ids_nodup.sublist (map_v1_sublist _ _ _)
  nodup2 :=
    List.Nodup.map_on (fun _ hp _ hq h => pair_eq_of_v2_eq h1 h2 hp hq h)
      ((h1.ids_nodup.sublist (map_v1_sublist _ _ _)).of_map _)
  mem1 p hp := (map_v1_sublist _ _ _).subset (List.mem_map_of_mem hp)
  mem2 p hp := by
    obtain ⟨_, _, new, hnew, rfl, -⟩ := entities_of_mem_pairs h1 h2 hp
    exact List.mem_map_of_mem hnew
  status p hp := by
    obtain ⟨old, _, new, _, rfl, -⟩ := entities_of_mem_pairs h1 h2 hp
    unfold Pair.ofEntities
    split
    · exact .inl rfl
    · exact .inr rfl

section Unpaired
variable {m : Matching} {a b : NodeId}

theorem pairOf1?_eq_none_iff : m.pairOf1? a = none ↔ a ∉ m.pairs.map (·.v1) := find?_key_eq_none_iff

theorem pairOf2?_eq_none_iff : m.pairOf2? b = none ↔ b ∉ m.pairs.map (·.v2) := by
  rw [pairOf2?, find?_key_eq_none_iff, List.map_reverse, List.mem_reverse]

theorem status1_of_not_mem (ha : a ∉ m.pairs.map (·.v1)) : m.status1 a = .deleted := by
  rw [status1, pairOf1?_eq_none_iff.mpr ha]
  rfl

theorem status2_of_not_mem (hb : b ∉ m.pairs.map (·.v2)) : m.status2 b = .added := by
  rw [status2, pairOf2?_eq_none_iff.mpr hb]
  rfl

end Unpaired

namespace Coherent

variable {m : Matching} (h : Coherent m) {a b : NodeId} {p : Pair}
include h

theorem subset1 : m.pairs.map (·.v1) ⊆ m.index1.ids := by
  intro a ha
  obtain ⟨p, hp, rfl⟩ := List.mem_map.mp ha
  exact h.mem1 p hp

theorem subset2 : m.pairs.map (·.v2) ⊆ m.index2.ids := by
  intro b hb
  obtain ⟨p, hp, rfl⟩ := List.mem_map.mp hb
  exact h.mem2 p hp

theorem pairOf1?_eq_some_iff : m.pairOf1? a = some p ↔ p ∈ m.pairs ∧ p.v1 = a :=
  find?_key_eq_some_iff h.nodup1

theorem pairOf2?_eq_some_iff : m.pairOf2? b = some p ↔ p ∈ m.pairs ∧ p.v2 = b := by
  have hr : (m.pairs.reverse.map (·.v2)).Nodup := by
    rw [List.map_reverse]
    exact List.nodup_reverse.mpr h.nodup2
  rw [pairOf2?, find?_key_eq_some_iff hr, List.mem_reverse]

theorem forward?_eq_some_iff : m.forward? a = some b ↔ ∃ p ∈ m.pairs, p.v1 = a ∧ p.v2 = b := by
  simp only [forward?, Option.map_eq_some_iff, h.pairOf1?_eq_some_iff, and_assoc]

theorem backward?_eq_some_iff : m.backward? b = some a ↔ ∃ p ∈ m.pairs, p.v2 = b ∧ p.v1 = a := by
  simp only [backward?, Option.map_eq_some_iff, h.pairOf2?_eq_some_iff, and_assoc]

theorem forward?_eq_some_iff_backward? : m.forward? a = some b ↔ m.backward? b = some a := by
  rw [h.forward?_eq_some_iff, h.backward?_eq_some_iff]
  simp only [and_comm]

theorem status1_of_mem (hp : p ∈ m.pairs) : m.status1 p.v1 = p.status := by
  rw [status1, h.pairOf1?_eq_some_iff.mpr ⟨hp, rfl⟩]
  rfl

theorem status2_of_mem (hp : p ∈ m.pairs) : m.status2 p.v2 = p.status := by
  rw [status2, h.pairOf2?_eq_some_iff.mpr ⟨hp, rfl⟩]
  rfl

/-- The older version's statuses are those of the pairs, and deletions of all other entities. -/
theorem statuses1_perm :
    (m.statuses1.map (·.2)).Perm (m.pairs.map (·.status) ++
      List.replicate (m.index1.size - m.pairs.length) .deleted) := by
  have hsplit := perm_append_filter h.ids1 h.nodup1 h.subset1
  have hs : m.statuses1.map (·.2) = m.index1.ids.map m.status1 := by
    rw [statuses1, List.map_map]
    rfl
  have hpaired : (m.pairs.map (·.v1)).map m.status1 = m.pairs.map (·.status) := by
    rw [List.map_map]
    exact List.map_congr_left fun p hp => h.status1_of_mem hp
  have hrest : (m.index1.ids.filter (· ∉ m.pairs.map (·.v1))).map m.status1 =
      List.replicate (m.index1.size - m.pairs.length) .deleted := by
    rw [List.eq_replicate_iff, List.length_map,
      length_filter_not_mem h.ids1 h.nodup1 h.subset1]
    refine ⟨by simp [Index.ids, Index.size], fun s hs => ?_⟩
    obtain ⟨a, ha, rfl⟩ := List.mem_map.mp hs
    exact status1_of_not_mem (by simpa using (List.mem_filter.mp ha).2)
  rw [hs, ← hpaired, ← hrest, ← List.map_append]
  exact hsplit.map m.status1

/-- The newer version's entities without a pair are added. -/
theorem unpaired2_eq :
    (m.statuses2.filter fun e => (m.pairOf2? e.1).isNone).map (·.2) =
      List.replicate (m.index2.size - m.pairs.length) .added := by
  have hf : (m.statuses2.filter fun e => (m.pairOf2? e.1).isNone).map (·.2) =
      (m.index2.ids.filter (· ∉ m.pairs.map (·.v2))).map m.status2 := by
    rw [statuses2, List.filter_map, List.map_map]
    congr 1
    refine List.filter_congr fun b _ => ?_
    rw [Bool.eq_iff_iff, Function.comp_apply, Option.isNone_iff_eq_none, pairOf2?_eq_none_iff,
      decide_eq_true_eq]
  rw [hf, List.eq_replicate_iff, List.length_map,
    length_filter_not_mem h.ids2 h.nodup2 h.subset2]
  refine ⟨by simp [Index.ids, Index.size], fun s hs => ?_⟩
  obtain ⟨b, hb, rfl⟩ := List.mem_map.mp hs
  exact status2_of_not_mem (by simpa using (List.mem_filter.mp hb).2)

theorem length_pairs_le1 : m.pairs.length ≤ m.index1.size := by
  have hl := h.nodup1.length_le_of_subset h.subset1
  simpa [Index.ids, Index.size] using hl

theorem length_pairs_le2 : m.pairs.length ≤ m.index2.size := by
  have hl := h.nodup2.length_le_of_subset h.subset2
  simpa [Index.ids, Index.size] using hl

theorem counts_eq :
    m.counts =
      { unchanged := (m.pairs.map (·.status)).count .unchanged
        modified := (m.pairs.map (·.status)).count .modified
        added := m.index2.size - m.pairs.length
        deleted := m.index1.size - m.pairs.length } := by
  have hno : ∀ s : Status, s ≠ .unchanged → s ≠ .modified → (m.pairs.map (·.status)).count s = 0 := by
    intro s hu hm
    rw [List.count_eq_zero]
    intro hs
    obtain ⟨p, hp, rfl⟩ := List.mem_map.mp hs
    exact (h.status p hp).elim hu hm
  simp [counts, StatusCounts.ofStatuses, h.unpaired2_eq, h.statuses1_perm.count_eq,
    List.count_append, List.count_replicate, hno]

theorem unchanged_add_modified : m.counts.unchanged + m.counts.modified = m.pairs.length := by
  rw [h.counts_eq]
  have hs := h.status
  generalize m.pairs = ps at hs
  induction ps with
  | nil => rfl
  | cons p ps ih =>
    have hps := ih fun q hq => hs q (List.mem_cons_of_mem _ hq)
    simp only [List.map_cons, List.count_cons, List.length_cons] at hps ⊢
    rcases hs p List.mem_cons_self with hp | hp <;> simp [hp] <;> omega

end Coherent

end Matching

end Lineage
