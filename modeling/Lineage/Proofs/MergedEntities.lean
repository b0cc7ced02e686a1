import Lineage.Proofs.Merge
/-! # Merged nodes by entity

What the node of an entity in a merged graph says about the two versions: whether it occurs in
either, under which key it went before, and what became of it. Main statements:
`mem_keys_nodes_iff`, `mem_keys_run_iff`, `attests_run`.
-/
namespace Lineage

open Refactoring (Operation)
open Index (ofGraph)

/-- The key that a node had before it was renamed. -/
def Node.formerKey? (n : Node) : Option EntityKey :=
  (n.metadatum Meta.renamedFrom).map (EntityKey.mk n.kind)

/-- The canonical node of an entity, with what its collisions add to it. -/
def Graph.folded? (g : Graph) (k : EntityKey) : Option Node := ((ofGraph g).find? k).map (·.node)

/-- What becomes of an entity that keeps its key. -/
def fate (older newer : Graph) (k : EntityKey) : Status :=
  match older.folded? k, newer.folded? k with
  | _, none => .deleted
  | none, some _ => .added
  | some old, some new => if old.fingerprint = new.fingerprint then .unchanged else .modified

def Matching.Renames (m : Matching) (k : EntityKey) : Prop := ∃ r ∈ m.rekeys, r.newer = k

instance (m : Matching) (k : EntityKey) : Decidable (m.Renames k) :=
  inferInstanceAs (Decidable (∃ r ∈ m.rekeys, r.newer = k))

namespace Graph.WellFormed
variable {g : Graph} (h : g.WellFormed) {k : EntityKey} {n : Node}
include h

theorem folded?_eq_some_iff :
    g.folded? k = some n ↔ ∃ e ∈ (ofGraph g).entities, e.key = k ∧ e.node = n := by
  simp only [folded?, Option.map_eq_some_iff, h.find?_eq_some_iff, and_assoc]

theorem folded?_eq_none_iff : g.folded? k = none ↔ k ∉ g.keys := by
  rw [folded?, Option.map_eq_none_iff, Index.find?, find?_key_eq_none_iff, h.mem_keys_iff]
  simp only [List.mem_map]

theorem mem_keys_of_folded? (hn : g.folded? k = some n) : k ∈ g.keys := by
  by_contra hk
  rw [h.folded?_eq_none_iff.mpr hk] at hn
  cases hn

theorem exists_folded? (hk : k ∈ g.keys) : ∃ n, g.folded? k = some n := by
  rw [← Option.ne_none_iff_exists']
  exact fun hn => h.folded?_eq_none_iff.mp hn hk

theorem key_mem {e : Entity} (he : e ∈ (ofGraph g).entities) : e.key ∈ g.keys :=
  h.mem_keys_iff.mpr ⟨e, he, rfl⟩

theorem fate_ne_deleted_iff (v1 : Graph) : fate v1 g k ≠ .deleted ↔ k ∈ g.keys := by
  unfold fate
  cases hn : g.folded? k with
  | none =>
    have hk := h.folded?_eq_none_iff.mp hn
    cases v1.folded? k <;> simp [hk]
  | some new =>
    have hk := h.mem_keys_of_folded? hn
    cases v1.folded? k with
    | none => simp [hk]
    | some old =>
      dsimp only
      split <;> simp [hk]

end Graph.WellFormed

namespace Merge

/-- What a merged node says of its entity. -/
structure Attests (span : Span) (v1 v2 : Graph) (m : Matching) (n : Node) : Prop where
  versions : ∀ v, v ∈ n.versions ↔
    (v = span.older.id ∧ (n.key ∈ v1.keys ∨ m.Renames n.key)) ∨
      (v = span.newer.id ∧ n.key ∈ v2.keys)
  first : n.firstVersion =
    some (if n.key ∈ v1.keys ∨ m.Renames n.key then span.older.id else span.newer.id)
  last : n.lastVersion = some (if n.key ∈ v2.keys then span.newer.id else span.older.id)
  status : n.status = some (if m.Renames n.key then .modified else fate v1 v2 n.key)
  former : ∀ k, n.formerKey? = some k ↔ ∃ r ∈ m.rekeys, r.newer = n.key ∧ r.older = k

theorem Attests.renumber {span : Span} {v1 v2 : Graph} {m : Matching} {n : Node}
    (h : Attests span v1 v2 m n) (i : NodeId) : Attests span v1 v2 m (n.renumber i) :=
  ⟨h.versions, h.first, h.last, h.status, h.former⟩

theorem Attests.status_ne_deleted_iff {span : Span} {v1 v2 : Graph} {m : Matching} {n : Node}
    (h : Attests span v1 v2 m n) (h2 : v2.WellFormed) (hm : ∀ k, m.Renames k → k ∈ v2.keys) :
    n.status ≠ some .deleted ↔ n.key ∈ v2.keys := by
  rw [h.status]
  split
  · rename_i hren
    simp [hm n.key hren]
  · rw [ne_eq, Option.some.injEq]
    exact h2.fate_ne_deleted_iff v1

section Keys
variable {v1 v2 : Graph} (h1 : v1.WellFormed) (h2 : v2.WellFormed)
variable {ops : List Operation} {span : Span} {k : EntityKey}

include h1 h2

/-- The old and the new key of a rekey lead to its pair. -/
theorem mem_of_mem_rekeys {r : Rekey} (hr : r ∈ (Matching.ofGraphs v1 v2 ops).rekeys) :
    ∃ old ∈ (ofGraph v1).entities, ∃ new ∈ (ofGraph v2).entities,
      old.key = r.older ∧ new.key = r.newer ∧ old.id = r.v1 ∧ new.id = r.v2 ∧
        .ofEntities old new ∈ (Matching.ofGraphs v1 v2 ops).pairs := by
  have hv := (Matching.admissible_rekeys h1 h2 ops).valid r hr
  obtain ⟨old, hold, ho, hoi⟩ := hv.old
  obtain ⟨new, hnew, hn, hni⟩ := hv.new
  refine ⟨old, hold, new, hnew, ho, hn, hoi, hni, ?_⟩
  rw [Matching.ofEntities_eq_ofRekey h1 h2 hv hold hnew ⟨ho, hoi⟩ ⟨hn, hni⟩]
  exact (Matching.mem_pairs_iff h1 h2).mpr (.inl ⟨r, hr, rfl⟩)

theorem rekey_or_key_eq {old new : Entity} (hold : old ∈ (ofGraph v1).entities)
    (hnew : new ∈ (ofGraph v2).entities)
    (hp : .ofEntities old new ∈ (Matching.ofGraphs v1 v2 ops).pairs) :
    (∃ r ∈ (Matching.ofGraphs v1 v2 ops).rekeys, r.older = old.key ∧ r.newer = new.key) ∨
      old.key = new.key := by
  rcases (Matching.mem_pairs_iff h1 h2).mp hp with ⟨r, hr, he⟩ | ⟨old', hold', new', hnew', hk, he⟩
  · obtain ⟨e, he1, d, hd, hek, hdk, hei, hdi, -⟩ := mem_of_mem_rekeys h1 h2 hr
    obtain rfl := h1.entity_eq_of_id he1 hold (hei.trans (congrArg Pair.v1 he))
    obtain rfl := h2.entity_eq_of_id hd hnew (hdi.trans (congrArg Pair.v2 he))
    exact .inl ⟨r, hr, hek.symm, hdk.symm⟩
  · obtain rfl := h1.entity_eq_of_id hold' hold (congrArg Pair.v1 he)
    obtain rfl := h2.entity_eq_of_id hnew' hnew (congrArg Pair.v2 he)
    exact .inr hk

theorem older_not_mem {r : Rekey} (hr : r ∈ (Matching.ofGraphs v1 v2 ops).rekeys) :
    r.older ∉ v2.keys := by
  intro hk
  obtain ⟨e, he, hek⟩ := h2.mem_keys_iff.mp hk
  exact ((Matching.admissible_rekeys h1 h2 ops).valid r hr).gone e he hek

theorem newer_not_mem {r : Rekey} (hr : r ∈ (Matching.ofGraphs v1 v2 ops).rekeys) :
    r.newer ∉ v1.keys := by
  intro hk
  obtain ⟨e, he, hek⟩ := h1.mem_keys_iff.mp hk
  exact ((Matching.admissible_rekeys h1 h2 ops).valid r hr).unknown e he hek

/-- Every entity of the newer version has a merged node, paired or not. -/
theorem newer_mem_keys_nodes {new : Entity} (hnew : new ∈ (ofGraph v2).entities) :
    new.key ∈ (nodes span (.ofGraphs v1 v2 ops)).map (·.node.key) := by
  have hkey : new.node.key = new.key := h2.isIndexOf.key_node new hnew
  by_cases hp : new.id ∈ (Matching.ofGraphs v1 v2 ops).pairs.map (·.v2)
  · obtain ⟨p, hmem, hpi⟩ := List.mem_map.mp hp
    obtain ⟨old, hold, new', hnew', rfl, -⟩ := Matching.entities_of_mem_pairs h1 h2 hmem
    obtain rfl := h2.entity_eq_of_id hnew' hnew hpi
    have hn : _ ∈ nodes span _ := (mem_nodes_iff h1 h2).mpr (.kept hold hnew hmem)
    exact List.mem_map.mpr ⟨_, hn, key_kept.trans hkey⟩
  · have hn : _ ∈ nodes span _ := (mem_nodes_iff h1 h2).mpr (.fresh hnew hp)
    exact List.mem_map.mpr ⟨_, hn, key_fresh.trans hkey⟩

theorem mem_keys_nodes_iff :
    k ∈ (nodes span (.ofGraphs v1 v2 ops)).map (·.node.key) ↔
      (k ∈ v1.keys ∨ k ∈ v2.keys) ∧ ∀ r ∈ (Matching.ofGraphs v1 v2 ops).rekeys, r.older ≠ k := by
  have key1 : ∀ e ∈ (ofGraph v1).entities, e.node.key = e.key := h1.isIndexOf.key_node
  have key2 : ∀ e ∈ (ofGraph v2).entities, e.node.key = e.key := h2.isIndexOf.key_node
  constructor
  · intro hk
    obtain ⟨n, hn, rfl⟩ := List.mem_map.mp hk
    cases (mem_nodes_iff h1 h2).mp hn with
    | @kept old new hold hnew hp =>
      rw [key_kept, key2 new hnew]
      exact ⟨.inr (h2.key_mem hnew), fun r hr he => older_not_mem h1 h2 hr (he ▸ h2.key_mem hnew)⟩
    | @gone old hold hp =>
      rw [key_gone, key1 old hold]
      refine ⟨.inl (h1.key_mem hold), fun r hr he => ?_⟩
      obtain ⟨e, he', d, -, hek, -, -, -, hpair⟩ := mem_of_mem_rekeys h1 h2 hr
      obtain rfl := h1.entity_eq_of_key he' hold (hek.trans he)
      exact hp (List.mem_map_of_mem hpair)
    | @fresh new hnew hp =>
      rw [key_fresh, key2 new hnew]
      exact ⟨.inr (h2.key_mem hnew), fun r hr he => older_not_mem h1 h2 hr (he ▸ h2.key_mem hnew)⟩
  · rintro ⟨hk | hk, hr⟩
    · obtain ⟨old, hold, rfl⟩ := h1.mem_keys_iff.mp hk
      by_cases hp : old.id ∈ (Matching.ofGraphs v1 v2 ops).pairs.map (·.v1)
      · obtain ⟨p, hmem, hpi⟩ := List.mem_map.mp hp
        obtain ⟨old', hold', new, hnew, rfl, -⟩ := Matching.entities_of_mem_pairs h1 h2 hmem
        obtain rfl := h1.entity_eq_of_id hold' hold hpi
        rcases rekey_or_key_eq h1 h2 hold hnew hmem with ⟨r, hrm, ho, -⟩ | he
        · exact absurd ho (hr r hrm)
        · exact he ▸ newer_mem_keys_nodes h1 h2 hnew
      · have hn : _ ∈ nodes span _ := (mem_nodes_iff h1 h2).mpr (.gone hold hp)
        exact List.mem_map.mpr ⟨_, hn, key_gone.trans (key1 _ hold)⟩
    · obtain ⟨new, hnew, rfl⟩ := h2.mem_keys_iff.mp hk
      exact newer_mem_keys_nodes h1 h2 hnew

/-- The newer method of a rekey is known by its number as well as by its key. -/
theorem v2_eq_iff_newer_eq {r : Rekey} (hr : r ∈ (Matching.ofGraphs v1 v2 ops).rekeys)
    {new : Entity} (hnew : new ∈ (ofGraph v2).entities) : r.v2 = new.id ↔ r.newer = new.key := by
  obtain ⟨-, -, d, hd, -, hdk, -, hdi, -⟩ := mem_of_mem_rekeys h1 h2 hr
  constructor
  · intro hi
    rw [← hdk, h2.entity_eq_of_id hd hnew (hdi.trans hi)]
  · intro hk
    rw [← hdi, h2.entity_eq_of_key hd hnew (hdk.trans hk)]

theorem rekeyOf2?_eq_some_iff {r : Rekey} {new : Entity} (hnew : new ∈ (ofGraph v2).entities) :
    (Matching.ofGraphs v1 v2 ops).rekeyOf2? new.id = some r ↔
      r ∈ (Matching.ofGraphs v1 v2 ops).rekeys ∧ r.newer = new.key := by
  rw [Matching.rekeyOf2?, find?_key_eq_some_iff (Matching.admissible_rekeys h1 h2 ops).disjoint.2]
  exact and_congr_right fun hr => v2_eq_iff_newer_eq h1 h2 hr hnew

/-- A pair of a rekey is modified, and a pair of one key is what the fingerprints say. -/
theorem status_ofEntities {old new : Entity} (hold : old ∈ (ofGraph v1).entities)
    (hnew : new ∈ (ofGraph v2).entities)
    (hp : .ofEntities old new ∈ (Matching.ofGraphs v1 v2 ops).pairs) :
    (Pair.ofEntities old new).status =
      if (Matching.ofGraphs v1 v2 ops).Renames new.key then .modified else fate v1 v2 new.key := by
  split
  · rename_i hren
    obtain ⟨r, hr, hn⟩ := hren
    have ha := Matching.admissible_rekeys h1 h2 ops
    have hrp : Pair.ofRekey r ∈ (Matching.ofGraphs v1 v2 ops).pairs :=
      (Matching.mem_pairs_iff h1 h2).mpr (.inl ⟨r, hr, rfl⟩)
    have hv : (Pair.ofEntities old new).v2 = (Pair.ofRekey r).v2 :=
      ((v2_eq_iff_newer_eq h1 h2 hr hnew).mpr hn).symm
    rw [Matching.pair_eq_of_v2_eq h1 h2 hp hrp hv]
    rfl
  · rename_i hren
    rcases rekey_or_key_eq h1 h2 hold hnew hp with ⟨r, hr, -, hn⟩ | hk
    · exact absurd ⟨r, hr, hn⟩ hren
    · have ho : v1.folded? new.key = some old.node :=
        h1.folded?_eq_some_iff.mpr ⟨old, hold, hk, rfl⟩
      have hn : v2.folded? new.key = some new.node :=
        h2.folded?_eq_some_iff.mpr ⟨new, hnew, rfl, rfl⟩
      simp only [fate, ho, hn, Pair.ofEntities]

end Keys

section Attests
variable {v1 v2 : Graph} (h1 : v1.Parsed) (h2 : v2.Parsed)
variable {ops : List Operation} {span : Span} {n : MergedNode}

include h1 h2

theorem attests_kept {old new : Entity} (hold : old ∈ (ofGraph v1).entities)
    (hnew : new ∈ (ofGraph v2).entities)
    (hp : .ofEntities old new ∈ (Matching.ofGraphs v1 v2 ops).pairs) :
    Attests span v1 v2 (.ofGraphs v1 v2 ops)
      (kept span (.ofGraphs v1 v2 ops) old.node new.node (.ofEntities old new)) := by
  have hu1 := Index.unversioned_ofGraph h1 old hold
  have hu2 := Index.unversioned_ofGraph h2 new hnew
  have hkey : (kept span (.ofGraphs v1 v2 ops) old.node new.node (.ofEntities old new)).key =
      new.key := key_kept.trans (h2.isIndexOf.key_node new hnew)
  have hpast : new.key ∈ v1.keys ∨ (Matching.ofGraphs v1 v2 ops).Renames new.key := by
    rcases rekey_or_key_eq h1.toWellFormed h2.toWellFormed hold hnew hp with ⟨r, hr, -, hn⟩ | hk
    · exact .inr ⟨r, hr, hn⟩
    · exact .inl (hk ▸ h1.key_mem hold)
  refine ⟨fun v => ?_, ?_, ?_, ?_, fun k => ?_⟩
  · rw [hkey]
    simp only [kept, hu1.versions, hu2.versions, TextSet.mem_insert, TextSet.mem_union,
      TextSet.not_mem_empty, or_false, hpast, h2.key_mem hnew, and_true]
    exact or_comm
  · rw [hkey, if_pos hpast]
    simp only [kept, hu1.firstVersion]
    rfl
  · rw [hkey, if_pos (h2.key_mem hnew)]
    rfl
  · rw [hkey, ← status_ofEntities h1.toWellFormed h2.toWellFormed hold hnew hp]
    rfl
  · have hr : (kept span (.ofGraphs v1 v2 ops) old.node new.node (.ofEntities old new)).metadatum
        Meta.renamedFrom = ((Matching.ofGraphs v1 v2 ops).rekeyOf2? new.id).map (·.oldKey) :=
      renamedFrom_kept hu2.renamedFrom
    have hkind : ∀ r : Rekey, r.newer = new.key → EntityKey.mk new.node.kind r.oldKey = r.older := by
      intro r hn
      have hk : new.node.kind = .method :=
        congrArg EntityKey.kind ((h2.isIndexOf.key_node new hnew).trans hn.symm)
      rw [hk]
      rfl
    rw [Node.formerKey?, hr, hkey, Option.map_map, Option.map_eq_some_iff]
    constructor
    · rintro ⟨r, hrk, rfl⟩
      obtain ⟨hmem, hn⟩ := (rekeyOf2?_eq_some_iff h1.toWellFormed h2.toWellFormed hnew).mp hrk
      exact ⟨r, hmem, hn, (hkind r hn).symm⟩
    · rintro ⟨r, hmem, hn, rfl⟩
      exact ⟨r, (rekeyOf2?_eq_some_iff h1.toWellFormed h2.toWellFormed hnew).mpr ⟨hmem, hn⟩,
        hkind r hn⟩

theorem attests_gone {old : Entity} (hold : old ∈ (ofGraph v1).entities)
    (hp : old.id ∉ (Matching.ofGraphs v1 v2 ops).pairs.map (·.v1)) :
    Attests span v1 v2 (.ofGraphs v1 v2 ops) (gone span old.node) := by
  have hu := Index.unversioned_ofGraph h1 old hold
  have hkey : (gone span old.node).key = old.key := key_gone.trans (h1.isIndexOf.key_node old hold)
  have hold1 := h1.key_mem hold
  have hnew : old.key ∉ v2.keys := by
    intro hk
    obtain ⟨new, hn, he⟩ := h2.mem_keys_iff.mp hk
    exact hp (paired_of_key_eq h1.toWellFormed h2.toWellFormed hold hn he.symm).1
  have hren : ¬(Matching.ofGraphs v1 v2 ops).Renames old.key := by
    rintro ⟨r, hr, hn⟩
    exact newer_not_mem h1.toWellFormed h2.toWellFormed hr (hn ▸ hold1)
  refine ⟨fun v => ?_, ?_, ?_, ?_, fun k => ?_⟩
  · rw [hkey]
    simp [gone, Node.stamp, hu.versions, hold1, hnew]
  · rw [hkey, if_pos (.inl hold1)]
    simp only [gone, Node.stamp, hu.firstVersion]
    rfl
  · rw [hkey, if_neg hnew]
    rfl
  · have hf : v2.folded? old.key = none := h2.folded?_eq_none_iff.mpr hnew
    rw [hkey, if_neg hren, fate, hf]
    cases v1.folded? old.key <;> rfl
  · rw [hkey]
    have hf : (gone span old.node).formerKey? = none :=
      Option.map_eq_none_iff.mpr hu.renamedFrom
    rw [hf]
    exact ⟨nofun, fun ⟨r, hr, hn, _⟩ => absurd ⟨r, hr, hn⟩ hren⟩

theorem attests_fresh {new : Entity} (hnew : new ∈ (ofGraph v2).entities)
    (hp : new.id ∉ (Matching.ofGraphs v1 v2 ops).pairs.map (·.v2)) :
    Attests span v1 v2 (.ofGraphs v1 v2 ops) (fresh span new.node) := by
  have hu := Index.unversioned_ofGraph h2 new hnew
  have hkey : (fresh span new.node).key = new.key :=
    key_fresh.trans (h2.isIndexOf.key_node new hnew)
  have hnew2 := h2.key_mem hnew
  have hold : new.key ∉ v1.keys := by
    intro hk
    obtain ⟨old, ho, he⟩ := h1.mem_keys_iff.mp hk
    exact hp (paired_of_key_eq h1.toWellFormed h2.toWellFormed ho hnew he).2
  have hren : ¬(Matching.ofGraphs v1 v2 ops).Renames new.key := by
    rintro ⟨r, hr, hn⟩
    obtain ⟨e, -, d, hd, -, hdk, -, -, hpair⟩ :=
      mem_of_mem_rekeys h1.toWellFormed h2.toWellFormed hr
    obtain rfl := h2.entity_eq_of_key hd hnew (hdk.trans hn)
    exact hp (List.mem_map_of_mem hpair)
  refine ⟨fun v => ?_, ?_, ?_, ?_, fun k => ?_⟩
  · rw [hkey]
    simp [fresh, Node.stamp, hu.versions, hold, hnew2, hren]
  · rw [hkey, if_neg (not_or.mpr ⟨hold, hren⟩)]
    simp only [fresh, Node.stamp, hu.firstVersion]
    rfl
  · rw [hkey, if_pos hnew2]
    rfl
  · have hf1 : v1.folded? new.key = none := h1.folded?_eq_none_iff.mpr hold
    have hf2 : v2.folded? new.key = some new.node :=
      h2.folded?_eq_some_iff.mpr ⟨new, hnew, rfl, rfl⟩
    rw [hkey, if_neg hren, fate, hf1, hf2]
    rfl
  · rw [hkey]
    have hf : (fresh span new.node).formerKey? = none :=
      Option.map_eq_none_iff.mpr hu.renamedFrom
    rw [hf]
    exact ⟨nofun, fun ⟨r, hr, hn, _⟩ => absurd ⟨r, hr, hn⟩ hren⟩

theorem Arises.attests (hn : Arises span (.ofGraphs v1 v2 ops) n) :
    Attests span v1 v2 (.ofGraphs v1 v2 ops) n.node := by
  cases hn with
  | kept hold hnew hp => exact attests_kept h1 h2 hold hnew hp
  | gone hold hp => exact attests_gone h1 h2 hold hp
  | fresh hnew hp => exact attests_fresh h1 h2 hnew hp

end Attests

section Run
variable {v1 v2 : Graph} (h1 : v1.Parsed) (h2 : v2.Parsed)
variable {detector : String} {ops : List Operation} {span : Span}

theorem keys_run : (run detector v1 v2 (.ofGraphs v1 v2 ops) ops span).1.graph.keys =
    (nodes span (.ofGraphs v1 v2 ops)).map (·.node.key) :=
  map_nodes_run (fun _ _ => rfl) detector v1 v2 _ ops span

include h1 h2

theorem keys_nodup_run :
    (run detector v1 v2 (.ofGraphs v1 v2 ops) ops span).1.graph.keys.Nodup := by
  rw [keys_run]
  exact keys_nodup_nodes h1.toWellFormed h2.toWellFormed

theorem mem_keys_run_iff {k : EntityKey} :
    k ∈ (run detector v1 v2 (.ofGraphs v1 v2 ops) ops span).1.graph.keys ↔
      (k ∈ v1.keys ∨ k ∈ v2.keys) ∧ ∀ r ∈ (Matching.ofGraphs v1 v2 ops).rekeys, r.older ≠ k := by
  rw [keys_run]
  exact mem_keys_nodes_iff h1.toWellFormed h2.toWellFormed

theorem attests_run {n : Node}
    (hn : n ∈ (run detector v1 v2 (.ofGraphs v1 v2 ops) ops span).1.graph.nodes) :
    Attests span v1 v2 (.ofGraphs v1 v2 ops) n := by
  rw [nodes_run, List.mem_mapIdx] at hn
  obtain ⟨i, hi, rfl⟩ := hn
  have harises := (mem_nodes_iff h1.toWellFormed h2.toWellFormed).mp (List.getElem_mem hi)
  exact (harises.attests h1 h2).renumber _

end Run

end Merge

end Lineage
