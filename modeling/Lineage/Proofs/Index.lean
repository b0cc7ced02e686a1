import Lineage.Proofs.Graph
import Mathlib.Data.List.Induction
/-! # The index of a version

Indexing forms the classes of nodes that stand for one entity: each class goes by its first node, which
takes over what it lacks from the others, and looking an entity up in the index finds what a search
through the nodes finds. Main statements: `isIndexOf_ofNodes`, `forall_node_ofNodes`,
`find?_ofNodes`.
-/
namespace Lineage.Entity

/-- The entity after one more node that stands for it. -/
def grow (n : Node) : Option Entity → Entity
  | some e => { e with node := e.node.absorb n }
  | none => ⟨n.key, n.id, n⟩

/-- The entity that the nodes of a key make: the first takes over what it lacks from the rest. -/
def ofClass? (k : EntityKey) : List Node → Option Entity
  | [] => none
  | first :: rest => some ⟨k, first.id, rest.foldl Node.absorb first⟩

theorem ofClass?_snoc (ns : List Node) (n : Node) :
    ofClass? n.key (ns ++ [n]) = some (grow n (ofClass? n.key ns)) := by
  cases ns with
  | nil => rfl
  | cons first rest => simp [ofClass?, grow]

end Lineage.Entity

namespace Lineage.Index

structure IsIndexOf (x : Index) (ns : List Node) : Prop where
  lookup? : ∀ k, x.lookup? k = (ns.find? (·.key = k)).map (·.id)
  canonical? : ∀ n ∈ ns, x.canonical? n.id = x.lookup? n.key
  ids : x.ids = (ns.filter fun n => (ns.find? (·.key = n.key)).map (·.id) = some n.id).map (·.id)
  keys_nodup : (x.entities.map (·.key)).Nodup
  key_node : ∀ e ∈ x.entities, e.node.key = e.key
  mem_nodes : ∀ e ∈ x.entities, ∃ n ∈ ns, n.id = e.id ∧ n.key = e.key
  collisions : ∀ c ∈ x.collisions, ∃ n ∈ ns, n.id = c.id

section Insert
variable {x : Index} {n : Node} {first : Entity}

/-- An entity after a collision with its canonical node or with that of another entity. -/
def take (first : Entity) (n : Node) (e : Entity) : Entity :=
  if e.id = first.id then { e with node := e.node.absorb n } else e

@[simp] theorem key_take (e : Entity) : (take first n e).key = e.key := by
  unfold take; split <;> rfl

@[simp] theorem id_take (e : Entity) : (take first n e).id = e.id := by
  unfold take; split <;> rfl

theorem find?_map_take (es : List Entity) (k : EntityKey) :
    (es.map (take first n)).find? (·.key = k) = (es.find? (·.key = k)).map (take first n) := by
  have hkeys : ((fun e : Entity => decide (e.key = k)) ∘ take first n) =
      fun e : Entity => decide (e.key = k) := by
    funext e
    simp
  rw [List.find?_map, hkeys]

theorem insert_of_find?_eq_some (h : x.find? n.key = some first) :
    x.insert n = ⟨x.entities.map (take first n), x.collisions ++ [⟨n.key, n.id, first.id⟩]⟩ := by
  simp only [insert, h]
  rfl

theorem insert_of_find?_eq_none (h : x.find? n.key = none) :
    x.insert n = { x with entities := x.entities ++ [⟨n.key, n.id, n⟩] } := by
  simp only [insert, h]

theorem lookup?_insert (k : EntityKey) :
    (x.insert n).lookup? k = (x.lookup? k).or (if n.key = k then some n.id else none) := by
  cases h : x.find? n.key with
  | some first =>
    have hf : (x.find? k).isSome ∨ n.key ≠ k := by
      by_cases hk : n.key = k
      · exact .inl (by rw [← hk, h]; rfl)
      · exact .inr hk
    have hid : (fun e : Entity => e.id) ∘ take first n = fun e : Entity => e.id := by
      funext e; simp
    have hl : (x.insert n).lookup? k = x.lookup? k := by
      rw [insert_of_find?_eq_some h, lookup?, find?, find?_map_take, Option.map_map, hid]
      rfl
    rw [hl]
    rcases hf with hs | hne
    · exact (Option.or_of_isSome (by rw [lookup?, Option.isSome_map]; exact hs)).symm
    · rw [if_neg hne, Option.or_none]
  | none =>
    rw [insert_of_find?_eq_none h, lookup?, lookup?, find?, find?, List.find?_append, Option.map_or]
    congr 1
    by_cases hk : n.key = k <;> simp [hk]

theorem ids_insert :
    (x.insert n).ids = if (x.lookup? n.key).isSome then x.ids else x.ids ++ [n.id] := by
  cases h : x.find? n.key with
  | some first =>
    rw [insert_of_find?_eq_some h, if_pos (by simp [lookup?, h]), ids, ids, List.map_map]
    congr 1
    funext e; simp
  | none =>
    rw [insert_of_find?_eq_none h, if_neg (by simp [lookup?, h]), ids, ids, List.map_append]
    rfl

theorem mem_entities_insert {e : Entity} (he : e ∈ (x.insert n).entities) :
    (∃ d ∈ x.entities, e.key = d.key ∧ e.id = d.id ∧
      (e.node = d.node ∨ e.node = d.node.absorb n)) ∨ e = ⟨n.key, n.id, n⟩ := by
  cases h : x.find? n.key with
  | some first =>
    rw [insert_of_find?_eq_some h] at he
    obtain ⟨d, hd, rfl⟩ := List.mem_map.mp he
    refine .inl ⟨d, hd, key_take d, id_take d, ?_⟩
    unfold take
    split
    · exact .inr rfl
    · exact .inl rfl
  | none =>
    rw [insert_of_find?_eq_none h] at he
    rcases List.mem_append.mp he with hd | hn
    · exact .inl ⟨e, hd, rfl, rfl, .inl rfl⟩
    · exact .inr (List.mem_singleton.mp hn)

theorem exists_mem_insert {e : Entity} (he : e ∈ x.entities) :
    ∃ e' ∈ (x.insert n).entities, e'.id = e.id ∧ e'.key = e.key := by
  cases h : x.find? n.key with
  | some first =>
    rw [insert_of_find?_eq_some h]
    exact ⟨take first n e, List.mem_map_of_mem he, id_take e, key_take e⟩
  | none =>
    rw [insert_of_find?_eq_none h]
    exact ⟨e, List.mem_append_left _ he, rfl, rfl⟩

theorem mem_collisions_insert {c : Collision} (hc : c ∈ (x.insert n).collisions) :
    c ∈ x.collisions ∨ ∃ first ∈ x.entities, first.key = n.key ∧ c = ⟨n.key, n.id, first.id⟩ := by
  cases h : x.find? n.key with
  | some first =>
    rw [insert_of_find?_eq_some h] at hc
    rcases List.mem_append.mp hc with hc | hc
    · exact .inl hc
    · have hkey : first.key = n.key := by simpa using List.find?_some h
      exact .inr ⟨first, List.mem_of_find?_eq_some h, hkey, List.mem_singleton.mp hc⟩
  | none =>
    rw [insert_of_find?_eq_none h] at hc
    exact .inl hc

theorem keys_nodup_insert (hd : (x.entities.map (·.key)).Nodup) :
    ((x.insert n).entities.map (·.key)).Nodup := by
  cases h : x.find? n.key with
  | some first =>
    have hkey : (fun e : Entity => e.key) ∘ take first n = fun e : Entity => e.key := by
      funext e
      exact key_take e
    rw [insert_of_find?_eq_some h, List.map_map, hkey]
    exact hd
  | none =>
    have hk : n.key ∉ x.entities.map (·.key) := find?_key_eq_none_iff.mp h
    rw [insert_of_find?_eq_none h, List.map_append]
    exact hd.append (List.nodup_singleton _) (by simpa using hk)

theorem find?_insert_self : (x.insert n).find? n.key = some (Entity.grow n (x.find? n.key)) := by
  cases h : x.find? n.key with
  | none =>
    rw [insert_of_find?_eq_none h, find?, List.find?_append]
    rw [find?] at h
    simp [h, Entity.grow]
  | some first =>
    rw [insert_of_find?_eq_some h, find?, find?_map_take]
    rw [find?] at h
    rw [h, Option.map_some, take, if_pos rfl]
    rfl

theorem find?_insert_of_ne (hd : x.ids.Nodup) {k : EntityKey} (hk : n.key ≠ k) :
    (x.insert n).find? k = x.find? k := by
  cases h : x.find? n.key with
  | none =>
    rw [insert_of_find?_eq_none h, find?, find?, List.find?_append]
    simp [hk]
  | some first =>
    have hfirst : first ∈ x.entities := List.mem_of_find?_eq_some h
    have hkey : first.key = n.key := by simpa using List.find?_some h
    rw [insert_of_find?_eq_some h, find?, find?, find?_map_take]
    cases he : x.entities.find? (·.key = k) with
    | none => rfl
    | some e =>
      have hek : e.key = k := by simpa using List.find?_some he
      have hne : e.id ≠ first.id := by
        intro hid
        have hsame := List.inj_on_of_nodup_map hd (List.mem_of_find?_eq_some he) hfirst hid
        exact hk (by rw [← hkey, ← hsame, hek])
      rw [Option.map_some, take, if_neg hne]

end Insert

theorem canonical?_eq (x : Index) (i : NodeId) :
    x.canonical? i =
      if i ∈ x.ids then some i else (x.collisions.find? (·.id = i)).map (·.canonical) := by
  unfold canonical? ids
  congr 1
  simp

namespace IsIndexOf

variable {x : Index} {ns : List Node} {n : Node}

protected theorem empty : IsIndexOf .empty [] where
  lookup? _ := rfl
  canonical? _ h := nomatch h
  ids := rfl
  keys_nodup := .nil
  key_node _ h := nomatch h
  mem_nodes _ h := nomatch h
  collisions _ h := nomatch h

theorem lookup?_isSome_iff (h : IsIndexOf x ns) {k : EntityKey} :
    (x.lookup? k).isSome ↔ k ∈ ns.map Node.key := by
  rw [h.lookup? k, Option.isSome_map, List.find?_isSome]
  simp

theorem mem_of_mem_ids (h : IsIndexOf x ns) {i : NodeId} (hi : i ∈ x.ids) : i ∈ ns.map (·.id) := by
  obtain ⟨e, he, rfl⟩ := List.mem_map.mp hi
  obtain ⟨n, hn, hid, -⟩ := h.mem_nodes e he
  exact List.mem_map.mpr ⟨n, hn, hid⟩

theorem isSome_canonical?_iff (h : IsIndexOf x ns) {i : NodeId} :
    (x.canonical? i).isSome ↔ i ∈ ns.map (·.id) := by
  constructor
  · intro hi
    rw [canonical?_eq] at hi
    split at hi
    · rename_i hmem
      exact h.mem_of_mem_ids hmem
    · rw [Option.isSome_map, List.find?_isSome] at hi
      obtain ⟨d, hd, hdi⟩ := hi
      obtain ⟨m, hm, hmi⟩ := h.collisions d hd
      exact List.mem_map.mpr ⟨m, hm, hmi.trans (by simpa using hdi)⟩
  · intro hi
    obtain ⟨n, hn, rfl⟩ := List.mem_map.mp hi
    rw [h.canonical? n hn, h.lookup?_isSome_iff]
    exact List.mem_map_of_mem hn

theorem ids_nodup (h : IsIndexOf x ns) (hd : (ns.map (·.id)).Nodup) : x.ids.Nodup := by
  rw [h.ids]
  exact hd.sublist (List.filter_sublist.map _)

/-- What a node of the version goes by does not depend on the nodes after it. -/
theorem canonical?_insert_of_mem (h : IsIndexOf x ns) {m : Node} (hm : m ∈ ns)
    (hn : n.id ∉ ns.map (·.id)) : (x.insert n).canonical? m.id = x.canonical? m.id := by
  have hne : m.id ≠ n.id := fun e => hn (e ▸ List.mem_map_of_mem hm)
  have hsome : (x.canonical? m.id).isSome := by
    rw [h.canonical? m hm, h.lookup?_isSome_iff]
    exact List.mem_map_of_mem hm
  rw [canonical?_eq] at hsome ⊢
  rw [canonical?_eq, ids_insert]
  cases hf : x.find? n.key with
  | some first =>
    rw [if_pos (c := (x.lookup? n.key).isSome) (by rw [Index.lookup?, hf]; rfl),
      insert_of_find?_eq_some hf]
    by_cases hi : m.id ∈ x.ids
    · rw [if_pos hi, if_pos hi]
    · rw [if_neg hi, Option.isSome_map] at hsome
      rw [if_neg hi, if_neg hi, List.find?_append, Option.or_of_isSome hsome]
  | none =>
    rw [if_neg (c := (x.lookup? n.key).isSome) (by rw [Index.lookup?, hf]; exact Bool.false_ne_true),
      insert_of_find?_eq_none hf]
    simp only [List.mem_append, List.mem_singleton, hne, or_false]

theorem canonical?_insert_self (h : IsIndexOf x ns) (hn : n.id ∉ ns.map (·.id)) :
    (x.insert n).canonical? n.id = (x.insert n).lookup? n.key := by
  have hids : n.id ∉ x.ids := fun hi => hn (h.mem_of_mem_ids hi)
  have hcol : x.collisions.find? (·.id = n.id) = none := by
    rw [List.find?_eq_none]
    intro c hc he
    obtain ⟨m, hm, hid⟩ := h.collisions c hc
    exact hn (List.mem_map.mpr ⟨m, hm, hid.trans (by simpa using he)⟩)
  rw [lookup?_insert, if_pos rfl, canonical?_eq, ids_insert]
  cases hf : x.find? n.key with
  | some first =>
    rw [Index.lookup?, hf, Option.map_some, Option.isSome_some, if_pos rfl, if_neg hids,
      insert_of_find?_eq_some hf, List.find?_append, hcol]
    simp
  | none =>
    rw [Index.lookup?, hf, Option.map_none]
    simp

/-- One more node keeps the invariant: it is new, and fields are typed so that the node it collides
with keeps its key. -/
theorem insert (h : IsIndexOf x ns) (hn : n.id ∉ ns.map (·.id))
    (ht : ∀ e ∈ x.entities, e.node.Typed) : IsIndexOf (x.insert n) (ns ++ [n]) where
  lookup? k := by
    rw [lookup?_insert, h.lookup? k, List.find?_append, Option.map_or]
    congr 1
    by_cases hk : n.key = k <;> simp [hk]
  canonical? m hm := by
    rcases List.mem_append.mp hm with hm | hm
    · rw [h.canonical?_insert_of_mem hm hn, h.canonical? m hm, lookup?_insert]
      exact (Option.or_of_isSome (h.lookup?_isSome_iff.mpr (List.mem_map_of_mem hm))).symm
    · rw [List.mem_singleton.mp hm]
      exact h.canonical?_insert_self hn
  ids := by
    have hold : ∀ m ∈ ns, (ns ++ [n]).find? (·.key = m.key) = ns.find? (·.key = m.key) := by
      intro m hm
      rw [List.find?_append, Option.or_of_isSome]
      exact List.find?_isSome.mpr ⟨m, hm, by simp⟩
    have hfilter : ns.filter (fun m => ((ns ++ [n]).find? (·.key = m.key)).map (·.id) = some m.id) =
        ns.filter fun m => (ns.find? (·.key = m.key)).map (·.id) = some m.id :=
      List.filter_congr fun m hm => by rw [hold m hm]
    rw [ids_insert, List.filter_append, List.map_append, hfilter, ← h.ids]
    rw [h.lookup? n.key, Option.isSome_map]
    cases hf : ns.find? (·.key = n.key) with
    | none => simp [List.find?_append, hf]
    | some m =>
      have hne : m.id ≠ n.id := fun e => hn (e ▸ List.mem_map_of_mem (List.mem_of_find?_eq_some hf))
      simp [List.find?_append, hf, hne]
  keys_nodup := keys_nodup_insert h.keys_nodup
  key_node e he := by
    rcases mem_entities_insert he with ⟨d, hd, hk, -, hnode⟩ | rfl
    · rw [hk, ← h.key_node d hd]
      rcases hnode with hnode | hnode
      · rw [hnode]
      · rw [hnode, (ht d hd).key_absorb n]
    · rfl
  mem_nodes e he := by
    rcases mem_entities_insert he with ⟨d, hd, hk, hi, -⟩ | rfl
    · obtain ⟨m, hm, hmi, hmk⟩ := h.mem_nodes d hd
      exact ⟨m, List.mem_append_left _ hm, hmi.trans hi.symm, hmk.trans hk.symm⟩
    · exact ⟨n, List.mem_append_right _ List.mem_cons_self, rfl, rfl⟩
  collisions c hc := by
    rcases mem_collisions_insert hc with hc | ⟨_, -, -, rfl⟩
    · obtain ⟨m, hm, hmi⟩ := h.collisions c hc
      exact ⟨m, List.mem_append_left _ hm, hmi⟩
    · exact ⟨n, List.mem_append_right _ List.mem_cons_self, rfl⟩

end IsIndexOf

theorem ofNodes_snoc (ns : List Node) (n : Node) : ofNodes (ns ++ [n]) = (ofNodes ns).insert n :=
  List.foldl_append

/-- What holds of all nodes of a version and is kept when one takes over from another holds of the
canonical nodes with what their collisions add to them. -/
theorem forall_node_ofNodes {P : Node → Prop} (hP : ∀ a b, P a → P b → P (a.absorb b))
    {ns : List Node} (h : ∀ n ∈ ns, P n) : ∀ e ∈ (ofNodes ns).entities, P e.node := by
  induction ns using List.reverseRecOn with
  | nil => exact fun _ he => nomatch he
  | append_singleton ns n ih =>
    have hold := ih fun m hm => h m (List.mem_append_left _ hm)
    have hn := h n (List.mem_append_right _ List.mem_cons_self)
    intro e he
    rw [ofNodes_snoc] at he
    rcases mem_entities_insert he with ⟨d, hd, -, -, hnode | hnode⟩ | rfl
    · exact hnode ▸ hold d hd
    · exact hnode ▸ hP d.node n (hold d hd) hn
    · exact hn

theorem isIndexOf_ofNodes {ns : List Node} (hd : (ns.map (·.id)).Nodup)
    (ht : ∀ n ∈ ns, n.Typed) : IsIndexOf (ofNodes ns) ns := by
  induction ns using List.reverseRecOn with
  | nil => exact .empty
  | append_singleton ns n ih =>
    rw [List.map_append] at hd
    obtain ⟨hns, -, hdisj⟩ := List.nodup_append.mp hd
    have htyped : ∀ m ∈ ns, m.Typed := fun m hm => ht m (List.mem_append_left _ hm)
    have hn : n.id ∉ ns.map (·.id) := fun hi => hdisj _ hi _ List.mem_cons_self rfl
    rw [ofNodes_snoc]
    exact (ih hns htyped).insert hn (forall_node_ofNodes (fun _ b ha _ => ha.absorb b) htyped)

/-! What holds without types: every node goes by one of the canonical nodes. -/

theorem entities_ofNodes {ns : List Node} (h : (ns.map Node.key).Nodup) :
    (ofNodes ns).entities = ns.map fun n => ⟨n.key, n.id, n⟩ := by
  induction ns using List.reverseRecOn with
  | nil => rfl
  | append_singleton ns n ih =>
    rw [List.map_append] at h
    obtain ⟨hns, -, hdisj⟩ := List.nodup_append.mp h
    have hentities := ih hns
    have hnew : (ofNodes ns).find? n.key = none := by
      rw [find?, find?_key_eq_none_iff, hentities, List.map_map]
      exact fun hk => hdisj _ hk _ List.mem_cons_self rfl
    rw [ofNodes_snoc, insert_of_find?_eq_none hnew, hentities, List.map_append]
    rfl

theorem ids_sublist (ns : List Node) : (ofNodes ns).ids.Sublist (ns.map (·.id)) := by
  induction ns using List.reverseRecOn with
  | nil => exact .slnil
  | append_singleton ns n ih =>
    rw [ofNodes_snoc, ids_insert, List.map_append]
    split
    · exact ih.trans (List.sublist_append_left _ _)
    · exact ih.append (List.Sublist.refl _)

theorem covered_ofNodes (ns : List Node) :
    (∀ n ∈ ns, n.id ∈ (ofNodes ns).ids ∨ n.id ∈ (ofNodes ns).collisions.map (·.id)) ∧
      ∀ c ∈ (ofNodes ns).collisions, c.canonical ∈ (ofNodes ns).ids := by
  induction ns using List.reverseRecOn with
  | nil => exact ⟨fun n hn => absurd hn List.not_mem_nil, fun c hc => absurd hc List.not_mem_nil⟩
  | append_singleton ns n ih =>
    obtain ⟨hnodes, hcollisions⟩ := ih
    rw [ofNodes_snoc, ids_insert]
    cases hf : (ofNodes ns).find? n.key with
    | some first =>
      have hfirst : first.id ∈ (ofNodes ns).ids :=
        List.mem_map_of_mem (List.mem_of_find?_eq_some hf)
      rw [if_pos (by simp [lookup?, hf]), insert_of_find?_eq_some hf]
      refine ⟨fun m hm => ?_, fun c hc => ?_⟩
      · rw [List.map_append]
        rcases List.mem_append.mp hm with hm | hm
        · exact (hnodes m hm).imp id (List.mem_append_left _)
        · rw [List.mem_singleton.mp hm]
          exact .inr (List.mem_append_right _ List.mem_cons_self)
      · rcases List.mem_append.mp hc with hc | hc
        · exact hcollisions c hc
        · rw [List.mem_singleton.mp hc]
          exact hfirst
    | none =>
      rw [if_neg (by simp [lookup?, hf]), insert_of_find?_eq_none hf]
      refine ⟨fun m hm => ?_, fun c hc => List.mem_append_left _ (hcollisions c hc)⟩
      rcases List.mem_append.mp hm with hm | hm
      · exact (hnodes m hm).imp (List.mem_append_left _) id
      · rw [List.mem_singleton.mp hm]
        exact .inl (List.mem_append_right _ List.mem_cons_self)

theorem exists_canonical? {ns : List Node} {n : Node} (hn : n ∈ ns) :
    ∃ i ∈ (ofNodes ns).ids, (ofNodes ns).canonical? n.id = some i := by
  obtain ⟨hnodes, hcollisions⟩ := covered_ofNodes ns
  rw [canonical?_eq]
  by_cases hi : n.id ∈ (ofNodes ns).ids
  · exact ⟨n.id, hi, if_pos hi⟩
  · obtain ⟨c, hc, hcn⟩ := List.mem_map.mp ((hnodes n hn).resolve_left hi)
    have hsome : ((ofNodes ns).collisions.find? (·.id = n.id)).isSome :=
      List.find?_isSome.mpr ⟨c, hc, by simpa using hcn⟩
    obtain ⟨d, hd⟩ := Option.isSome_iff_exists.mp hsome
    refine ⟨d.canonical, hcollisions d (List.mem_of_find?_eq_some hd), ?_⟩
    rw [if_neg hi, hd]
    rfl

theorem mem_ids_of_canonical? {ns : List Node} {i c : NodeId}
    (h : (ofNodes ns).canonical? i = some c) : c ∈ (ofNodes ns).ids := by
  rw [canonical?_eq] at h
  split at h
  · rename_i hi
    exact Option.some.inj h ▸ hi
  · obtain ⟨d, hd, rfl⟩ := Option.map_eq_some_iff.mp h
    exact (covered_ofNodes ns).2 d (List.mem_of_find?_eq_some hd)

theorem node?_ofNodes {ns : List Node} (hd : (ns.map (·.id)).Nodup) {e : Entity}
    (he : e ∈ (ofNodes ns).entities) : (ofNodes ns).node? e.id = some e.node := by
  have hfind := (find?_key_eq_some_iff (f := Entity.id) (hd.sublist (ids_sublist ns))).mpr ⟨he, rfl⟩
  rw [node?, hfind]
  rfl

/-- What entities and collisions keep of the nodes they come from, typed or not. -/
structure DerivedFrom (x : Index) (ns : List Node) : Prop where
  kind : ∀ e ∈ x.entities, e.node.kind = e.key.kind
  entities : ∀ e ∈ x.entities, ∃ n ∈ ns, n.id = e.id ∧ n.key = e.key
  collisions : ∀ c ∈ x.collisions, ∃ n ∈ ns, n.id = c.id ∧ n.key = c.key
  canonical : ∀ c ∈ x.collisions, ∃ e ∈ x.entities, e.id = c.canonical ∧ e.key = c.key

theorem DerivedFrom.insert {x : Index} {ns : List Node} (h : x.DerivedFrom ns) (n : Node) :
    (x.insert n).DerivedFrom (ns ++ [n]) := by
  have hold : ∀ {i : NodeId} {k : EntityKey}, (∃ m ∈ ns, m.id = i ∧ m.key = k) →
      ∃ m ∈ ns ++ [n], m.id = i ∧ m.key = k :=
    fun ⟨m, hm, he⟩ => ⟨m, List.mem_append_left _ hm, he⟩
  have hself : ∃ m ∈ ns ++ [n], m.id = n.id ∧ m.key = n.key :=
    ⟨n, List.mem_append_right _ List.mem_cons_self, rfl, rfl⟩
  constructor
  · intro e he
    rcases mem_entities_insert he with ⟨d, hd, hk, -, hnode⟩ | rfl
    · rw [hk, ← h.kind d hd]
      rcases hnode with hnode | hnode
      · rw [hnode]
      · rw [hnode, Node.kind_absorb]
    · rfl
  · intro e he
    rcases mem_entities_insert he with ⟨d, hd, hk, hi, -⟩ | rfl
    · rw [hk, hi]
      exact hold (h.entities d hd)
    · exact hself
  · intro c hc
    rcases mem_collisions_insert hc with hc | ⟨_, -, -, rfl⟩
    · exact hold (h.collisions c hc)
    · exact hself
  · intro c hc
    rcases mem_collisions_insert hc with hc | ⟨first, hfirst, hk, rfl⟩
    · obtain ⟨e, he, hi, hk⟩ := h.canonical c hc
      obtain ⟨e', he', hi', hk'⟩ := exists_mem_insert (n := n) he
      exact ⟨e', he', hi'.trans hi, hk'.trans hk⟩
    · obtain ⟨e', he', hi', hk'⟩ := exists_mem_insert (n := n) hfirst
      exact ⟨e', he', hi', hk'.trans hk⟩

theorem derivedFrom_ofNodes (ns : List Node) : (ofNodes ns).DerivedFrom ns := by
  induction ns using List.reverseRecOn with
  | nil =>
    exact ⟨fun _ he => (nomatch he), fun _ he => (nomatch he), fun _ hc => (nomatch hc),
      fun _ hc => (nomatch hc)⟩
  | append_singleton ns n ih =>
    rw [ofNodes_snoc]
    exact ih.insert n

/-! What an index finds does not depend on fields being typed: it compares the keys it has stored. -/

theorem lookup?_ofNodes (ns : List Node) (k : EntityKey) :
    (ofNodes ns).lookup? k = (ns.find? (·.key = k)).map (·.id) := by
  induction ns using List.reverseRecOn with
  | nil => rfl
  | append_singleton ns n ih =>
    rw [ofNodes_snoc, lookup?_insert, ih, List.find?_append, Option.map_or]
    congr 1
    by_cases hk : n.key = k <;> simp [hk]

theorem lookup?_ofGraph (g : Graph) (k : EntityKey) : (ofGraph g).lookup? k = g.findKey? k :=
  lookup?_ofNodes g.nodes k

theorem IsIndexOf.canonical?_eq_findKey? {g : Graph} (h : (ofGraph g).IsIndexOf g.nodes) {n : Node}
    (hn : n ∈ g.nodes) : (ofGraph g).canonical? n.id = g.findKey? n.key :=
  (h.canonical? n hn).trans (lookup?_ofGraph g n.key)

theorem keys_nodup_ofNodes (ns : List Node) : ((ofNodes ns).entities.map (·.key)).Nodup := by
  induction ns using List.reverseRecOn with
  | nil => exact .nil
  | append_singleton ns n ih =>
    rw [ofNodes_snoc]
    exact keys_nodup_insert ih

/-- What an index finds under a key is made of all the nodes of the key. -/
theorem find?_ofNodes {ns : List Node} (hd : (ns.map (·.id)).Nodup) (k : EntityKey) :
    (ofNodes ns).find? k = Entity.ofClass? k (ns.filter (·.key = k)) := by
  induction ns using List.reverseRecOn with
  | nil => rfl
  | append_singleton ns n ih =>
    rw [List.map_append] at hd
    have hns := (List.nodup_append.mp hd).1
    rw [ofNodes_snoc, List.filter_append]
    by_cases hk : n.key = k
    · subst hk
      have hlast : [n].filter (·.key = n.key) = [n] := by simp
      rw [find?_insert_self, ih hns, hlast, Entity.ofClass?_snoc]
    · have hlast : [n].filter (·.key = k) = [] := by simp [hk]
      rw [find?_insert_of_ne (hns.sublist (ids_sublist ns)) hk, ih hns, hlast, List.append_nil]

theorem node_eq_of_filter {ns : List Node} (hd : (ns.map (·.id)).Nodup) {e : Entity}
    (he : e ∈ (ofNodes ns).entities) {n : Node} (hn : ns.filter (·.key = e.key) = [n]) :
    e.node = n := by
  have hfind : (ofNodes ns).find? e.key = some e :=
    (find?_key_eq_some_iff (keys_nodup_ofNodes ns)).mpr ⟨he, rfl⟩
  rw [find?_ofNodes hd, hn] at hfind
  exact (congrArg Entity.node (Option.some.inj hfind)).symm

theorem length_collisions (ns : List Node) :
    (ofNodes ns).collisions.length + (ofNodes ns).entities.length = ns.length := by
  induction ns using List.reverseRecOn with
  | nil => rfl
  | append_singleton ns n ih =>
    rw [ofNodes_snoc, List.length_append, ← ih]
    cases hf : (ofNodes ns).find? n.key with
    | some first =>
      rw [insert_of_find?_eq_some hf]
      simp only [List.length_append, List.length_map, List.length_singleton]
      omega
    | none =>
      rw [insert_of_find?_eq_none hf]
      simp only [List.length_append, List.length_singleton]
      omega

theorem warnings_ofNodes {ns : List Node} (hd : (ns.map (·.id)).Nodup) :
    (ofNodes ns).warnings =
      (ns.filter (·.id ∉ (ofNodes ns).ids)).map fun n => .identityCollision n.key := by
  induction ns using List.reverseRecOn with
  | nil => rfl
  | append_singleton ns n ih =>
    rw [List.map_append] at hd
    obtain ⟨hns, -, hdisj⟩ := List.nodup_append.mp hd
    have hn : n.id ∉ (ofNodes ns).ids := fun hi =>
      hdisj _ ((ids_sublist ns).subset hi) _ List.mem_cons_self rfl
    have hold : ns.filter (·.id ∉ (ofNodes ns).ids ++ [n.id]) =
        ns.filter (·.id ∉ (ofNodes ns).ids) := by
      refine List.filter_congr fun m hm => ?_
      have hne : m.id ≠ n.id := fun he =>
        hdisj _ (List.mem_map_of_mem hm) _ List.mem_cons_self he
      simp [hne]
    rw [ofNodes_snoc, ids_insert, List.filter_append, List.map_append]
    cases hf : (ofNodes ns).find? n.key with
    | some first =>
      rw [if_pos (by simp [lookup?, hf]), insert_of_find?_eq_some hf, ← ih hns]
      simp [warnings, hn]
    | none =>
      rw [if_neg (by simp [lookup?, hf]), insert_of_find?_eq_none hf, hold, ← ih hns]
      simp [warnings]

theorem findKey?_key_ofGraph {g : Graph} {e : Entity} (he : e ∈ (ofGraph g).entities) :
    g.findKey? e.key = some e.id := by
  have hfind := (find?_key_eq_some_iff (keys_nodup_ofNodes g.nodes)).mpr ⟨he, rfl⟩
  rw [← lookup?_ofGraph, lookup?, find?, ofGraph, hfind]
  rfl

/-- Only the key of a field can change when its node takes over a type. -/
theorem key_node_ofNodes {ns : List Node} {e : Entity} (he : e ∈ (ofNodes ns).entities)
    (hk : e.key.kind ≠ .field) : e.node.key = e.key := by
  induction ns using List.reverseRecOn generalizing e with
  | nil => cases he
  | append_singleton ns n ih =>
    rw [ofNodes_snoc] at he
    rcases mem_entities_insert he with ⟨d, hd, hkey, -, hnode | hnode⟩ | rfl
    · rw [hnode, hkey, ih hd (hkey ▸ hk)]
    · have htyped : d.node.Typed :=
        fun hf => absurd ((derivedFrom_ofNodes ns).kind d hd ▸ hf) (hkey ▸ hk)
      rw [hnode, htyped.key_absorb, hkey, ih hd (hkey ▸ hk)]
    · rfl

section Built
variable {g : Graph} (hg : g.Built) {n : Node} {i : NodeId}
include hg

theorem ids_nodup_ofGraph : (ofGraph g).ids.Nodup := hg.ids_nodup.sublist (ids_sublist g.nodes)

theorem node?_ofGraph {e : Entity} (he : e ∈ (ofGraph g).entities) :
    (ofGraph g).node? e.id = some e.node := node?_ofNodes hg.ids_nodup he

/-- A node and its canonical node stand for one entity. -/
theorem exists_entity_of_canonical? (hn : n ∈ g.nodes) (hc : (ofGraph g).canonical? n.id = some i) :
    ∃ e ∈ (ofGraph g).entities, e.id = i ∧ e.key = n.key := by
  have hd : (ofGraph g).DerivedFrom g.nodes := derivedFrom_ofNodes g.nodes
  have hsame : ∀ {k : EntityKey}, (∃ m ∈ g.nodes, m.id = n.id ∧ m.key = k) → n.key = k := by
    rintro k ⟨m, hm, hi, rfl⟩
    rw [List.inj_on_of_nodup_map hg.ids_nodup hm hn hi]
  rw [canonical?_eq] at hc
  split at hc
  · rename_i hmem
    cases hc
    obtain ⟨e, he, hi⟩ := List.mem_map.mp hmem
    have hkey := hd.entities e he
    rw [hi] at hkey
    exact ⟨e, he, hi, (hsame hkey).symm⟩
  · obtain ⟨c, hfind, rfl⟩ := Option.map_eq_some_iff.mp hc
    have hmem := List.mem_of_find?_eq_some hfind
    have hi : c.id = n.id := by simpa using List.find?_some hfind
    obtain ⟨e, he, hei, hek⟩ := hd.canonical c hmem
    have hkey := hd.collisions c hmem
    rw [hi] at hkey
    exact ⟨e, he, hei, hek.trans (hsame hkey).symm⟩

omit hg in
theorem canonical?_of_mem_ids (hi : i ∈ (ofGraph g).ids) : (ofGraph g).canonical? i = some i := by
  rw [canonical?_eq, if_pos hi]

end Built

theorem unversioned_ofGraph {g : Graph} (h : g.Parsed) :
    ∀ e ∈ (ofGraph g).entities, e.node.Unversioned :=
  forall_node_ofNodes (fun _ _ => Node.Unversioned.absorb) h.unversioned

end Lineage.Index

/-! ## Indices of well-formed graphs -/
namespace Lineage.Graph.WellFormed

open Index (ofGraph)
variable {g : Graph} (h : g.WellFormed)
include h

theorem isIndexOf : (ofGraph g).IsIndexOf g.nodes :=
  Index.isIndexOf_ofNodes h.built.ids_nodup h.typed

theorem ids_eq : (ofGraph g).ids = g.canonicalIds := h.isIndexOf.ids

theorem ids_nodup : (ofGraph g).ids.Nodup := h.isIndexOf.ids_nodup h.built.ids_nodup

theorem find?_eq_some_iff {k : EntityKey} {e : Entity} :
    (ofGraph g).find? k = some e ↔ e ∈ (ofGraph g).entities ∧ e.key = k :=
  find?_key_eq_some_iff h.isIndexOf.keys_nodup

theorem lookup?_eq_some_iff {k : EntityKey} {i : NodeId} :
    (ofGraph g).lookup? k = some i ↔ ∃ e ∈ (ofGraph g).entities, e.key = k ∧ e.id = i := by
  simp only [Index.lookup?, Option.map_eq_some_iff, h.find?_eq_some_iff, and_assoc]

theorem node?_eq_some_iff {i : NodeId} {n : Node} :
    (ofGraph g).node? i = some n ↔ ∃ e ∈ (ofGraph g).entities, e.id = i ∧ e.node = n := by
  simp only [Index.node?, Option.map_eq_some_iff, find?_key_eq_some_iff h.ids_nodup, and_assoc]

theorem entity_eq_of_key {e d : Entity} (he : e ∈ (ofGraph g).entities)
    (hd : d ∈ (ofGraph g).entities) (hk : e.key = d.key) : e = d :=
  List.inj_on_of_nodup_map h.isIndexOf.keys_nodup he hd hk

theorem entity_eq_of_id {e d : Entity} (he : e ∈ (ofGraph g).entities)
    (hd : d ∈ (ofGraph g).entities) (hi : e.id = d.id) : e = d :=
  List.inj_on_of_nodup_map h.ids_nodup he hd hi

theorem mem_keys_iff {k : EntityKey} :
    k ∈ g.keys ↔ ∃ e ∈ (ofGraph g).entities, e.key = k := by
  rw [Graph.keys, ← h.isIndexOf.lookup?_isSome_iff, Option.isSome_iff_exists]
  simp only [h.lookup?_eq_some_iff]
  exact ⟨fun ⟨_, e, he, hk, _⟩ => ⟨e, he, hk⟩, fun ⟨e, he, hk⟩ => ⟨e.id, e, he, hk, rfl⟩⟩

theorem canonical?_eq_some_iff {n : Node} (hn : n ∈ g.nodes) {i : NodeId} :
    (ofGraph g).canonical? n.id = some i ↔ ∃ e ∈ (ofGraph g).entities, e.key = n.key ∧ e.id = i := by
  rw [h.isIndexOf.canonical? n hn, h.lookup?_eq_some_iff]

theorem canonical?_eq_findKey? {n : Node} (hn : n ∈ g.nodes) :
    (ofGraph g).canonical? n.id = g.findKey? n.key := h.isIndexOf.canonical?_eq_findKey? hn

end Lineage.Graph.WellFormed
