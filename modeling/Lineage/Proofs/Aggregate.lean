import Lineage.Aggregate
import Lineage.Proofs.MergedEntities
/-! # Joining nodes by entity

The graph of an aggregate has one node for each entity, and its index leads from the key of a node to
its number. Joining a node changes the entity under the node's key, and takes the entity away from
its former key unless the new key was known before; a list of nodes with different keys is joined as
if all of them met the same graph. Main statements: `indexed_joinNode`, `folds_joinAll`, `folds_fold`.
-/
namespace Lineage

def Graph.entity? (g : Graph) (k : EntityKey) : Option Node := g.nodes.find? (·.key = k)

theorem Graph.entity?_isSome_iff {g : Graph} {k : EntityKey} :
    (g.entity? k).isSome ↔ k ∈ g.keys := by
  rw [entity?, List.find?_isSome, keys, List.mem_map]
  simp only [decide_eq_true_eq]

namespace Aggregate

/-! ## The newer form of a node -/

section Update
variable (current newer : Node)

theorem metadatum_update_of_ne {k : String} (hk : k ≠ Meta.renamedFrom) :
    (update current newer).metadatum k = newer.metadatum k := by
  unfold update Node.metadatum
  dsimp only
  split
  · rw [TextMap.get?_insertNew, if_neg hk, Option.or_none]
  · rfl

/-- An older former key that is kept does not change the key. -/
@[simp] theorem key_update : (update current newer).key = newer.key := by
  have ht : (update current newer).metadatum Meta.type = newer.metadatum Meta.type :=
    metadatum_update_of_ne current newer (by decide)
  have hk : (update current newer).kind = newer.kind := rfl
  simp only [Node.key, Node.keyText, hk, ht]
  rfl

/-- A node in place of the one that stands for its entity. -/
def settle (ns : List Node) : List Node :=
  ns.map fun x => if x.id = current.id then update current newer else x

end Update

section Settle
variable {ns : List Node} {c n : Node}

theorem map_id_settle (ns : List Node) (c n : Node) :
    (settle c n ns).map (·.id) = ns.map (·.id) := by
  rw [settle, List.map_map]
  apply List.map_congr_left
  intro x _
  dsimp only [Function.comp]
  split
  · rename_i h
    exact h.symm
  · rfl

theorem mem_settle_iff (hc : c ∈ ns) {x : Node} :
    x ∈ settle c n ns ↔ x = update c n ∨ x ∈ ns ∧ x.id ≠ c.id := by
  rw [settle, List.mem_map]
  constructor
  · rintro ⟨y, hy, rfl⟩
    by_cases h : y.id = c.id
    · exact .inl (if_pos h)
    · rw [if_neg h]
      exact .inr ⟨hy, h⟩
  · rintro (rfl | ⟨hx, h⟩)
    · exact ⟨c, hc, if_pos rfl⟩
    · exact ⟨x, hx, if_neg h⟩

/-- Numbers select the nodes themselves as long as they fit in 32 bits. -/
theorem modify_eq_settle (h : Graph.Numbered ns) (hcap : ns.length ≤ UInt32.size) (hc : c ∈ ns) :
    ns.modify (slot c.id.number) (update · n) = settle c n ns := by
  obtain ⟨j, hj, rfl⟩ := List.getElem_of_mem hc
  have hid := h.id_getElem hj
  have hslot : slot (ns[j].id).number = j := by
    rw [hid]
    exact Nat.mod_eq_of_lt (Nat.lt_of_lt_of_le hj hcap)
  rw [hslot, settle, hid]
  apply List.ext_getElem
  · simp
  · intro i hi hi'
    have hi₀ : i < ns.length := by simpa using hi
    rw [List.getElem_modify, List.getElem_map, h.id_getElem hi₀]
    by_cases hij : j = i
    · subst hij
      simp
    · have hne : (⟨i⟩ : NodeId) ≠ ⟨j⟩ := fun he => hij (congrArg NodeId.number he).symm
      rw [if_neg hij, if_neg hne]

theorem keys_nodup_settle (hid : (ns.map (·.id)).Nodup) (hkey : (ns.map Node.key).Nodup)
    (hc : c ∈ ns) (hfree : ∀ x ∈ ns, x.key = n.key → x = c) :
    ((settle c n ns).map Node.key).Nodup := by
  have hnodup : (settle c n ns).Nodup := by
    refine List.Nodup.of_map (·.id) ?_
    rw [map_id_settle]
    exact hid
  refine List.Nodup.map_on ?_ hnodup
  intro x hx y hy hxy
  rcases (mem_settle_iff hc).mp hx with rfl | ⟨hxn, hxc⟩
  · rcases (mem_settle_iff hc).mp hy with rfl | ⟨hyn, hyc⟩
    · rfl
    · rw [key_update] at hxy
      exact absurd (congrArg Node.id (hfree y hyn hxy.symm)) hyc
  · rcases (mem_settle_iff hc).mp hy with rfl | ⟨hyn, hyc⟩
    · rw [key_update] at hxy
      exact absurd (congrArg Node.id (hfree x hxn hxy)) hxc
    · exact List.inj_on_of_nodup_map hkey hxn hyn hxy

theorem find?_settle (hid : (ns.map (·.id)).Nodup) (hkey : (ns.map Node.key).Nodup) (hc : c ∈ ns)
    (hfree : ∀ x ∈ ns, x.key = n.key → x = c) (k : EntityKey) :
    (settle c n ns).find? (·.key = k) =
      if k = n.key then some (update c n)
      else if k = c.key then none else ns.find? (·.key = k) := by
  have hkeys := keys_nodup_settle hid hkey hc hfree
  split
  · rename_i hk
    rw [find?_key_eq_some_iff hkeys, hk]
    exact ⟨(mem_settle_iff hc).mpr (.inl rfl), key_update c n⟩
  rename_i hk
  split
  · rename_i hkc
    rw [find?_key_eq_none_iff, List.mem_map]
    rintro ⟨x, hx, hxk⟩
    rcases (mem_settle_iff hc).mp hx with rfl | ⟨hxn, hne⟩
    · exact hk (hxk.symm.trans (key_update c n))
    · have hxc := List.inj_on_of_nodup_map hkey hxn hc (hxk.trans hkc)
      exact hne (congrArg Node.id hxc)
  · rename_i hkc
    ext x
    rw [find?_key_eq_some_iff hkeys, find?_key_eq_some_iff hkey, mem_settle_iff hc]
    constructor
    · rintro ⟨rfl | ⟨hxn, -⟩, hxk⟩
      · exact absurd (hxk.symm.trans (key_update c n)) hk
      · exact ⟨hxn, hxk⟩
    · rintro ⟨hxn, hxk⟩
      refine ⟨.inr ⟨hxn, fun he => ?_⟩, hxk⟩
      have hxc := List.inj_on_of_nodup_map hid hxn hc he
      exact hkc (hxk.symm.trans (congrArg Node.key hxc))

theorem find?_snoc (ns : List Node) (n : Node) (i : NodeId) (k : EntityKey) :
    (ns ++ [n.renumber i]).find? (·.key = k) =
      (ns.find? (·.key = k)).or (if n.key = k then some (n.renumber i) else none) := by
  rw [List.find?_append]
  congr 1
  by_cases hk : n.key = k <;> simp [hk]

end Settle

/-! ## One node -/

structure Indexed (ns : List Node) (index : List (EntityKey × NodeId)) : Prop where
  numbered : Graph.Numbered ns
  keys_nodup : (ns.map Node.key).Nodup
  lookup : ∀ k, index.lookup k = (ns.find? (·.key = k)).map (·.id)

/-- The node that a newer one is joined with: the one under its key, or else under its former key. -/
def former? (g : Graph) (n : Node) : Option Node :=
  (g.entity? n.key).or (n.formerKey?.bind g.entity?)

/-- A node after it is joined, up to its number. -/
def latest : Option Node → Node → Node
  | some current, newer => update current newer
  | none, newer => newer

section Latest
variable (f : Option Node) (n : Node) (i : NodeId)

@[simp] theorem status_latest : ((latest f n).renumber i).status = n.status := by cases f <;> rfl

@[simp] theorem lastVersion_latest : ((latest f n).renumber i).lastVersion = n.lastVersion := by
  cases f <;> rfl

@[simp] theorem firstVersion_latest :
    ((latest f n).renumber i).firstVersion = (f.bind (·.firstVersion)).or n.firstVersion := by
  cases f with
  | none => rfl
  | some c =>
    show (c.firstVersion <|> n.firstVersion) = c.firstVersion.or n.firstVersion
    cases c.firstVersion <;> rfl

@[simp] theorem mem_versions_latest (v : String) :
    v ∈ ((latest f n).renumber i).versions ↔ (∃ c, f = some c ∧ v ∈ c.versions) ∨ v ∈ n.versions := by
  cases f with
  | none =>
    show v ∈ n.versions ↔ _
    simp
  | some c =>
    show v ∈ c.versions.union n.versions ↔ _
    simp

end Latest

/-- What joining nodes with different keys to a graph does to its entities. -/
structure Folds (g : Graph) (ns : List Node) (g' : Graph) : Prop where
  joined : ∀ n ∈ ns, ∃ i, g'.entity? n.key = some ((latest (former? g n) n).renumber i)
  moved : ∀ n ∈ ns, ∀ k, n.formerKey? = some k → g.entity? n.key = none → g'.entity? k = none
  others : ∀ k, k ∉ ns.map Node.key →
    (∀ n ∈ ns, n.formerKey? = some k → (g.entity? n.key).isSome) → g'.entity? k = g.entity? k

section Single
variable {g g' : Graph} {n : Node} {k : EntityKey}

theorem Folds.single {i : NodeId}
    (hjoined : g'.entity? n.key = some ((latest (former? g n) n).renumber i))
    (hmoved : ∀ k, n.formerKey? = some k → g.entity? n.key = none → g'.entity? k = none)
    (hothers : ∀ k, k ≠ n.key → (n.formerKey? = some k → (g.entity? n.key).isSome) →
      g'.entity? k = g.entity? k) : Folds g [n] g' where
  joined := List.forall_mem_singleton.mpr ⟨i, hjoined⟩
  moved := List.forall_mem_singleton.mpr hmoved
  others k hk h := hothers k (by simpa using hk) (h n List.mem_cons_self)

theorem Folds.entity?_eq (h : Folds g [n] g') (hk : k ≠ n.key) (hf : n.formerKey? ≠ some k) :
    g'.entity? k = g.entity? k :=
  h.others k (by simpa using hk) (List.forall_mem_singleton.mpr fun h => absurd h hf)

end Single

section Step
variable {j : Join} {n c : Node}

theorem joinNode_of_known (hl : j.index.lookup n.key = some c.id) :
    joinNode j n =
      ⟨j.graph.modifyNode c.id (update · n), j.index, j.ids ++ [(n.id, c.id)]⟩ := by
  simp only [joinNode, hl]

theorem joinNode_of_renamed {k : EntityKey} (hl : j.index.lookup n.key = none)
    (hk : n.formerKey? = some k) (hc : j.index.lookup k = some c.id) :
    joinNode j n = ⟨j.graph.modifyNode c.id (update · n),
      (n.key, c.id) :: j.index.filter (·.1 ≠ k), j.ids ++ [(n.id, c.id)]⟩ := by
  obtain ⟨t, ht, rfl⟩ := Option.map_eq_some_iff.mp hk
  have hr : reindexed? j.index n = some (c.id, (n.key, c.id) :: j.index.filter (·.1 ≠ ⟨n.kind, t⟩)) := by
    simp only [reindexed?, ht, bind, Option.bind_some, hc, pure]
  simp only [joinNode, hl, hr]

theorem joinNode_of_unknown (hl : j.index.lookup n.key = none)
    (hf : ∀ k, n.formerKey? = some k → j.index.lookup k = none) :
    joinNode j n = ⟨(j.graph.addNode n).2, (n.key, j.graph.nextNode) :: j.index,
      j.ids ++ [(n.id, j.graph.nextNode)]⟩ := by
  have hr : reindexed? j.index n = none := by
    cases ht : n.metadatum Meta.renamedFrom with
    | none => simp only [reindexed?, ht, bind, Option.bind_none]
    | some t =>
      have hn := hf ⟨n.kind, t⟩ (by rw [Node.formerKey?, ht]; rfl)
      simp only [reindexed?, ht, bind, Option.bind_some, hn, Option.bind_none]
  simp only [joinNode, hl, hr, Graph.addNode]

theorem length_le_joinNode (j : Join) (n : Node) :
    j.graph.nodes.length ≤ (joinNode j n).graph.nodes.length := by
  unfold joinNode
  dsimp only
  split
  · simp [Graph.modifyNode]
  · simp

/-- The three ways in which a node is joined. -/
inductive Joins (j : Join) (n : Node) : List Node → List (EntityKey × NodeId) → Prop
  | known {c : Node} (hc : j.graph.entity? n.key = some c) :
      Joins j n (settle c n j.graph.nodes) j.index
  | renamed {c : Node} (hn : j.graph.entity? n.key = none) (hk : n.formerKey? = some c.key)
      (hc : j.graph.entity? c.key = some c) :
      Joins j n (settle c n j.graph.nodes) ((n.key, c.id) :: j.index.filter (·.1 ≠ c.key))
  | unknown (hn : j.graph.entity? n.key = none)
      (hf : ∀ k, n.formerKey? = some k → j.graph.entity? k = none) :
      Joins j n (j.graph.nodes ++ [n.renumber j.graph.nextNode])
        ((n.key, j.graph.nextNode) :: j.index)

theorem mem_of_entity?_eq_some {g : Graph} {k : EntityKey} (h : g.entity? k = some c) :
    c ∈ g.nodes ∧ c.key = k :=
  ⟨List.mem_of_find?_eq_some h, by simpa using List.find?_some h⟩

variable (h : Indexed j.graph.nodes j.index)
include h

theorem joins_joinNode (hcap : j.graph.nodes.length ≤ UInt32.size) :
    Joins j n (joinNode j n).graph.nodes (joinNode j n).index := by
  have hlookup : ∀ k, j.index.lookup k = (j.graph.entity? k).map (·.id) := h.lookup
  cases hn : j.graph.entity? n.key with
  | some c =>
    have hl : j.index.lookup n.key = some c.id := by rw [hlookup, hn]; rfl
    rw [joinNode_of_known hl]
    dsimp only [Graph.modifyNode]
    rw [modify_eq_settle h.numbered hcap (mem_of_entity?_eq_some hn).1]
    exact .known hn
  | none =>
    have hl : j.index.lookup n.key = none := by rw [hlookup, hn]; rfl
    by_cases hf : ∃ k c, n.formerKey? = some k ∧ j.graph.entity? k = some c
    · obtain ⟨k, c, hk, hc⟩ := hf
      obtain ⟨hmem, rfl⟩ := mem_of_entity?_eq_some hc
      have hlc : j.index.lookup c.key = some c.id := by rw [hlookup, hc]; rfl
      rw [joinNode_of_renamed hl hk hlc]
      dsimp only [Graph.modifyNode]
      rw [modify_eq_settle h.numbered hcap hmem]
      exact .renamed hn hk hc
    · have hnone : ∀ k, n.formerKey? = some k → j.graph.entity? k = none := by
        intro k hk
        rw [Option.eq_none_iff_forall_ne_some]
        exact fun c hc => hf ⟨k, c, hk, hc⟩
      have hl' : ∀ k, n.formerKey? = some k → j.index.lookup k = none := by
        intro k hk
        rw [hlookup, hnone k hk]
        rfl
      rw [joinNode_of_unknown hl hl']
      exact .unknown hn hnone

theorem eq_of_key_eq_known (hc : j.graph.entity? n.key = some c) :
    ∀ x ∈ j.graph.nodes, x.key = n.key → x = c := by
  intro x hx hk
  obtain ⟨hcm, hck⟩ := mem_of_entity?_eq_some hc
  exact List.inj_on_of_nodup_map h.keys_nodup hx hcm (hk.trans hck.symm)

omit h in
theorem eq_of_key_eq_unknown (hn : j.graph.entity? n.key = none) :
    ∀ x ∈ j.graph.nodes, x.key = n.key → x = c := fun x hx hk =>
  absurd (List.mem_map.mpr ⟨x, hx, hk⟩) (find?_key_eq_none_iff.mp hn)

theorem Indexed.settle (hc : c ∈ j.graph.nodes) (hfree : ∀ x ∈ j.graph.nodes, x.key = n.key → x = c)
    {index : List (EntityKey × NodeId)}
    (hl : ∀ k, index.lookup k =
      if k = n.key then some c.id else if k = c.key then none else j.index.lookup k) :
    Indexed (settle c n j.graph.nodes) index where
  numbered := by
    have hlen : (Aggregate.settle c n j.graph.nodes).length = j.graph.nodes.length := by
      simp [Aggregate.settle]
    rw [Graph.Numbered, map_id_settle, hlen]
    exact h.numbered
  keys_nodup := keys_nodup_settle h.numbered.nodup h.keys_nodup hc hfree
  lookup k := by
    rw [hl, find?_settle h.numbered.nodup h.keys_nodup hc hfree]
    split
    · rfl
    · split
      · rfl
      · exact h.lookup k

theorem indexed_joinNode (hcap : j.graph.nodes.length ≤ UInt32.size) :
    Indexed (joinNode j n).graph.nodes (joinNode j n).index := by
  have hlookup : ∀ k, j.index.lookup k = (j.graph.entity? k).map (·.id) := h.lookup
  have hjoins : Joins j n (joinNode j n).graph.nodes (joinNode j n).index := joins_joinNode h hcap
  generalize (joinNode j n).graph.nodes = ns, (joinNode j n).index = index at hjoins
  cases hjoins with
  | @known c hc =>
    obtain ⟨hmem, hck⟩ := mem_of_entity?_eq_some hc
    refine h.settle hmem (eq_of_key_eq_known h hc) fun k => ?_
    rw [hck]
    by_cases hk : k = n.key
    · rw [if_pos hk, hk, hlookup, hc]
      rfl
    · rw [if_neg hk, if_neg hk]
  | @renamed c hn hk hc =>
    refine h.settle (mem_of_entity?_eq_some hc).1 (eq_of_key_eq_unknown hn) fun k => ?_
    rw [lookup_cons_eq_ite, lookup_filter_key fun i => decide (i ≠ c.key)]
    by_cases hkc : k = c.key <;> simp [hkc]
  | unknown hn hf =>
    refine ⟨h.numbered.snoc n, ?_, fun k => ?_⟩
    · rw [List.map_append]
      exact h.keys_nodup.append (List.nodup_singleton _) (by simpa using find?_key_eq_none_iff.mp hn)
    · have hfind : j.graph.nodes.find? (·.key = k) = j.graph.entity? k := rfl
      rw [lookup_cons_eq_ite, find?_snoc, hlookup, hfind]
      by_cases hk : k = n.key
      · rw [if_pos hk, hk, hn, if_pos rfl]
        rfl
      · rw [if_neg hk, if_neg (Ne.symm hk), Option.or_none]

theorem folds_joinNode (hcap : j.graph.nodes.length ≤ UInt32.size)
    (hn : n.formerKey? ≠ some n.key) : Folds j.graph [n] (joinNode j n).graph := by
  have hentity : ∀ k, (joinNode j n).graph.entity? k =
      (joinNode j n).graph.nodes.find? (·.key = k) := fun _ => rfl
  have hjoins : Joins j n (joinNode j n).graph.nodes (joinNode j n).index := joins_joinNode h hcap
  generalize (joinNode j n).graph.nodes = ns, (joinNode j n).index = index at hjoins hentity
  cases hjoins with
  | @known c hc =>
    obtain ⟨hmem, hck⟩ := mem_of_entity?_eq_some hc
    have hfind := find?_settle h.numbered.nodup h.keys_nodup hmem (eq_of_key_eq_known h hc)
    have hformer : former? j.graph n = some c := by rw [former?, hc, Option.some_or]
    refine .single (i := c.id) ?_ (fun k _ hnone => ?_) fun k hne _ => ?_
    · rw [hentity, hfind, if_pos rfl, hformer]
      rfl
    · rw [hc] at hnone
      cases hnone
    · rw [hentity, hfind, if_neg hne, hck, if_neg hne]
      rfl
  | @renamed c hnone hk hc =>
    have hfind := find?_settle h.numbered.nodup h.keys_nodup (mem_of_entity?_eq_some hc).1
      (eq_of_key_eq_unknown hnone)
    have hformer : former? j.graph n = some c := by
      rw [former?, hnone, hk, Option.none_or, Option.bind_some, hc]
    have hne : c.key ≠ n.key := fun he => hn (he ▸ hk)
    -- The node leaves its former key for the new one; both entries change, no other does.
    refine .single (i := c.id) ?_ (fun k hkk _ => ?_) fun k hkn hknown => ?_
    · rw [hentity, hfind, if_pos rfl, hformer]
      rfl
    · rw [hk, Option.some.injEq] at hkk
      rw [hentity, hfind, ← hkk, if_neg hne, if_pos rfl]
    · have hkc : k ≠ c.key := by
        rintro rfl
        simpa [hnone] using hknown hk
      rw [hentity, hfind, if_neg hkn, if_neg hkc]
      rfl
  | unknown hnone hf =>
    have hfind : ∀ k, (j.graph.nodes ++ [n.renumber j.graph.nextNode]).find? (·.key = k) =
        (j.graph.entity? k).or (if n.key = k then some (n.renumber j.graph.nextNode) else none) :=
      find?_snoc j.graph.nodes n j.graph.nextNode
    have hformer : former? j.graph n = none := by
      rw [former?, hnone, Option.none_or, Option.bind_eq_none_iff]
      exact hf
    refine .single (i := j.graph.nextNode) ?_ (fun k hk _ => ?_) fun k hne _ => ?_
    · rw [hentity, hfind, hnone, if_pos rfl, hformer]
      rfl
    · have hne : n.key ≠ k := fun he => hn (he ▸ hk)
      rw [hentity, hfind, hf k hk, if_neg hne]
      rfl
    · rw [hentity, hfind, if_neg (Ne.symm hne), Option.or_none]

end Step

/-! ## The nodes of a merged graph -/

/-- Nodes of different entities, none of which goes by a former key, that do not share former keys. -/
structure Orderly (ns : List Node) : Prop where
  keys_nodup : (ns.map Node.key).Nodup
  former_not_mem : ∀ n ∈ ns, ∀ k, n.formerKey? = some k → k ∉ ns.map Node.key
  former_inj : ∀ n ∈ ns, ∀ n' ∈ ns, ∀ k, n.formerKey? = some k → n'.formerKey? = some k → n = n'

section Run
variable {g g₁ g₂ : Graph} {n : Node} {ns : List Node}

theorem Orderly.tail (h : Orderly (n :: ns)) : Orderly ns where
  keys_nodup := h.keys_nodup.of_cons
  former_not_mem m hm k hk hmem :=
    h.former_not_mem m (List.mem_cons_of_mem _ hm) k hk (List.mem_cons_of_mem _ hmem)
  former_inj m hm m' hm' :=
    h.former_inj m (List.mem_cons_of_mem _ hm) m' (List.mem_cons_of_mem _ hm')

theorem Orderly.formerKey?_ne (h : Orderly ns) {m : Node} (hn : n ∈ ns) (hm : m ∈ ns) :
    n.formerKey? ≠ some m.key := fun hk => h.former_not_mem n hn _ hk (List.mem_map_of_mem hm)

theorem Orderly.key_ne (h : Orderly (n :: ns)) {m : Node} (hm : m ∈ ns) : m.key ≠ n.key := fun he =>
  (List.nodup_cons.mp h.keys_nodup).1 (List.mem_map.mpr ⟨m, hm, he⟩)

theorem Folds.former?_eq (h : Folds g [n] g₁) (ho : Orderly (n :: ns)) {m : Node} (hm : m ∈ ns) :
    g₁.entity? m.key = g.entity? m.key ∧ former? g₁ m = former? g m := by
  have hmem : m ∈ n :: ns := List.mem_cons_of_mem _ hm
  have hne : m.key ≠ n.key := ho.key_ne hm
  have hkey : g₁.entity? m.key = g.entity? m.key :=
    h.entity?_eq hne (ho.formerKey?_ne List.mem_cons_self hmem)
  refine ⟨hkey, ?_⟩
  rw [former?, former?, hkey]
  congr 1
  cases hk : m.formerKey? with
  | none => rfl
  | some k =>
    have hkn : k ≠ n.key := by
      rintro rfl
      exact ho.formerKey?_ne hmem List.mem_cons_self hk
    refine h.entity?_eq hkn fun hk' => ?_
    rw [ho.former_inj n List.mem_cons_self m hmem k hk' hk] at hne
    exact absurd rfl hne

/-- The others neither have the key of the first node nor had it before. -/
theorem Folds.entity?_head (h : Folds g₁ ns g₂) (ho : Orderly (n :: ns)) :
    g₂.entity? n.key = g₁.entity? n.key := by
  refine h.others n.key (List.nodup_cons.mp ho.keys_nodup).1 fun m hm hk => ?_
  exact absurd hk (ho.formerKey?_ne (List.mem_cons_of_mem _ hm) List.mem_cons_self)

theorem Folds.nil (g : Graph) : Folds g [] g where
  joined _ hn := absurd hn List.not_mem_nil
  moved _ hn := absurd hn List.not_mem_nil
  others _ _ _ := rfl

theorem Folds.cons (h₁ : Folds g [n] g₁) (h₂ : Folds g₁ ns g₂) (ho : Orderly (n :: ns)) :
    Folds g (n :: ns) g₂ := by
  have hn : n ∈ n :: ns := List.mem_cons_self
  have hnone : ∀ m ∈ ns, ∀ k, n.formerKey? = some k → m.formerKey? ≠ some k := by
    intro m hm k hk hk'
    have he := ho.former_inj n hn m (List.mem_cons_of_mem _ hm) k hk hk'
    exact ho.key_ne hm (congrArg Node.key he.symm)
  refine ⟨?_, ?_, ?_⟩
  · intro m hm
    rcases List.mem_cons.mp hm with rfl | hm
    · obtain ⟨i, hi⟩ := h₁.joined m List.mem_cons_self
      exact ⟨i, (h₂.entity?_head ho).trans hi⟩
    · rw [← (h₁.former?_eq ho hm).2]
      exact h₂.joined m hm
  · intro m hm k hk hm0
    rcases List.mem_cons.mp hm with rfl | hm
    · have hgone := h₁.moved m List.mem_cons_self k hk hm0
      have hkns : k ∉ ns.map Node.key := fun hmem =>
        ho.former_not_mem m hn k hk (List.mem_cons_of_mem _ hmem)
      rw [h₂.others k hkns fun m' hm' hk' => absurd hk' (hnone m' hm' k hk)]
      exact hgone
    · refine h₂.moved m hm k hk ?_
      rw [(h₁.former?_eq ho hm).1]
      exact hm0
  · intro k hk hsome
    obtain ⟨hkn, hkns⟩ := not_or.mp fun hmem => hk (List.mem_cons.mpr hmem)
    rw [h₂.others k hkns, h₁.others k (by simpa using hkn)]
    · exact List.forall_mem_singleton.mpr (hsome n hn)
    · intro m hm hk'
      rw [(h₁.former?_eq ho hm).1]
      exact hsome m (List.mem_cons_of_mem _ hm) hk'

theorem length_le_joinAll (j : Join) (ns : List Node) :
    j.graph.nodes.length ≤ (ns.foldl joinNode j).graph.nodes.length := by
  induction ns generalizing j with
  | nil => exact Nat.le_refl _
  | cons n ns ih => exact Nat.le_trans (length_le_joinNode j n) (ih (joinNode j n))

theorem folds_joinAll {j : Join} (h : Indexed j.graph.nodes j.index) (ho : Orderly ns)
    (hcap : (ns.foldl joinNode j).graph.nodes.length ≤ UInt32.size) :
    Indexed (ns.foldl joinNode j).graph.nodes (ns.foldl joinNode j).index ∧
      Folds j.graph ns (ns.foldl joinNode j).graph := by
  induction ns generalizing j with
  | nil => exact ⟨h, .nil j.graph⟩
  | cons n ns ih =>
    have hcap₀ : j.graph.nodes.length ≤ UInt32.size :=
      Nat.le_trans (length_le_joinAll j (n :: ns)) hcap
    have hn := ho.formerKey?_ne List.mem_cons_self List.mem_cons_self
    obtain ⟨hi, hf⟩ := ih (indexed_joinNode h hcap₀) ho.tail hcap
    exact ⟨hi, (folds_joinNode h hcap₀ hn).cons hf ho⟩

end Run

/-! ## Recording commits -/

section Commits
variable {cs : List Commit} {c : Commit}

theorem recordCommit_of_mem (h : c.id ∈ cs.map (·.id)) : recordCommit cs c = cs := by
  obtain ⟨x, hx, he⟩ := List.mem_map.mp h
  exact if_pos (List.any_eq_true.mpr ⟨x, hx, decide_eq_true he⟩)

theorem recordCommit_of_not_mem (h : c.id ∉ cs.map (·.id)) : recordCommit cs c = cs ++ [c] := by
  refine if_neg fun hany => h ?_
  obtain ⟨x, hx, he⟩ := List.any_eq_true.mp hany
  exact List.mem_map.mpr ⟨x, hx, of_decide_eq_true he⟩

theorem ids_recordCommit (cs : List Commit) (c : Commit) : (recordCommit cs c).map (·.id) =
    if c.id ∈ cs.map (·.id) then cs.map (·.id) else cs.map (·.id) ++ [c.id] := by
  split
  · rename_i h
    rw [recordCommit_of_mem h]
  · rename_i h
    rw [recordCommit_of_not_mem h, List.map_append]
    rfl

theorem nodup_recordCommit (h : (cs.map (·.id)).Nodup) (c : Commit) :
    ((recordCommit cs c).map (·.id)).Nodup := by
  rw [ids_recordCommit]
  split
  · exact h
  · rename_i hc
    exact h.append (List.nodup_singleton _) (by simpa using hc)

theorem subset_recordCommit (cs : List Commit) (c : Commit) :
    cs.map (·.id) ⊆ (recordCommit cs c).map (·.id) := by
  rw [ids_recordCommit]
  split
  · exact List.Subset.refl _
  · exact List.subset_append_left _ _

theorem mem_recordCommit (cs : List Commit) (c : Commit) :
    c.id ∈ (recordCommit cs c).map (·.id) := by
  rw [ids_recordCommit]
  split
  · assumption
  · exact List.mem_append_right _ List.mem_cons_self

end Commits

theorem commits_subset_fold (a : Aggregate) (m : Merged) :
    a.commits.map (·.id) ⊆ (a.fold m).commits.map (·.id) :=
  List.Subset.trans (subset_recordCommit _ _) (subset_recordCommit _ _)

theorem span_subset_fold (a : Aggregate) (m : Merged) :
    [m.span.older.id, m.span.newer.id] ⊆ (a.fold m).commits.map (·.id) := by
  intro v hv
  rcases List.mem_cons.mp hv with rfl | hv
  · exact subset_recordCommit _ _ (mem_recordCommit a.commits m.span.older)
  · rw [List.mem_singleton.mp hv]
    exact mem_recordCommit _ m.span.newer

/-- Every node has a number of its own in the 32 bits that select a node. -/
def Fits (a : Aggregate) : Prop := a.graph.nodes.length ≤ UInt32.size

theorem nodes_fold (a : Aggregate) (m : Merged) :
    (a.fold m).graph.nodes = (m.graph.nodes.foldl joinNode ⟨a.graph, a.index, []⟩).graph.nodes :=
  EdgeStore.nodes_insertAll _ _

theorem Fits.of_fold {a : Aggregate} {m : Merged} (h : (a.fold m).Fits) : a.Fits := by
  rw [Fits, nodes_fold] at h
  exact Nat.le_trans (length_le_joinAll ⟨a.graph, a.index, []⟩ m.graph.nodes) h

/-- Folding a merged graph in joins its nodes; the edges leave the nodes alone. -/
theorem folds_fold {a : Aggregate} {m : Merged} (h : Indexed a.graph.nodes a.index)
    (ho : Orderly m.graph.nodes) (hcap : (a.fold m).Fits) :
    Indexed (a.fold m).graph.nodes (a.fold m).index ∧
      Folds a.graph m.graph.nodes (a.fold m).graph := by
  rw [Fits, nodes_fold] at hcap
  obtain ⟨hi, hj, hm, ho⟩ := folds_joinAll (j := ⟨a.graph, a.index, []⟩) h ho hcap
  have hentity : ∀ k, (a.fold m).graph.entity? k =
      (m.graph.nodes.foldl joinNode ⟨a.graph, a.index, []⟩).graph.entity? k := by
    intro k
    rw [Graph.entity?, nodes_fold]
    rfl
  refine ⟨by rw [nodes_fold]; exact hi, ?_, ?_, ?_⟩
  · intro n hn
    rw [hentity]
    exact hj n hn
  · intro n hn k hk hnone
    rw [hentity]
    exact hm n hn k hk hnone
  · intro k hk hsome
    rw [hentity]
    exact ho k hk hsome

end Aggregate

end Lineage
