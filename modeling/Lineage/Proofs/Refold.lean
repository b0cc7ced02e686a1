import Lineage.Proofs.Growth
import Lineage.Proofs.Sorted
/-! # Folding a pair again

Once a pair is folded, each of its nodes is found under its own key and already says what joining it
again would make it say, its edges are there at full strength and its commits are listed. Folding it
again only counts one pair more. Main statements: `update_latest`, `joinAll_of_settled`,
`refold_fold`, `refold_ofMerged`.
-/
namespace Lineage

namespace Aggregate

/-! ## Nodes that are up to date -/

section Update
variable (c n : Node)

theorem metadata_update : (update c n).metadata =
    match c.metadatum Meta.renamedFrom with
    | some old => n.metadata.insertNew Meta.renamedFrom old
    | none => n.metadata := rfl

theorem metadata_update_of_isSome (h : (n.metadatum Meta.renamedFrom).isSome) :
    (update c n).metadata = n.metadata := by
  rw [metadata_update]
  split
  · exact TextMap.insertNew_of_contains h _
  · rfl

theorem metadata_update_update : (update (update c n) n).metadata = (update c n).metadata := by
  cases hn : n.metadatum Meta.renamedFrom with
  | some old =>
    have hsome : (n.metadatum Meta.renamedFrom).isSome := Option.isSome_of_mem hn
    rw [metadata_update_of_isSome _ n hsome, metadata_update_of_isSome c n hsome]
  | none =>
    -- The older node's former key is carried over, and the second time it is found there.
    have hkept : (update c n).metadatum Meta.renamedFrom = c.metadatum Meta.renamedFrom := by
      rw [Node.metadatum, metadata_update]
      split
      · rename_i old hold
        have hnone : n.metadata.get? Meta.renamedFrom = none := hn
        rw [TextMap.get?_insertNew, if_pos rfl, hnone, Option.none_or, hold]
      · rename_i hold
        exact hn.trans hold.symm
    rw [metadata_update (update c n), hkept, metadata_update c]

theorem update_update : update (update c n) n = update c n := by
  have hversions : (update (update c n) n).versions = (update c n).versions :=
    TextSet.union_union c.versions n.versions
  have hfirst : (update (update c n) n).firstVersion = (update c n).firstVersion := by
    show ((c.firstVersion <|> n.firstVersion) <|> n.firstVersion) =
      (c.firstVersion <|> n.firstVersion)
    cases c.firstVersion <;> cases n.firstVersion <;> rfl
  calc update (update c n) n = { update c n with
        versions := (update (update c n) n).versions
        firstVersion := (update (update c n) n).firstVersion
        metadata := (update (update c n) n).metadata } := rfl
    _ = update c n := by rw [hversions, hfirst, metadata_update_update]

theorem update_self : update n n = n := by
  have hversions : (update n n).versions = n.versions := TextSet.union_of_subset fun _ hx => hx
  have hfirst : (update n n).firstVersion = n.firstVersion := by
    show (n.firstVersion <|> n.firstVersion) = n.firstVersion
    cases n.firstVersion <;> rfl
  have hmetadata : (update n n).metadata = n.metadata := by
    rw [metadata_update]
    split
    · rename_i old hold
      exact TextMap.insertNew_of_contains (Option.isSome_of_mem hold) _
    · rfl
  calc update n n = { n with
        versions := (update n n).versions
        firstVersion := (update n n).firstVersion
        metadata := (update n n).metadata } := rfl
    _ = n := by rw [hversions, hfirst, hmetadata]

theorem update_latest (f : Option Node) (i : NodeId) :
    update ((latest f n).renumber i) n = (latest f n).renumber i := by
  cases f with
  | some c => exact congrArg (Node.renumber i) (update_update c n)
  | none => exact congrArg (Node.renumber i) (update_self n)

end Update

/-! ## Joining again -/

/-- A node of the graph stands for the entity and already says what the newer one would add. -/
def Settled (g : Graph) (n : Node) : Prop := ∃ c, g.entity? n.key = some c ∧ update c n = c

section Join
variable {j : Join} {n c : Node} {ns : List Node}

theorem settle_of_update_eq (hid : (ns.map (·.id)).Nodup) (hc : c ∈ ns) (h : update c n = c) :
    settle c n ns = ns := by
  refine (List.map_congr_left fun x hx => ?_).trans (List.map_id' ns)
  split
  · rename_i he
    rw [h]
    exact (List.inj_on_of_nodup_map hid hx hc he).symm
  · rfl

variable (h : Indexed j.graph.nodes j.index) (hcap : j.graph.nodes.length ≤ UInt32.size)
include h hcap

theorem joinNode_of_settled (hn : Settled j.graph n) :
    (joinNode j n).graph = j.graph ∧ (joinNode j n).index = j.index := by
  obtain ⟨c, hc, hfix⟩ := hn
  have hmem := (mem_of_entity?_eq_some hc).1
  have hl : j.index.lookup n.key = some c.id := by
    rw [h.lookup]
    exact congrArg (Option.map Node.id) hc
  have hnodes : (j.graph.modifyNode c.id (update · n)).nodes = j.graph.nodes := by
    rw [Graph.modifyNode, modify_eq_settle h.numbered hcap hmem,
      settle_of_update_eq h.numbered.nodup hmem hfix]
  rw [joinNode_of_known hl]
  exact ⟨congrArg (Graph.mk · j.graph.edges) hnodes, rfl⟩

theorem joinAll_of_settled (hns : ∀ n ∈ ns, Settled j.graph n) :
    (ns.foldl joinNode j).graph = j.graph ∧ (ns.foldl joinNode j).index = j.index := by
  induction ns generalizing j with
  | nil => exact ⟨rfl, rfl⟩
  | cons n ns ih =>
    obtain ⟨hgraph, hindex⟩ := joinNode_of_settled h hcap (hns n List.mem_cons_self)
    have hindexed : Indexed (joinNode j n).graph.nodes (joinNode j n).index := by
      rw [hgraph, hindex]
      exact h
    have hsettled : ∀ m ∈ ns, Settled (joinNode j n).graph m := by
      rw [hgraph]
      exact fun m hm => hns m (List.mem_cons_of_mem _ hm)
    obtain ⟨hgraph', hindex'⟩ := ih hindexed (hgraph ▸ hcap) hsettled
    exact ⟨hgraph'.trans hgraph, hindex'.trans hindex⟩

end Join

/-! ## Folding again -/

theorem relocated_congr {g : Graph} {ids ids' : List (NodeId × NodeId)}
    (h : ∀ e ∈ g.edges, ids.lookup e.source = ids'.lookup e.source ∧
      ids.lookup e.target = ids'.lookup e.target) :
    Merge.relocated g ids = Merge.relocated g ids' := by
  refine List.filterMap_congr fun e he => ?_
  rw [(h e he).1, (h e he).2]

section Fold
variable {a : Aggregate} {m : Merged} (h : a.Sound) (hm : Foldable m) (hfit : (a.fold m).Fits)
include h hm hfit

theorem settled_fold {n : Node} (hn : n ∈ m.graph.nodes) : Settled (a.fold m).graph n := by
  obtain ⟨i, hi⟩ := (folds_fold h.indexed hm.orderly hfit).2.joined n hn
  exact ⟨_, hi, update_latest n _ i⟩

theorem joined_fold : ((a.fold m).joined m).graph = (a.fold m).graph ∧
    ((a.fold m).joined m).index = (a.fold m).index :=
  joinAll_of_settled (h.fold hm hfit).indexed hfit fun _ hn => settled_fold h hm hfit hn

theorem relocated_fold : Merge.relocated m.graph ((a.fold m).joined m).ids =
    Merge.relocated m.graph (a.joined m).ids := by
  have hsound := h.fold hm hfit
  obtain ⟨hgraph, hindex⟩ := joined_fold h hm hfit
  have hfit₂ : ((a.fold m).fold m).Fits := by
    rw [Fits, nodes_fold]
    exact (congrArg (·.nodes.length) hgraph).trans_le hfit
  -- Both times a node goes where the index leads from its key, and that does not change any more.
  have hlookup : ∀ n ∈ m.graph.nodes,
      ((a.fold m).joined m).ids.lookup n.id = (a.joined m).ids.lookup n.id := by
    intro n hn
    obtain ⟨i, hi, hl, -⟩ := lands_fold h hm hfit hn
    obtain ⟨i₂, hi₂, hl₂, -⟩ := lands_fold hsound hm hfit₂ hn
    have hsame : ((a.fold m).fold m).index.lookup n.key = (a.fold m).index.lookup n.key :=
      congrArg (List.lookup n.key) hindex
    rw [hi, hi₂, ← hl, ← hl₂, hsame]
  refine relocated_congr fun e he => ?_
  obtain ⟨hsource, htarget⟩ := hm.anchored e he
  obtain ⟨s, hs, hse⟩ := List.mem_map.mp hsource
  obtain ⟨t, ht, hte⟩ := List.mem_map.mp htarget
  exact ⟨hse ▸ hlookup s hs, hte ▸ hlookup t ht⟩

theorem store_refold (hedges : (a.fold m).graph.EdgesFit) :
    ((a.fold m).fold m).store = (a.fold m).store := by
  have hjoined : (a.fold m).joinedStore m = (a.fold m).store :=
    congrArg (EdgeStore.mk · (a.fold m).store.seen) (joined_fold h hm hfit).1
  rw [store_fold (a.fold m), hjoined, relocated_fold h hm hfit, store_fold a]
  refine EdgeStore.insertAll_insertAll (exact_joinedStore h.exact)
    (fun d hd => anchored_relocated h hm hfit hd) ?_
  rw [← store_fold]
  exact hedges

omit h hm hfit in
theorem commits_refold : ((a.fold m).fold m).commits = (a.fold m).commits := by
  have hids := span_subset_fold a m
  have holder : recordCommit (a.fold m).commits m.span.older = (a.fold m).commits :=
    recordCommit_of_mem (hids List.mem_cons_self)
  have hnewer : recordCommit (a.fold m).commits m.span.newer = (a.fold m).commits :=
    recordCommit_of_mem (hids (List.mem_cons_of_mem _ List.mem_cons_self))
  calc ((a.fold m).fold m).commits
      = recordCommit (recordCommit (a.fold m).commits m.span.older) m.span.newer := rfl
    _ = (a.fold m).commits := by rw [holder, hnewer]

/-- A pair that is folded twice is counted twice and leaves no other trace of it. -/
theorem refold_fold (hedges : (a.fold m).graph.EdgesFit) :
    (a.fold m).fold m = { a.fold m with pairs := (a.fold m).pairs + 1 } := by
  have hcatalog : ((a.fold m).fold m).catalog = (a.fold m).catalog :=
    TextMap.fillFrom_fillFrom a.catalog m.catalog
  have hindex : ((a.fold m).fold m).index = (a.fold m).index := (joined_fold h hm hfit).2
  calc (a.fold m).fold m = { a.fold m with
        store := ((a.fold m).fold m).store
        index := ((a.fold m).fold m).index
        commits := ((a.fold m).fold m).commits
        catalog := ((a.fold m).fold m).catalog
        pairs := (a.fold m).pairs + 1 } := rfl
    _ = { a.fold m with pairs := (a.fold m).pairs + 1 } := by
      rw [store_refold h hm hfit hedges, hindex, commits_refold, hcatalog]

end Fold

/-- Whatever was folded before, folding the last pair once more only counts it again. -/
theorem refold_ofMerged {ms : List Merged} {m : Merged} (h : ∀ x ∈ ms ++ [m], x.OfParsed)
    (hfit : (ofMerged (ms ++ [m])).Fits) (hedges : (ofMerged (ms ++ [m])).graph.EdgesFit) :
    (ofMerged (ms ++ [m])).fold m =
        { ofMerged (ms ++ [m]) with pairs := (ofMerged (ms ++ [m])).pairs + 1 } ∧
      ((ofMerged (ms ++ [m])).fold m).labels = (ofMerged (ms ++ [m])).labels := by
  rw [ofMerged_snoc] at hfit hedges ⊢
  have hsound := sound_ofMerged (fun x hx => h x (List.mem_append_left _ hx)) hfit.of_fold
  have hm := foldable_of_ofParsed (h m (List.mem_append_right _ List.mem_cons_self))
  have hsame := refold_fold hsound hm hfit hedges
  refine ⟨hsame, ?_⟩
  rw [hsame]
  rfl

section Sample
open Merge (callsBefore callsAfter callsMerged parsed_calls)

/-- The renamed method is found under its former name the first time and under its new one then. -/
theorem refold_callsMerged :
    (∀ x ∈ [callsKept] ++ [callsMerged], x.OfParsed) ∧
      (ofMerged ([callsKept] ++ [callsMerged])).Fits ∧
      (ofMerged ([callsKept] ++ [callsMerged])).graph.EdgesFit ∧
      (ofMerged ([callsKept] ++ [callsMerged])).graph.edges ≠ [] ∧
      (ofMerged ([callsKept] ++ [callsMerged])).pairs = 2 ∧
      (ofMerged ([callsKept] ++ [callsMerged])).fold callsMerged =
        { ofMerged ([callsKept] ++ [callsMerged]) with pairs := 3 } := by
  have hparsed : ∀ x ∈ [callsKept] ++ [callsMerged], x.OfParsed := by
    have hkept : callsKept.OfParsed := ⟨_, _, _, _, _, parsed_calls _ _, parsed_calls _ _, rfl⟩
    have hmerged : callsMerged.OfParsed := ⟨_, _, _, _, _, parsed_calls _ _, parsed_calls _ _, rfl⟩
    simpa using And.intro hkept hmerged
  have hfit : (ofMerged ([callsKept] ++ [callsMerged])).Fits := by
    unfold Fits
    decide +kernel
  have hedges : (ofMerged ([callsKept] ++ [callsMerged])).graph.EdgesFit := by decide +kernel
  exact ⟨hparsed, hfit, hedges, by decide +kernel, rfl, (refold_ofMerged hparsed hfit hedges).1⟩

end Sample

end Aggregate

end Lineage
