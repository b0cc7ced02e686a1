import Lineage.Proofs.Rekey
import Mathlib
/-! # Greedy choice of rekeys

Of the operations that propose a rekey, matching accepts the greedy choice: one that is left out
shares a method with an accepted one that is ranked before it. There is only one such choice, and
the order of the operations decides nothing unless two proposals are otherwise ranked alike. Main
statements: `candidate?_eq_some_iff`, `IsGreedy.eq`, `isGreedy_chosen`, `selectsGreedily_ofGraphs`.
-/
namespace Lineage.Rekey

open Refactoring (Operation Location resolve? target?)
open Index (ofGraph)

/-! ## Proposals -/

def PointsAt (g : Graph) (l : Location) (i : NodeId) (key : String) : Prop :=
  ∃ n ∈ g.nodes, resolve? g l (some .method) = some (.found n.id) ∧
    g.findKey? n.key = some i ∧ n.qualifiedName = key

theorem endpoint?_eq_some_iff {g : Graph} (hg : g.Built) {l : Location} {i : NodeId}
    {t : String} : endpoint? g (ofGraph g) l = some (i, t) ↔ PointsAt g l i t := by
  -- the canonical node of a method has the method's key, whatever has collided with it
  have hcanonical : ∀ {n : Node} {c : NodeId}, n ∈ g.nodes → n.kind = .method →
      (ofGraph g).canonical? n.id = some c → g.findKey? n.key = some c ∧
        ∃ m, (ofGraph g).node? c = some m ∧ m.keyText = n.qualifiedName := by
    intro n c hn hkind hc
    obtain ⟨e, he, rfl, hkey⟩ := Index.exists_entity_of_canonical? hg hn hc
    have hmethod : n.key = ⟨.method, n.qualifiedName⟩ := by simp [Node.key, Node.keyText, hkind]
    have hnode : e.node.key = e.key :=
      Index.key_node_ofNodes he (by rw [hkey, hmethod]; simp)
    refine ⟨hkey ▸ Index.findKey?_key_ofGraph he, e.node, Index.node?_ofGraph hg he, ?_⟩
    exact congrArg EntityKey.text (hnode.trans (hkey.trans hmethod))
  simp only [endpoint?, bind, Option.bind_eq_some_iff, pure, Option.some.injEq, Prod.mk.injEq]
  constructor
  · rintro ⟨j, hj, c, hc, m, hm, rfl, rfl⟩
    obtain ⟨n, hn, rfl, hkind⟩ := Refactoring.exists_of_target? hj
    obtain ⟨hfind, m', hm', htext⟩ :=
      hcanonical hn (by simpa [Refactoring.kindMatches] using hkind) hc
    obtain rfl := Option.some.inj (hm.symm.trans hm')
    refine ⟨n, hn, ?_, hfind, htext.symm⟩
    obtain ⟨r, hr, hr'⟩ := Option.bind_eq_some_iff.mp hj
    cases r <;> cases hr'
    exact hr
  · rintro ⟨n, hn, hr, hfind, rfl⟩
    have hj : target? g l (some .method) = some n.id := by rw [target?, hr]; rfl
    obtain ⟨m, hm, hid, hkind⟩ := Refactoring.exists_of_target? hj
    obtain rfl := List.inj_on_of_nodup_map hg.ids_nodup hm hn hid
    obtain ⟨c, -, hc⟩ := Index.exists_canonical? hn
    obtain ⟨hfind', m', hm', htext⟩ :=
      hcanonical hn (by simpa [Refactoring.kindMatches] using hkind) hc
    obtain rfl := Option.some.inj (hfind.symm.trans hfind')
    exact ⟨m.id, hj, i, hc, m', hm', rfl, htext⟩

/-- The operation gives a method a new key: its first locations point at the methods that the
candidate names, whose old key is gone in the newer version and new one unknown in the older. -/
structure Proposes (v1 v2 : Graph) (op : Operation) (c : Candidate) : Prop where
  rekeysMethod : op.kind.rekeysMethod = true
  before : ∃ l, op.before.head? = some l ∧ PointsAt v1 l c.rekey.v1 c.rekey.oldKey ∧
    c.path = l.filePath ∧ c.line = l.startLine
  after : ∃ l, op.after.head? = some l ∧ PointsAt v2 l c.rekey.v2 c.rekey.newKey
  changed : c.rekey.oldKey ≠ c.rekey.newKey
  gone : c.rekey.older ∉ v2.keys
  unknown : c.rekey.newer ∉ v1.keys
  kind : c.rekey.operation = op.kind
  confidence : c.confidence = op.confidence

def Eligible (v1 v2 : Graph) (ops : List Operation) (c : Candidate) : Prop :=
  ∃ op, ops[c.order]? = some op ∧ Proposes v1 v2 op c

theorem isNone_lookup?_iff {g : Graph} {k : EntityKey} :
    ((ofGraph g).lookup? k).isNone ↔ k ∉ g.keys := by
  rw [Index.lookup?_ofGraph, Option.isNone_iff_eq_none, Graph.findKey?, Option.map_eq_none_iff]
  exact find?_key_eq_none_iff

section Candidates
variable {v1 v2 : Graph} (h1 : v1.Built) (h2 : v2.Built)
include h1 h2

theorem candidate?_eq_some_iff {op : Operation} {i : Nat} {c : Candidate} :
    candidate? v1 v2 (ofGraph v1) (ofGraph v2) op i = some c ↔
      Proposes v1 v2 op c ∧ c.order = i := by
  simp only [candidate?, bind, Option.bind_eq_some_iff, pure, Option.some.injEq,
    Option.guard_eq_some', isNone_lookup?_iff, Prod.exists, endpoint?_eq_some_iff h1,
    endpoint?_eq_some_iff h2]
  constructor
  · rintro ⟨-, hkind, before, hbefore, after, hafter, old, oldKey, hold, new, newKey, hnew, -,
      hchanged, -, hgone, -, hunknown, rfl⟩
    exact ⟨⟨hkind, ⟨before, hbefore, hold, rfl, rfl⟩, ⟨after, hafter, hnew⟩, hchanged, hgone,
      hunknown, rfl, rfl⟩, rfl⟩
  · rintro ⟨⟨hkind, ⟨before, hbefore, hold, hpath, hline⟩, ⟨after, hafter, hnew⟩, hchanged, hgone,
      hunknown, hop, hconfidence⟩, horder⟩
    refine ⟨(), hkind, before, hbefore, after, hafter, _, _, hold, _, _, hnew, (), hchanged, (),
      hgone, (), hunknown, ?_⟩
    rw [← hpath, ← hline, ← hop, ← hconfidence, ← horder]

theorem mem_candidates_iff {ops : List Operation} {c : Candidate} :
    c ∈ candidates v1 v2 (ofGraph v1) (ofGraph v2) ops ↔ Eligible v1 v2 ops c := by
  simp only [candidates, List.mem_filterMap, List.mem_mapIdx, id_eq, Eligible,
    List.getElem?_eq_some_iff]
  constructor
  · rintro ⟨_, ⟨i, hi, rfl⟩, hc⟩
    obtain ⟨hp, rfl⟩ := (candidate?_eq_some_iff h1 h2).mp hc
    exact ⟨ops[c.order], ⟨hi, rfl⟩, hp⟩
  · rintro ⟨_, ⟨hi, rfl⟩, hp⟩
    exact ⟨_, ⟨c.order, hi, rfl⟩, (candidate?_eq_some_iff h1 h2).mpr ⟨hp, rfl⟩⟩

end Candidates

/-! ## Ranks -/

def Candidate.weight (c : Candidate) : ℤ ×ₗ String ×ₗ ℕ :=
  toLex (-c.confidence.position, toLex (c.path, c.line.toNat))

/-- Among equal weights the earlier operation comes first. -/
def Candidate.rank (c : Candidate) : (ℤ ×ₗ String ×ₗ ℕ) ×ₗ ℕ := toLex (c.weight, c.order)

/-- The first candidate is ranked before the second. -/
def Precedes (a b : Candidate) : Prop := a.rank < b.rank

instance : Std.Irrefl Precedes := ⟨fun _ => lt_irrefl _⟩

instance : Std.Asymm Precedes := ⟨fun _ _ => lt_asymm⟩

theorem before_iff {a b : Candidate} : a.before b ↔ a.rank ≤ b.rank := by
  simp only [Candidate.before, Candidate.rank, Candidate.weight, Prod.Lex.toLex_le_toLex,
    Prod.Lex.toLex_lt_toLex, EmbeddingLike.apply_eq_iff_eq, Prod.mk.injEq, Int.neg_lt_neg_iff,
    Int.neg_inj, Confidence.lt_iff, UInt32.lt_iff_toNat_lt, UInt32.toNat_inj]
  split_ifs with hc hp hl
  · simp [hc]
  · simp [not_not.mp hc, hp]
  · simp [not_not.mp hc, not_not.mp hp, hl]
  · simp [not_not.mp hc, not_not.mp hp, not_not.mp hl]

/-! ## Greedy choices -/

def Clash (a b : Candidate) : Prop := a.rekey.v1 = b.rekey.v1 ∨ a.rekey.v2 = b.rekey.v2

instance (a b : Candidate) : Decidable (Clash a b) :=
  inferInstanceAs (Decidable (a.rekey.v1 = b.rekey.v1 ∨ a.rekey.v2 = b.rekey.v2))

/-- A greedy choice among some candidates, best ranked first: it has each method at most once, and
what is left out clashes with something better. -/
structure IsGreedy (P : Candidate → Prop) (chosen : List Candidate) : Prop where
  eligible : ∀ c ∈ chosen, P c
  ranked : chosen.Pairwise Precedes
  v1_nodup : (chosen.map (·.rekey.v1)).Nodup
  v2_nodup : (chosen.map (·.rekey.v2)).Nodup
  blocked : ∀ c, P c → c ∉ chosen → ∃ a ∈ chosen, Precedes a c ∧ Clash a c

namespace IsGreedy
variable {P : Candidate → Prop} {xs ys : List Candidate}

theorem eq_of_clash (h : IsGreedy P xs) {a c : Candidate} (ha : a ∈ xs) (hc : c ∈ xs)
    (hac : Clash a c) : a = c :=
  hac.elim (List.inj_on_of_nodup_map h.v1_nodup ha hc) (List.inj_on_of_nodup_map h.v2_nodup ha hc)

/-- What only one of two choices has is left out of the other for something better, which the first
one must have left out in turn. -/
theorem exists_better (hx : IsGreedy P xs) (hy : IsGreedy P ys) {c : Candidate} (hc : c ∈ xs)
    (hcy : c ∉ ys) : ∃ a ∈ ys, a ∉ xs ∧ Precedes a c := by
  obtain ⟨a, ha, hac, hclash⟩ := hy.blocked c (hx.eligible c hc) hcy
  refine ⟨a, ha, fun hax => ?_, hac⟩
  obtain rfl := hx.eq_of_clash hax hc hclash
  exact lt_irrefl _ hac

/-- A greedy choice is determined by what it chooses from. -/
theorem eq (hx : IsGreedy P xs) (hy : IsGreedy P ys) : xs = ys := by
  -- the best ranked candidate on which the two differ would be preceded by another one
  have hsame : ∀ c, c ∈ xs ↔ c ∈ ys := by
    by_contra hne
    obtain ⟨c, hc⟩ := not_forall.mp hne
    let apart := (xs ++ ys).toFinset.filter fun c => ¬(c ∈ xs ↔ c ∈ ys)
    have hapart : apart.Nonempty := ⟨c, by simp only [apart, Finset.mem_filter]; simp; tauto⟩
    obtain ⟨b, hb, hleast⟩ := apart.exists_min_image Candidate.rank hapart
    have hbetter : ∀ a, a ∈ xs ++ ys → ¬(a ∈ xs ↔ a ∈ ys) → ¬Precedes a b := fun a ha hd =>
      not_lt.mpr (hleast a (by simpa [apart, hd] using ha))
    have hdiff : ¬(b ∈ xs ↔ b ∈ ys) := (Finset.mem_filter.mp hb).2
    by_cases hbx : b ∈ xs
    · obtain ⟨a, hay, hax, hab⟩ := hx.exists_better hy hbx (by tauto)
      exact hbetter a (List.mem_append_right _ hay) (by tauto) hab
    · obtain ⟨a, hax, hay, hab⟩ := hy.exists_better hx (by tauto) hbx
      exact hbetter a (List.mem_append_left _ hax) (by tauto) hab
  exact hx.ranked.eq_of_mem_iff hy.ranked hsame

end IsGreedy

/-! ## The scan -/

/-- `accept` on candidates, which keeps what they are ranked by. -/
def choose (chosen : List Candidate) (c : Candidate) : List Candidate :=
  if ∃ a ∈ chosen, Clash a c then chosen else chosen ++ [c]

theorem map_rekey_choose (xs : List Candidate) (c : Candidate) :
    accept (xs.map (·.rekey)) c.rekey = (choose xs c).map (·.rekey) := by
  have hany : ((xs.map (·.rekey)).any fun a => a.v1 = c.rekey.v1 || a.v2 = c.rekey.v2) ↔
      ∃ a ∈ xs, Clash a c := by
    simp [Clash]
  simp only [accept, choose, hany]
  split
  · rfl
  · simp

def chosen (cs : List Candidate) : List Candidate := (cs.mergeSort Candidate.before).foldl choose []

theorem select_eq_map_chosen (cs : List Candidate) : select cs = (chosen cs).map (·.rekey) := by
  change (cs.mergeSort Candidate.before).foldl (fun acc c => accept acc c.rekey)
    (List.map Candidate.rekey []) = _
  exact List.foldl_hom _ map_rekey_choose

theorem IsGreedy.choose {seen xs : List Candidate} {c : Candidate} (h : IsGreedy (· ∈ seen) xs)
    (hc : ∀ a ∈ seen, Precedes a c) : IsGreedy (· ∈ seen ++ [c]) (Rekey.choose xs c) := by
  unfold Rekey.choose
  split
  · rename_i hclash
    obtain ⟨a, ha, hac⟩ := hclash
    refine ⟨fun d hd => List.mem_append_left _ (h.eligible d hd), h.ranked, h.v1_nodup, h.v2_nodup,
      fun d hd hdx => ?_⟩
    rcases List.mem_append.mp hd with hd | hd
    · exact h.blocked d hd hdx
    · rw [List.mem_singleton.mp hd]
      exact ⟨a, ha, hc a (h.eligible a ha), hac⟩
  · rename_i hfree
    have hne : ∀ a ∈ xs, a.rekey.v1 ≠ c.rekey.v1 ∧ a.rekey.v2 ≠ c.rekey.v2 :=
      fun a ha => not_or.mp fun hac => hfree ⟨a, ha, hac⟩
    refine ⟨fun d hd => ?_, ?_, ?_, ?_, fun d hd hdx => ?_⟩
    · exact (List.mem_append.mp hd).elim (fun hd => List.mem_append_left _ (h.eligible d hd))
        (List.mem_append_right _)
    · exact List.pairwise_append.mpr ⟨h.ranked, List.pairwise_singleton _ _, fun a ha b hb =>
        List.mem_singleton.mp hb ▸ hc a (h.eligible a ha)⟩
    · rw [List.map_append]
      exact h.v1_nodup.append (List.nodup_singleton _) (by simpa using fun a ha => (hne a ha).1)
    · rw [List.map_append]
      exact h.v2_nodup.append (List.nodup_singleton _) (by simpa using fun a ha => (hne a ha).2)
    · rw [List.mem_append, not_or] at hdx
      have hseen : d ∈ seen := (List.mem_append.mp hd).resolve_right hdx.2
      obtain ⟨a, ha, had⟩ := h.blocked d hseen hdx.1
      exact ⟨a, List.mem_append_left _ ha, had⟩

theorem isGreedy_foldl {cs : List Candidate} (h : cs.Pairwise Precedes) :
    IsGreedy (· ∈ cs) (cs.foldl choose []) := by
  induction cs using List.reverseRecOn with
  | nil => exact ⟨nofun, .nil, .nil, .nil, nofun⟩
  | append_singleton cs c ih =>
    obtain ⟨hcs, -, hc⟩ := List.pairwise_append.mp h
    rw [List.foldl_append]
    exact (ih hcs).choose fun a ha => hc a ha c List.mem_cons_self

theorem pairwise_rank_mergeSort (cs : List Candidate) :
    (cs.mergeSort Candidate.before).Pairwise fun a b => a.rank ≤ b.rank := by
  refine (List.pairwise_mergeSort (fun a b c hab hbc => ?_) (fun a b => ?_) cs).imp before_iff.mp
  · exact before_iff.mpr ((before_iff.mp hab).trans (before_iff.mp hbc))
  · simpa [before_iff] using le_total a.rank b.rank

theorem isGreedy_chosen {cs : List Candidate} (h : (cs.map (·.order)).Nodup) :
    IsGreedy (· ∈ cs) (chosen cs) := by
  have hdistinct : (cs.mergeSort Candidate.before).Pairwise fun a b => a.order ≠ b.order :=
    List.pairwise_map.mp (((List.mergeSort_perm cs _).map _).nodup_iff.mpr h)
  have hsorted : (cs.mergeSort Candidate.before).Pairwise Precedes :=
    (pairwise_rank_mergeSort cs).imp₂ (fun _ _ hle hne => hle.lt_of_ne fun he =>
      hne (Prod.mk.inj (toLex.injective he)).2) hdistinct
  have hgreedy := isGreedy_foldl hsorted
  simp only [List.mem_mergeSort] at hgreedy
  exact hgreedy

/-! ## Another order of the operations -/

section Order
variable {v1 v2 : Graph} {x1 x2 : Index}

theorem candidate?_eq_map (op : Operation) (i : Nat) :
    candidate? v1 v2 x1 x2 op i =
      (candidate? v1 v2 x1 x2 op 0).map fun c => { c with order := i } := by
  simp only [candidate?, bind, pure, Option.map_bind, Function.comp_def, Option.map_some]

theorem candidates_eq_filterMap (ops : List Operation) :
    candidates v1 v2 x1 x2 ops = ops.zipIdx.filterMap fun p => candidate? v1 v2 x1 x2 p.1 p.2 := by
  rw [candidates, List.mapIdx_eq_zipIdx_map, List.filterMap_map]
  rfl

variable (v1 v2 x1 x2) in
theorem orders_nodup (ops : List Operation) :
    ((candidates v1 v2 x1 x2 ops).map (·.order)).Nodup := by
  have hplace : ∀ (p : Operation × Nat) c, candidate? v1 v2 x1 x2 p.1 p.2 = some c →
      c.order = p.2 := by
    intro p c hc
    rw [candidate?_eq_map] at hc
    obtain ⟨d, -, rfl⟩ := Option.map_eq_some_iff.mp hc
    rfl
  have hrange : (ops.zipIdx.map (·.2)).Nodup := by
    rw [List.zipIdx_map_snd]
    exact List.nodup_range'
  rw [candidates_eq_filterMap]
  exact hrange.sublist (map_filterMap_sublist hplace ops.zipIdx)

/-- A candidate without its place in the list of operations. -/
def Candidate.unplaced (c : Candidate) : (ℤ ×ₗ String ×ₗ ℕ) × Rekey := (c.weight, c.rekey)

theorem unplaced_candidates (ops : List Operation) :
    (candidates v1 v2 x1 x2 ops).map Candidate.unplaced =
      ops.filterMap fun op => (candidate? v1 v2 x1 x2 op 0).map Candidate.unplaced := by
  have hplace : ∀ p : Operation × Nat, (candidate? v1 v2 x1 x2 p.1 p.2).map Candidate.unplaced =
      (candidate? v1 v2 x1 x2 p.1 0).map Candidate.unplaced := by
    intro p
    rw [candidate?_eq_map, Option.map_map]
    rfl
  calc (candidates v1 v2 x1 x2 ops).map Candidate.unplaced
      = ops.zipIdx.filterMap fun p =>
          (candidate? v1 v2 x1 x2 p.1 0).map Candidate.unplaced := by
        rw [candidates_eq_filterMap, List.map_filterMap]
        simp only [hplace]
    _ = (ops.zipIdx.map Prod.fst).filterMap fun op =>
          (candidate? v1 v2 x1 x2 op 0).map Candidate.unplaced := by
        rw [List.filterMap_map]
        rfl
    _ = _ := by rw [List.zipIdx_map_fst]

theorem pairwise_weight_mergeSort {cs : List Candidate} (h : (cs.map Candidate.weight).Nodup) :
    ((cs.mergeSort Candidate.before).map Candidate.unplaced).Pairwise fun a b => a.1 < b.1 := by
  have hdistinct : (cs.mergeSort Candidate.before).Pairwise fun a b => a.weight ≠ b.weight :=
    List.pairwise_map.mp (((List.mergeSort_perm cs _).map _).nodup_iff.mpr h)
  refine List.pairwise_map.mpr ((pairwise_rank_mergeSort cs).imp₂ (fun a b hle hne => ?_) hdistinct)
  rcases Prod.Lex.toLex_le_toLex.mp hle with hlt | ⟨heq, -⟩
  · exact hlt
  · exact absurd heq hne

/-- Candidates of distinct weights are selected from alike wherever they stand. -/
theorem select_eq_of_perm {cs ds : List Candidate} (hw : (cs.map Candidate.weight).Nodup)
    (h : (ds.map Candidate.unplaced).Perm (cs.map Candidate.unplaced)) : select ds = select cs := by
  have hselect : ∀ es, select es =
      (((es.mergeSort Candidate.before).map Candidate.unplaced).map (·.2)).foldl accept [] := by
    intro es
    rw [List.map_map, List.foldl_map]
    rfl
  have hwd : (ds.map Candidate.weight).Nodup := by
    have hp := h.map (·.1)
    rw [List.map_map, List.map_map] at hp
    exact hp.nodup_iff.mpr hw
  have hsorted : ((ds.mergeSort Candidate.before).map Candidate.unplaced).Perm
      ((cs.mergeSort Candidate.before).map Candidate.unplaced) :=
    ((List.mergeSort_perm ds _).map _).trans (h.trans ((List.mergeSort_perm cs _).map _).symm)
  rw [hselect, hselect, hsorted.eq_of_pairwise (fun a b _ _ hab hba => absurd hba (lt_asymm hab))
    (pairwise_weight_mergeSort hwd) (pairwise_weight_mergeSort hw)]

end Order

/-! ## Matching -/

/-- No two of the eligible operations agree in confidence, path and line. -/
def RankedApart (v1 v2 : Graph) (ops : List Operation) : Prop :=
  ∀ c d, Eligible v1 v2 ops c → Eligible v1 v2 ops d → c.weight = d.weight → c.order = d.order

/-- The rekeys are the only greedy choice among the eligible operations, and another order of
operations that are ranked apart changes nothing. -/
structure SelectsGreedily (v1 v2 : Graph) (ops : List Operation) : Prop where
  greedy : ∃ chosen, (∀ xs, IsGreedy (Eligible v1 v2 ops) xs ↔ xs = chosen) ∧
    (Matching.ofGraphs v1 v2 ops).rekeys = chosen.map (·.rekey)
  perm : RankedApart v1 v2 ops → ∀ others, others.Perm ops →
    Matching.ofGraphs v1 v2 others = Matching.ofGraphs v1 v2 ops

theorem selectsGreedily_ofGraphs {v1 v2 : Graph} (h1 : v1.Built) (h2 : v2.Built)
    (ops : List Operation) : SelectsGreedily v1 v2 ops where
  greedy := by
    have hgreedy := isGreedy_chosen (orders_nodup v1 v2 (ofGraph v1) (ofGraph v2) ops)
    simp only [mem_candidates_iff h1 h2] at hgreedy
    exact ⟨_, fun xs => ⟨fun hx => hx.eq hgreedy, fun he => he ▸ hgreedy⟩,
      select_eq_map_chosen (candidates v1 v2 (ofGraph v1) (ofGraph v2) ops)⟩
  perm hapart others hperm := by
    have horders := orders_nodup v1 v2 (ofGraph v1) (ofGraph v2) ops
    have hweights : ((candidates v1 v2 (ofGraph v1) (ofGraph v2) ops).map Candidate.weight).Nodup :=
      (List.Nodup.of_map _ horders).map_on fun c hc d hd hcd =>
        List.inj_on_of_nodup_map horders hc hd
          (hapart c d ((mem_candidates_iff h1 h2).mp hc) ((mem_candidates_iff h1 h2).mp hd) hcd)
    have hselect : select (candidates v1 v2 (ofGraph v1) (ofGraph v2) others) =
        select (candidates v1 v2 (ofGraph v1) (ofGraph v2) ops) := by
      refine select_eq_of_perm hweights ?_
      rw [unplaced_candidates, unplaced_candidates]
      exact hperm.filterMap _
    simp only [Matching.ofGraphs, hselect]

section Sample

def moved (line line' : UInt32) (confidence : Confidence) : Operation where
  kind := .moveMethod
  before := [{ filePath := "A.java", startLine := line, endLine := line + 2 }]
  after := [{ filePath := "A.java", startLine := line', endLine := line' + 2 }]
  confidence := confidence

def methodsBefore : Graph := .ofMethods [("foo", 3), ("bar", 10)]

def methodsAfter : Graph := .ofMethods [("qux", 3), ("quux", 10)]

def rivals : List Operation :=
  [moved 3 3 ⟨false, 90⟩, moved 10 3 ⟨false, 80⟩, moved 10 10 .one, moved 3 10 .one]

/-- The equally sure operation on the earlier method wins, and what it leaves to the later one is
the least sure of all. -/
theorem selectsGreedily_rivals : methodsBefore.Built ∧ methodsAfter.Built ∧
    ((Matching.ofGraphs methodsBefore methodsAfter rivals).rekeys.map fun r =>
      (r.oldKey, r.newKey)) = [("A#foo()", "A#quux()"), ("A#bar()", "A#qux()")] ∧
    SelectsGreedily methodsBefore methodsAfter rivals := by
  have h1 : methodsBefore.Built := Graph.built_ofLists _ _
  have h2 : methodsAfter.Built := Graph.built_ofLists _ _
  exact ⟨h1, h2, by cbv, selectsGreedily_ofGraphs h1 h2 rivals⟩

end Sample

end Lineage.Rekey
