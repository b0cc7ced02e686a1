import Lineage.Matching
import Lineage.Proofs.Index
import Lineage.Proofs.Resolve
import Mathlib.Data.Option.Basic
/-! # Accepted rekeys

Every accepted rekey leads from a method whose key is gone in the newer version to one whose key is
new in it, and no two of them share a method on either side. Main statements:
`valid_of_mem_candidates`, `select_invariant`, `admissible_select`.
-/
namespace Lineage

open Refactoring (Operation Location)
open Index (ofGraph)

namespace Refactoring

theorem mem_of_pick {l : Location} {cs : List Node} {i : NodeId}
    (h : (pick l cs).node? = some i) : ∃ n ∈ cs, n.id = i := by
  unfold pick at h
  split at h
  · cases h
  · rename_i n hn
    cases h
    have hmem : n ∈ nearest l (pool l cs) := hn ▸ List.mem_cons_self
    rw [pool_eq_preferred] at hmem
    exact ⟨n, (preferred_sublist l cs).subset (List.mem_filter.mp hmem).1, rfl⟩
  · cases h

/-- A location is resolved to a node of the graph that has the kind asked for. -/
theorem exists_of_target? {g : Graph} {l : Location} {hint : Option NodeKind} {i : NodeId}
    (h : target? g l hint = some i) : ∃ n ∈ g.nodes, n.id = i ∧ kindMatches hint n.kind := by
  obtain ⟨r, hr, hi⟩ := Option.bind_eq_some_iff.mp h
  rw [resolve?, resolveBy_eq] at hr
  split at hr
  · cases hr
    cases hi
  · split at hr
    · cases hr
    · cases hr
      obtain ⟨n, hn, rfl⟩ := mem_of_pick hi
      obtain ⟨hn, hkind, -⟩ := mem_compared_iff.mp (List.mem_filter.mp hn).1
      exact ⟨n, hn, rfl, hkind⟩

end Refactoring

namespace Rekey

def older (r : Rekey) : EntityKey := ⟨.method, r.oldKey⟩

def newer (r : Rekey) : EntityKey := ⟨.method, r.newKey⟩

/-- Both methods exist, and neither key exists on the other side. -/
structure Valid (x1 x2 : Index) (r : Rekey) : Prop where
  old : ∃ e ∈ x1.entities, e.key = r.older ∧ e.id = r.v1
  new : ∃ e ∈ x2.entities, e.key = r.newer ∧ e.id = r.v2
  gone : ∀ e ∈ x2.entities, e.key ≠ r.older
  unknown : ∀ e ∈ x1.entities, e.key ≠ r.newer

section Candidates
variable {v1 v2 : Graph}

theorem mem_of_endpoint? {g : Graph} (hg : g.WellFormed) {l : Location} {i : NodeId} {t : String}
    (h : endpoint? g (ofGraph g) l = some (i, t)) :
    ∃ e ∈ (ofGraph g).entities, e.key = ⟨.method, t⟩ ∧ e.id = i := by
  simp only [endpoint?, bind, Option.bind_eq_some_iff, pure, Option.some.injEq, Prod.mk.injEq] at h
  obtain ⟨j, hj, c, hc, n, hn, rfl, rfl⟩ := h
  obtain ⟨m, hm, rfl, hkind⟩ := Refactoring.exists_of_target? hj
  obtain ⟨e, he, hkey, rfl⟩ := (hg.canonical?_eq_some_iff hm).mp hc
  obtain ⟨d, hd, hid, rfl⟩ := hg.node?_eq_some_iff.mp hn
  obtain rfl := hg.entity_eq_of_id hd he hid
  have hnode := hg.isIndexOf.key_node d hd
  refine ⟨d, hd, ?_, rfl⟩
  have hm' : m.kind = .method := by simpa [Refactoring.kindMatches] using hkind
  have hk : d.key.kind = .method := by rw [hkey, ← hm']; rfl
  rw [← hk, ← hnode]
  rfl

theorem valid_of_candidate? (h1 : v1.WellFormed) (h2 : v2.WellFormed) {op : Operation} {i : Nat}
    {c : Candidate} (h : candidate? v1 v2 (ofGraph v1) (ofGraph v2) op i = some c) :
    c.rekey.Valid (ofGraph v1) (ofGraph v2) := by
  simp only [candidate?, bind, Option.bind_eq_some_iff, pure, Option.some.injEq,
    Option.guard_eq_some'] at h
  obtain ⟨_, _, before, _, after, _, ⟨old, oldKey⟩, hold, ⟨new, newKey⟩, hnew, _, _, _, hgone, _,
    hunknown, rfl⟩ := h
  have hmiss : ∀ {g : Graph} {k : EntityKey}, ((ofGraph g).lookup? k).isNone →
      ∀ e ∈ (ofGraph g).entities, e.key ≠ k := by
    intro g k hk e he hek
    simp only [Index.lookup?, Option.isNone_map, Option.isNone_iff_eq_none] at hk
    exact find?_key_eq_none_iff.mp hk (List.mem_map.mpr ⟨e, he, hek⟩)
  exact ⟨mem_of_endpoint? h1 hold, mem_of_endpoint? h2 hnew, hmiss hgone, hmiss hunknown⟩

theorem valid_of_mem_candidates (h1 : v1.WellFormed) (h2 : v2.WellFormed) {ops : List Operation}
    {c : Candidate} (h : c ∈ candidates v1 v2 (ofGraph v1) (ofGraph v2) ops) :
    c.rekey.Valid (ofGraph v1) (ofGraph v2) := by
  obtain ⟨a, ha, hc⟩ := List.mem_filterMap.mp h
  obtain ⟨i, _, rfl⟩ := List.mem_mapIdx.mp ha
  exact valid_of_candidate? h1 h2 hc

end Candidates

section Selection

theorem accept_cases (accepted : List Rekey) (r : Rekey) :
    ((∃ a ∈ accepted, a.v1 = r.v1 ∨ a.v2 = r.v2) ∧ accept accepted r = accepted) ∨
      ((∀ a ∈ accepted, a.v1 ≠ r.v1 ∧ a.v2 ≠ r.v2) ∧ accept accepted r = accepted ++ [r]) := by
  unfold accept
  split
  · rename_i h
    obtain ⟨a, ha, hr⟩ := List.any_eq_true.mp h
    exact .inl ⟨⟨a, ha, by simpa using hr⟩, rfl⟩
  · rename_i h
    refine .inr ⟨fun a ha => ?_, rfl⟩
    simpa using mt (fun hr => List.any_eq_true.mpr ⟨a, ha, hr⟩) h

def Disjoint (rs : List Rekey) : Prop := (rs.map (·.v1)).Nodup ∧ (rs.map (·.v2)).Nodup

theorem Disjoint.accept {rs : List Rekey} (h : Disjoint rs) (r : Rekey) :
    Disjoint (Rekey.accept rs r) := by
  rcases accept_cases rs r with ⟨-, he⟩ | ⟨hne, he⟩
  · rwa [he]
  · rw [he]
    refine ⟨?_, ?_⟩
    · rw [List.map_append]
      exact h.1.append (List.nodup_singleton _) (by simpa using fun a ha => (hne a ha).1)
    · rw [List.map_append]
      exact h.2.append (List.nodup_singleton _) (by simpa using fun a ha => (hne a ha).2)

theorem mem_of_mem_accept {rs : List Rekey} {r a : Rekey} (h : a ∈ accept rs r) : a ∈ rs ∨ a = r := by
  rcases accept_cases rs r with ⟨-, he⟩ | ⟨-, he⟩
  · exact .inl (he ▸ h)
  · rcases List.mem_append.mp (he ▸ h) with ha | ha
    · exact .inl ha
    · exact .inr (List.mem_singleton.mp ha)

theorem foldl_accept_invariant {P : Rekey → Prop} {cs : List Candidate} {rs : List Rekey}
    (hP : ∀ c ∈ cs, P c.rekey) (hd : Disjoint rs) (hrs : ∀ r ∈ rs, P r) :
    Disjoint (cs.foldl (fun acc c => accept acc c.rekey) rs) ∧
      ∀ r ∈ cs.foldl (fun acc c => accept acc c.rekey) rs, P r := by
  induction cs generalizing rs with
  | nil => exact ⟨hd, hrs⟩
  | cons c cs ih =>
    refine ih (fun e he => hP e (List.mem_cons_of_mem _ he)) (hd.accept c.rekey) ?_
    intro r hr
    rcases mem_of_mem_accept hr with hr | rfl
    · exact hrs r hr
    · exact hP c List.mem_cons_self

/-- What holds of all candidates holds of those selected, and these are disjoint. -/
theorem select_invariant {P : Rekey → Prop} {cs : List Candidate} (hP : ∀ c ∈ cs, P c.rekey) :
    Disjoint (select cs) ∧ ∀ r ∈ select cs, P r := by
  have hsorted : ∀ c ∈ cs.mergeSort Candidate.before, P c.rekey :=
    fun c hc => hP c (List.mem_mergeSort.mp hc)
  have hnil : Disjoint [] := ⟨.nil, .nil⟩
  exact foldl_accept_invariant hsorted hnil fun r hr => absurd hr List.not_mem_nil

end Selection

/-- The operation keeps a method, and its first locations point at what it was and what it is now. -/
structure ProposedBy (v1 v2 : Graph) (r : Rekey) (op : Operation) : Prop where
  kind : op.kind = r.operation
  rekeysMethod : op.kind.rekeysMethod = true
  before : ∃ l, op.before.head? = some l ∧ endpoint? v1 (ofGraph v1) l = some (r.v1, r.oldKey)
  after : ∃ l, op.after.head? = some l ∧ endpoint? v2 (ofGraph v2) l = some (r.v2, r.newKey)

theorem exists_proposedBy {v1 v2 : Graph} {ops : List Operation} {r : Rekey}
    (hr : r ∈ select (candidates v1 v2 (ofGraph v1) (ofGraph v2) ops)) :
    ∃ op ∈ ops, r.ProposedBy v1 v2 op := by
  refine (select_invariant (P := fun r => ∃ op ∈ ops, r.ProposedBy v1 v2 op) fun c hc => ?_).2 r hr
  obtain ⟨a, ha, hca⟩ := List.mem_filterMap.mp hc
  obtain ⟨i, hi, rfl⟩ := List.mem_mapIdx.mp ha
  simp only [id_eq, candidate?, bind, Option.bind_eq_some_iff, pure, Option.some.injEq,
    Option.guard_eq_some'] at hca
  obtain ⟨_, hkind, before, hbefore, after, hafter, ⟨old, oldKey⟩, hold, ⟨new, newKey⟩, hnew, -, -,
    -, -, -, -, rfl⟩ := hca
  exact ⟨ops[i], List.getElem_mem hi, rfl, hkind, ⟨before, hbefore, hold⟩, ⟨after, hafter, hnew⟩⟩

/-- What matching relies on: valid rekeys of which no two share a method. -/
structure Admissible (x1 x2 : Index) (rs : List Rekey) : Prop where
  valid : ∀ r ∈ rs, r.Valid x1 x2
  disjoint : Disjoint rs

theorem Admissible.left {x1 x2 : Index} {rs ss : List Rekey} (h : Admissible x1 x2 (rs ++ ss)) :
    Admissible x1 x2 rs where
  valid r hr := h.valid r (List.mem_append_left _ hr)
  disjoint := by
    have hd := h.disjoint
    simp only [Disjoint, List.map_append] at hd
    exact ⟨hd.1.of_append_left, hd.2.of_append_left⟩

theorem admissible_select {v1 v2 : Graph} (h1 : v1.WellFormed) (h2 : v2.WellFormed)
    (ops : List Operation) :
    Admissible (ofGraph v1) (ofGraph v2)
      (select (candidates v1 v2 (ofGraph v1) (ofGraph v2) ops)) := by
  have hvalid : ∀ c ∈ candidates v1 v2 (ofGraph v1) (ofGraph v2) ops,
      c.rekey.Valid (ofGraph v1) (ofGraph v2) := fun c hc => valid_of_mem_candidates h1 h2 hc
  obtain ⟨hd, hv⟩ := select_invariant hvalid
  exact ⟨hv, hd⟩

/-! ## Keys of admissible rekeys -/

section Keys
variable {v1 v2 : Graph} (h1 : v1.WellFormed)

theorem Valid.older_ne_newer {x1 x2 : Index} {r s : Rekey} (hr : r.Valid x1 x2)
    (hs : s.Valid x1 x2) : r.older ≠ s.newer := by
  obtain ⟨e, he, hk, -⟩ := hs.new
  exact fun heq => hr.gone e he (hk.trans heq.symm)

include h1 in
theorem Valid.v1_eq_of_older_eq {r s : Rekey} (hr : r.Valid (ofGraph v1) (ofGraph v2))
    (hs : s.Valid (ofGraph v1) (ofGraph v2)) (h : r.older = s.older) : r.v1 = s.v1 := by
  obtain ⟨e, he, hek, hei⟩ := hr.old
  obtain ⟨d, hd, hdk, hdi⟩ := hs.old
  rw [← hei, ← hdi, h1.entity_eq_of_key he hd (hek.trans (h.trans hdk.symm))]

variable {rs : List Rekey} (ha : Admissible (ofGraph v1) (ofGraph v2) rs)

include h1 ha in
theorem Admissible.eq_of_older_eq {r s : Rekey} (hr : r ∈ rs) (hs : s ∈ rs)
    (h : r.older = s.older) : r = s :=
  List.inj_on_of_nodup_map ha.disjoint.1 hr hs
    ((ha.valid r hr).v1_eq_of_older_eq h1 (ha.valid s hs) h)

end Keys

end Rekey

def Refactoring.Operation.renameAt (line : UInt32) : Operation where
  kind := .renameMethod
  before := [{ filePath := "A.java", startLine := line, endLine := line + 2 }]
  after := [{ filePath := "A.java", startLine := line, endLine := line + 2 }]

end Lineage
