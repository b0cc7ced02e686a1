import Lineage.EdgeStore
import Lineage.Proofs.Keyed
/-! # The law of edges without repetition

A store that starts without edges holds, after any insertions, the first occurrences of the inserted
triples in order; under each it says what the earliest of the most confident copies says. No edge is
ever lost, none becomes less confident, and inserting the same edges again changes nothing. Main
statements: `inserts_insert`, `exact_insertAll`, `triples_insertAll`, `strongest_insertAll`,
`insertAll_insertAll`.
-/
namespace Lineage

namespace Edge

def content (e : Edge) : Confidence × Option String × TextMap String :=
  (e.confidence, e.label, e.attributes)

/-- The edge says what the earliest of the most confident copies says. -/
def Strongest (copies : List Edge) (x : Edge) : Prop :=
  ∃ before best after, copies = before ++ best :: after ∧
    (∀ c ∈ before, c.confidence < best.confidence) ∧
    (∀ c ∈ after, c.confidence ≤ best.confidence) ∧ x.content = best.content

/-- The edges carry the numbers 0, 1, 2 and so on. -/
def Numbered (es : List Edge) : Prop := es.map (·.id) = (List.range es.length).map EdgeId.mk

/-- Every edge is still there, under its number and no less confident. -/
def Kept (es es' : List Edge) : Prop :=
  ∀ e ∈ es, ∃ e' ∈ es', e'.id = e.id ∧ e'.triple = e.triple ∧ e.confidence ≤ e'.confidence

/-- The list has an edge of the same triple that is at least as confident. -/
def Covered (es : List Edge) (e : Edge) : Prop :=
  ∃ x ∈ es, x.triple = e.triple ∧ e.confidence ≤ x.confidence

section Content
variable {copies : List Edge} {x y e : Edge}

theorem strongest_singleton (h : x.content = e.content) : x.Strongest [e] :=
  ⟨[], e, [], rfl, nofun, nofun, h⟩

theorem Strongest.exists_mem (h : x.Strongest copies) :
    ∃ best ∈ copies, x.content = best.content := by
  obtain ⟨before, best, after, rfl, -, -, hx⟩ := h
  exact ⟨best, List.mem_append_right _ List.mem_cons_self, hx⟩

theorem Strongest.le (h : x.Strongest copies) {c : Edge} (hc : c ∈ copies) :
    c.confidence ≤ x.confidence := by
  obtain ⟨before, best, after, rfl, hb, ha, hx⟩ := h
  have hconf : x.confidence = best.confidence := congrArg Prod.fst hx
  rw [hconf]
  rcases List.mem_append.mp hc with hc | hc
  · exact Int.le_of_lt (hb c hc)
  · rcases List.mem_cons.mp hc with rfl | hc
    · exact Int.le_refl _
    · exact ha c hc

theorem Strongest.of_map {f : Edge → Edge} (hf : ∀ c, (f c).content = c.content)
    (h : x.Strongest (copies.map f)) : x.Strongest copies := by
  obtain ⟨before, best, after, hc, hb, ha, hx⟩ := h
  have hconf : ∀ c, (f c).confidence = c.confidence := fun c => congrArg Prod.fst (hf c)
  obtain ⟨before', rest, rfl, rfl, hrest⟩ := List.map_eq_append_iff.mp hc
  obtain ⟨best', after', rfl, rfl, rfl⟩ := List.map_eq_cons_iff.mp hrest
  refine ⟨before', best', after', rfl, fun c hc => ?_, fun c hc => ?_, hx.trans (hf best')⟩
  · rw [← hconf c, ← hconf best']
    exact hb _ (List.mem_map_of_mem hc)
  · rw [← hconf c, ← hconf best']
    exact ha _ (List.mem_map_of_mem hc)

end Content

theorem Numbered.snoc {es : List Edge} (h : Numbered es) (e : Edge) :
    Numbered (es ++ [{ e with id := ⟨es.length⟩ }]) := by
  unfold Numbered at h ⊢
  simp [List.range_succ, h]

theorem Numbered.id_getElem {es : List Edge} (h : Numbered es) {i : Nat} (hi : i < es.length) :
    es[i].id = ⟨i⟩ := by
  have hg := List.getElem_of_eq h (by rwa [List.length_map] : i < (es.map (·.id)).length)
  simpa using hg

theorem Kept.refl (es : List Edge) : Kept es es :=
  fun e he => ⟨e, he, rfl, rfl, Int.le_refl _⟩

theorem Kept.trans {es₁ es₂ es₃ : List Edge} (h : Kept es₁ es₂) (h' : Kept es₂ es₃) :
    Kept es₁ es₃ := by
  intro e he
  obtain ⟨e₂, he₂, hi₂, ht₂, hc₂⟩ := h e he
  obtain ⟨e₃, he₃, hi₃, ht₃, hc₃⟩ := h' e₂ he₂
  exact ⟨e₃, he₃, hi₃.trans hi₂, ht₃.trans ht₂, Int.le_trans hc₂ hc₃⟩

theorem Covered.of_kept {es es' : List Edge} {e : Edge} (h : Covered es e) (hk : Kept es es') :
    Covered es' e := by
  obtain ⟨x, hx, ht, hc⟩ := h
  obtain ⟨x', hx', -, ht', hc'⟩ := hk x hx
  exact ⟨x', hx', ht'.trans ht, Int.le_trans hc hc'⟩

end Edge

/-- Every edge has a number of its own in the 32 bits that select an edge. -/
def Graph.EdgesFit (g : Graph) : Prop := g.edges.length ≤ UInt32.size

instance (g : Graph) : Decidable g.EdgesFit :=
  inferInstanceAs (Decidable (g.edges.length ≤ UInt32.size))

namespace EdgeStore

section Improve
variable (copy stored : Edge)

@[simp] theorem id_improve : (improve copy stored).id = stored.id := by
  unfold improve; split <;> rfl

@[simp] theorem triple_improve : (improve copy stored).triple = stored.triple := by
  unfold improve; split <;> rfl

theorem le_improve : stored.confidence ≤ (improve copy stored).confidence := by
  unfold improve
  split
  · rename_i h
    exact Int.le_of_lt h
  · exact Int.le_refl _

theorem copy_le_improve : copy.confidence ≤ (improve copy stored).confidence := by
  unfold improve
  split
  · exact Int.le_refl _
  · rename_i h
    exact Int.not_lt.mp h

variable {copy stored} {copies : List Edge}

theorem improve_of_le (h : copy.confidence ≤ stored.confidence) : improve copy stored = stored :=
  if_neg (Int.not_lt.mpr h)

theorem strongest_improve (h : stored.Strongest copies) :
    (improve copy stored).Strongest (copies ++ [copy]) := by
  obtain ⟨before, best, after, rfl, hb, ha, hs⟩ := h
  have hconf : stored.confidence = best.confidence := congrArg Prod.fst hs
  -- The copy becomes the best one if it is more confident, and else one of those after it.
  unfold improve
  split
  · rename_i hlt
    rw [hconf] at hlt
    refine ⟨before ++ best :: after, copy, [], rfl, fun c hc => ?_, nofun, rfl⟩
    rcases List.mem_append.mp hc with hc | hc
    · exact Int.lt_trans (hb c hc) hlt
    · rcases List.mem_cons.mp hc with rfl | hc
      · exact hlt
      · exact Int.lt_of_le_of_lt (ha c hc) hlt
  · rename_i hge
    rw [hconf] at hge
    refine ⟨before, best, after ++ [copy], by simp, hb, fun c hc => ?_, hs⟩
    rcases List.mem_append.mp hc with hc | hc
    · exact ha c hc
    · rw [List.mem_singleton.mp hc]
      exact Int.not_lt.mp hge

end Improve

/-- A store that knows all its edges, each of another triple. -/
structure Exact (s : EdgeStore) : Prop where
  numbered : Edge.Numbered s.graph.edges
  seen : s.seen = s.graph.edges.map fun e => (e.triple, e.id)
  nodup : s.graph.triples.Nodup

/-- Both ends of the edge are nodes of the graph. -/
def Anchored (g : Graph) (e : Edge) : Prop := g.hasNode e.source ∧ g.hasNode e.target

/-- What an insertion can do: another copy is told to the edge of its triple, a new edge is added, or
it is refused for its ends. -/
inductive Inserts (s : EdgeStore) (e : Edge) : EdgeStore → Prop
  | known {x : Edge} (hx : x ∈ s.graph.edges) (ht : x.triple = e.triple) :
      Inserts s e { s with graph := s.graph.modifyEdge x.id (improve e) }
  | fresh (hn : e.triple ∉ s.graph.triples) (hends : Anchored s.graph e) :
      Inserts s e
        ⟨{ s.graph with edges := s.graph.edges ++ [{ e with id := s.graph.nextEdge }] },
          s.seen ++ [(e.triple, s.graph.nextEdge)]⟩
  | refused (hn : e.triple ∉ s.graph.triples) (hends : ¬Anchored s.graph e) : Inserts s e s

theorem exact_ofGraph {g : Graph} (h : g.edges = []) : (ofGraph g).Exact := by
  refine ⟨?_, ?_, ?_⟩
  · simp [Edge.Numbered, ofGraph, h]
  · simp [ofGraph, h]
  · simp [ofGraph, Graph.triples, h]

section Insert
variable {s : EdgeStore} {e : Edge}

theorem map_modify_eq {α β : Type} {f : α → α} {g : α → β} (h : ∀ x, g (f x) = g x) (i : Nat)
    (xs : List α) : (xs.modify i f).map g = xs.map g := by
  apply List.ext_getElem
  · simp
  · intro j hj hj'
    rw [List.getElem_map, List.getElem_map, List.getElem_modify]
    split
    · exact h _
    · rfl

theorem Exact.find? (h : s.Exact) (t : Triple) :
    s.find? t = (s.graph.edges.find? (·.triple = t)).map (·.id) := by
  rw [EdgeStore.find?, h.seen, lookup_map_key]

theorem insert_cases (h : s.Exact) (e : Edge) :
    (∃ x ∈ s.graph.edges, x.triple = e.triple ∧
      s.insert e = (false, { s with graph := s.graph.modifyEdge x.id (improve e) })) ∨
    e.triple ∉ s.graph.triples ∧ Anchored s.graph e ∧ s.insert e =
      (true, ⟨{ s.graph with edges := s.graph.edges ++ [{ e with id := s.graph.nextEdge }] },
        s.seen ++ [(e.triple, s.graph.nextEdge)]⟩) ∨
    e.triple ∉ s.graph.triples ∧ ¬Anchored s.graph e ∧ s.insert e = (false, s) := by
  have hfind := h.find? e.triple
  unfold insert
  cases hx : s.graph.edges.find? (·.triple = e.triple) with
  | some x =>
    rw [hx, Option.map_some] at hfind
    rw [hfind]
    exact .inl ⟨x, List.mem_of_find?_eq_some hx, by simpa using List.find?_some hx, rfl⟩
  | none =>
    have hn : e.triple ∉ s.graph.triples := find?_key_eq_none_iff.mp hx
    rw [hx, Option.map_none] at hfind
    rw [hfind]
    dsimp only
    by_cases hends : Anchored s.graph e
    · have hadd : s.graph.addEdge e = some (s.graph.nextEdge,
          { s.graph with edges := s.graph.edges ++ [{ e with id := s.graph.nextEdge }] }) := by
        rw [Graph.addEdge, if_pos (by simpa [Anchored] using hends)]
      rw [hadd]
      exact .inr (.inl ⟨hn, hends, rfl⟩)
    · have hadd : s.graph.addEdge e = none := by
        rw [Graph.addEdge, if_neg (by simpa [Anchored] using hends)]
      rw [hadd]
      exact .inr (.inr ⟨hn, hends, rfl⟩)

theorem inserts_insert (h : s.Exact) : Inserts s e (s.insert e).2 := by
  rcases insert_cases h e with ⟨x, hx, ht, heq⟩ | ⟨hn, hends, heq⟩ | ⟨hn, hends, heq⟩
  · rw [heq]
    exact .known hx ht
  · rw [heq]
    exact .fresh hn hends
  · rw [heq]
    exact .refused hn hends

theorem triples_modifyEdge (g : Graph) (i : EdgeId) (e : Edge) :
    (g.modifyEdge i (improve e)).triples = g.triples :=
  map_modify_eq (triple_improve e) _ _

theorem exact_insert (h : s.Exact) : (s.insert e).2.Exact := by
  have hins := inserts_insert (e := e) h
  generalize (s.insert e).2 = s' at hins
  cases hins with
  | @known x hx ht =>
    have hid : (s.graph.modifyEdge x.id (improve e)).edges.map (·.id) =
        s.graph.edges.map (·.id) := map_modify_eq (id_improve e) _ _
    have hlen : (s.graph.modifyEdge x.id (improve e)).edges.length = s.graph.edges.length := by
      simp [Graph.modifyEdge]
    refine ⟨?_, ?_, ?_⟩
    · rw [Edge.Numbered, hid, hlen]
      exact h.numbered
    · rw [h.seen]
      exact (map_modify_eq (g := fun e : Edge => (e.triple, e.id)) (fun y => by simp) _ _).symm
    · rw [triples_modifyEdge]
      exact h.nodup
  | fresh hn hends =>
    refine ⟨h.numbered.snoc e, ?_, ?_⟩
    · rw [h.seen, List.map_append]
      rfl
    · rw [Graph.triples, List.map_append]
      exact h.nodup.append (List.nodup_singleton _) (by simpa [Edge.triple] using hn)
  | refused hn hends => exact h

theorem kept_insert (h : s.Exact) : Edge.Kept s.graph.edges (s.insert e).2.graph.edges := by
  have hins := inserts_insert (e := e) h
  generalize (s.insert e).2 = s' at hins
  cases hins with
  | @known x hx ht =>
    intro y hy
    obtain ⟨i, hi, rfl⟩ := List.getElem_of_mem hy
    have hi' : i < (s.graph.modifyEdge x.id (improve e)).edges.length := by
      simpa [Graph.modifyEdge] using hi
    refine ⟨_, List.getElem_mem hi', ?_⟩
    simp only [Graph.modifyEdge, List.getElem_modify]
    split
    · exact ⟨id_improve _ _, triple_improve _ _, le_improve _ _⟩
    · exact ⟨rfl, rfl, Int.le_refl _⟩
  | fresh hn hends =>
    exact fun y hy => ⟨y, List.mem_append_left _ hy, rfl, rfl, Int.le_refl _⟩
  | refused hn hends => exact .refl _

theorem fst_insert_iff (h : s.Exact) :
    (s.insert e).1 = true ↔ Anchored s.graph e ∧ e.triple ∉ s.graph.triples := by
  rcases insert_cases h e with ⟨x, hx, ht, heq⟩ | ⟨hn, hends, heq⟩ | ⟨hn, hends, heq⟩
  · have hmem : e.triple ∈ s.graph.triples := List.mem_map.mpr ⟨x, hx, ht⟩
    simp [heq, hmem]
  · simp [heq, hn, hends]
  · simp [heq, hends]

theorem insert_refused (h : s.Exact) (hn : e.triple ∉ s.graph.triples)
    (hends : ¬Anchored s.graph e) : s.insert e = (false, s) := by
  rcases insert_cases h e with ⟨x, hx, ht, -⟩ | ⟨-, hanchored, -⟩ | ⟨-, -, heq⟩
  · exact absurd (List.mem_map.mpr ⟨x, hx, ht⟩) hn
  · exact absurd hanchored hends
  · exact heq

theorem triples_insert_eq_ite (h : s.Exact) : (s.insert e).2.graph.triples =
    if (s.insert e).1 then s.graph.triples ++ [e.triple] else s.graph.triples := by
  rcases insert_cases h e with ⟨x, hx, ht, heq⟩ | ⟨hn, hends, heq⟩ | ⟨hn, hends, heq⟩
  · simp [heq, triples_modifyEdge]
  · rw [heq, if_pos rfl, Graph.triples, List.map_append]
    rfl
  · simp [heq]

theorem triples_insert (h : s.Exact) (hends : Anchored s.graph e) :
    (s.insert e).2.graph.triples =
      if e.triple ∈ s.graph.triples then s.graph.triples else s.graph.triples ++ [e.triple] := by
  rw [triples_insert_eq_ite h]
  by_cases hn : e.triple ∈ s.graph.triples
  · rw [if_neg fun hnew => ((fst_insert_iff h).mp hnew).2 hn, if_pos hn]
  · rw [if_pos ((fst_insert_iff h).mpr ⟨hends, hn⟩), if_neg hn]

/-- As long as numbers select the edges themselves, a copy is told to the edge of its triple. -/
theorem modifyEdge_eq (h : s.Exact) (hfit : s.graph.EdgesFit) {x : Edge} (hx : x ∈ s.graph.edges)
    (ht : x.triple = e.triple) :
    (s.graph.modifyEdge x.id (improve e)).edges =
      s.graph.edges.map fun y => if y.triple = e.triple then improve e y else y := by
  obtain ⟨i, hi, rfl⟩ := List.getElem_of_mem hx
  have hslot : slot s.graph.edges[i].id.number = i := by
    rw [h.numbered.id_getElem hi]
    exact Nat.mod_eq_of_lt (Nat.lt_of_lt_of_le hi hfit)
  have hlen : s.graph.triples.length = s.graph.edges.length := by simp [Graph.triples]
  apply List.ext_getElem
  · simp [Graph.modifyEdge]
  · intro j hj hj'
    have hj₀ : j < s.graph.edges.length := by simpa using hj'
    have hi' : i < s.graph.triples.length := hlen ▸ hi
    have hj'' : j < s.graph.triples.length := hlen ▸ hj₀
    have hinj : s.graph.triples[i] = s.graph.triples[j] ↔ i = j := h.nodup.getElem_inj_iff
    simp only [Graph.triples, List.getElem_map] at hinj
    simp only [Graph.modifyEdge, hslot, List.getElem_modify, List.getElem_map]
    by_cases hij : i = j
    · subst hij
      rw [if_pos rfl, if_pos ht]
    · have hne : s.graph.edges[j].triple ≠ e.triple := fun he => hij (hinj.mp (ht.trans he.symm))
      rw [if_neg hij, if_neg hne]

theorem edgesFit_of_insert (h : s.Exact) (hfit : (s.insert e).2.graph.EdgesFit) :
    s.graph.EdgesFit := by
  have hins := inserts_insert (e := e) h
  generalize (s.insert e).2 = s' at hins hfit
  cases hins with
  | known hx ht => simpa [Graph.EdgesFit, Graph.modifyEdge] using hfit
  | fresh hn hends =>
    simp only [Graph.EdgesFit, List.length_append] at hfit ⊢
    omega
  | refused hn hends => exact hfit

theorem filter_insert (h : s.Exact) (hfit : (s.insert e).2.graph.EdgesFit) {p : Triple → Bool}
    (hp : p e.triple = false) :
    (s.insert e).2.graph.edges.filter (p ·.triple) = s.graph.edges.filter (p ·.triple) := by
  have hfit₀ := edgesFit_of_insert h hfit
  have hins := inserts_insert (e := e) h
  generalize (s.insert e).2 = s' at hins
  cases hins with
  | @known x hx ht =>
    dsimp only
    rw [modifyEdge_eq h hfit₀ hx ht]
    generalize s.graph.edges = es
    induction es with
    | nil => rfl
    | cons y ys ih =>
      rw [List.map_cons, List.filter_cons, List.filter_cons, ih]
      by_cases hy : y.triple = e.triple
      · simp [hy, hp]
      · simp [hy]
  | fresh hn hends =>
    have hnew : p ({ e with id := s.graph.nextEdge } : Edge).triple = false := hp
    simp [hnew]
  | refused hn hends => rfl

theorem covered_insert (h : s.Exact) (hends : Anchored s.graph e)
    (hfit : (s.insert e).2.graph.EdgesFit) : Edge.Covered (s.insert e).2.graph.edges e := by
  have hfit₀ := edgesFit_of_insert h hfit
  have hins := inserts_insert (e := e) h
  generalize (s.insert e).2 = s' at hins
  cases hins with
  | @known x hx ht =>
    refine ⟨improve e x, ?_, (triple_improve e x).trans ht, copy_le_improve e x⟩
    dsimp only
    rw [modifyEdge_eq h hfit₀ hx ht]
    exact List.mem_map.mpr ⟨x, hx, if_pos ht⟩
  | fresh hn _ =>
    exact ⟨_, List.mem_append_right _ List.mem_cons_self, rfl, Int.le_refl _⟩
  | refused hn hrefused => exact absurd hends hrefused

/-- A copy is told nothing to if an edge of its triple is as confident. -/
theorem insert_of_covered (h : s.Exact) (hfit : s.graph.EdgesFit)
    (hc : Edge.Covered s.graph.edges e) : (s.insert e).2 = s := by
  obtain ⟨x, hx, ht, hle⟩ := hc
  have hmem : e.triple ∈ s.graph.triples := List.mem_map.mpr ⟨x, hx, ht⟩
  have hins := inserts_insert (e := e) h
  generalize (s.insert e).2 = s' at hins
  cases hins with
  | @known y hy hty =>
    have hself : ∀ z ∈ s.graph.edges, (if z.triple = e.triple then improve e z else z) = z := by
      intro z hz
      split
      · rename_i hzt
        obtain rfl : z = x := List.inj_on_of_nodup_map h.nodup hz hx (hzt.trans ht.symm)
        exact improve_of_le hle
      · rfl
    have hedges : (s.graph.modifyEdge y.id (improve e)).edges = s.graph.edges := by
      rw [modifyEdge_eq h hfit hy hty, List.map_congr_left hself, List.map_id']
    have hgraph : s.graph.modifyEdge y.id (improve e) = s.graph :=
      congrArg (Graph.mk s.graph.nodes) hedges
    rw [hgraph]
  | fresh hn _ => exact absurd hmem hn
  | refused hn _ => rfl

/-- Only the edge of the inserted triple gets a copy more: a stored one beside those it had, a new one
its only copy. -/
theorem strongest_insert (h : s.Exact) (hfit : (s.insert e).2.graph.EdgesFit)
    (hends : Anchored s.graph e) {copies : List Edge}
    (hknown : ∀ c ∈ copies, c.triple ∈ s.graph.triples)
    (hold : ∀ x ∈ s.graph.edges, x.Strongest (copies.filter (·.triple = x.triple))) :
    ∀ x ∈ (s.insert e).2.graph.edges,
      x.Strongest ((copies ++ [e]).filter (·.triple = x.triple)) := by
  have hfit₀ := edgesFit_of_insert h hfit
  have hother : ∀ x : Edge, x.triple ≠ e.triple →
      (copies ++ [e]).filter (·.triple = x.triple) = copies.filter (·.triple = x.triple) := by
    intro x hx
    simp [Ne.symm hx]
  have hins := inserts_insert (e := e) h
  generalize (s.insert e).2 = s' at hins
  cases hins with
  | @known y hy ht =>
    dsimp only
    rw [modifyEdge_eq h hfit₀ hy ht]
    intro x hx
    obtain ⟨z, hz, rfl⟩ := List.mem_map.mp hx
    by_cases hze : z.triple = e.triple
    · have hcopies : (copies ++ [e]).filter (·.triple = z.triple) =
          copies.filter (·.triple = z.triple) ++ [e] := by
        simp [hze]
      rw [if_pos hze, triple_improve, hcopies]
      exact strongest_improve (hold z hz)
    · rw [if_neg hze, hother z hze]
      exact hold z hz
  | fresh hn _ =>
    intro x hx
    rcases List.mem_append.mp hx with hx | hx
    · have hne : x.triple ≠ e.triple := fun he => hn (he ▸ List.mem_map_of_mem hx)
      rw [hother x hne]
      exact hold x hx
    · obtain rfl := List.mem_singleton.mp hx
      have hnone : copies.filter (·.triple = e.triple) = [] := by
        rw [List.filter_eq_nil_iff]
        intro c hc he
        exact hn (of_decide_eq_true he ▸ hknown c hc)
      have hcopies : (copies ++ [e]).filter (·.triple = e.triple) = [e] := by
        simp [hnone]
      have htriple : ({ e with id := s.graph.nextEdge } : Edge).triple = e.triple := rfl
      rw [htriple, hcopies]
      exact Edge.strongest_singleton rfl
  | refused hn hrefused => exact absurd hends hrefused

end Insert

section InsertAll
variable {s : EdgeStore} {es : List Edge}

theorem insertAll_snoc (s : EdgeStore) (es : List Edge) (e : Edge) :
    s.insertAll (es ++ [e]) = ((s.insertAll es).insert e).2 := by
  simp only [insertAll, List.foldl_append, List.foldl_cons, List.foldl_nil]

theorem exact_insertAll (h : s.Exact) (es : List Edge) : (s.insertAll es).Exact := by
  induction es using List.reverseRecOn with
  | nil => exact h
  | append_singleton es e ih =>
    rw [insertAll_snoc]
    exact exact_insert ih

theorem kept_insertAll (h : s.Exact) (es : List Edge) :
    Edge.Kept s.graph.edges (s.insertAll es).graph.edges := by
  induction es using List.reverseRecOn with
  | nil => exact .refl _
  | append_singleton es e ih =>
    rw [insertAll_snoc]
    exact ih.trans (kept_insert (exact_insertAll h es))

theorem edgesFit_of_insertAll (h : s.Exact) {es : List Edge}
    (hfit : (s.insertAll es).graph.EdgesFit) : s.graph.EdgesFit := by
  induction es using List.reverseRecOn with
  | nil => exact hfit
  | append_singleton es e ih =>
    rw [insertAll_snoc] at hfit
    exact ih (edgesFit_of_insert (exact_insertAll h es) hfit)

theorem filter_insertAll (h : s.Exact) (hfit : (s.insertAll es).graph.EdgesFit)
    {p : Triple → Bool} (hp : ∀ e ∈ es, p e.triple = false) :
    (s.insertAll es).graph.edges.filter (p ·.triple) = s.graph.edges.filter (p ·.triple) := by
  induction es using List.reverseRecOn with
  | nil => rfl
  | append_singleton es e ih =>
    have hexact := exact_insertAll h es
    rw [insertAll_snoc] at hfit ⊢
    rw [filter_insert hexact hfit (hp e (List.mem_append_right _ List.mem_cons_self))]
    exact ih (edgesFit_of_insert hexact hfit) fun x hx => hp x (List.mem_append_left _ hx)

theorem insertAll_of_covered (h : s.Exact) (hfit : s.graph.EdgesFit)
    (hc : ∀ e ∈ es, Edge.Covered s.graph.edges e) : s.insertAll es = s := by
  unfold insertAll
  induction es with
  | nil => rfl
  | cons e es ih =>
    rw [List.foldl_cons, insert_of_covered h hfit (hc e List.mem_cons_self)]
    exact ih fun x hx => hc x (List.mem_cons_of_mem _ hx)

@[simp] theorem nodes_insert (s : EdgeStore) (e : Edge) :
    (s.insert e).2.graph.nodes = s.graph.nodes := by
  unfold insert
  split
  · rfl
  · split
    · rename_i h
      exact (Graph.edges_addEdge h).2.2
    · rfl

@[simp] theorem nodes_insertAll (s : EdgeStore) (es : List Edge) :
    (s.insertAll es).graph.nodes = s.graph.nodes := by
  unfold insertAll
  induction es generalizing s with
  | nil => rfl
  | cons e es ih => rw [List.foldl_cons, ih, nodes_insert]

theorem anchored_insertAll_iff {e : Edge} :
    Anchored (s.insertAll es).graph e ↔ Anchored s.graph e := by
  simp only [Anchored, Graph.hasNode, Graph.node?, nodes_insertAll]

theorem covered_insertAll (h : s.Exact) (hends : ∀ e ∈ es, Anchored s.graph e)
    (hfit : (s.insertAll es).graph.EdgesFit) :
    ∀ e ∈ es, Edge.Covered (s.insertAll es).graph.edges e := by
  induction es using List.reverseRecOn with
  | nil => exact fun e he => absurd he List.not_mem_nil
  | append_singleton es e ih =>
    have hexact := exact_insertAll h es
    rw [insertAll_snoc] at hfit ⊢
    intro x hx
    rcases List.mem_append.mp hx with hx | hx
    · have hold := ih (fun y hy => hends y (List.mem_append_left _ hy))
        (edgesFit_of_insert hexact hfit) x hx
      exact hold.of_kept (kept_insert hexact)
    · obtain rfl := List.mem_singleton.mp hx
      exact covered_insert hexact (anchored_insertAll_iff.mpr
        (hends x (List.mem_append_right _ List.mem_cons_self))) hfit

theorem insertAll_insertAll (h : s.Exact) (hends : ∀ e ∈ es, Anchored s.graph e)
    (hfit : (s.insertAll es).graph.EdgesFit) : (s.insertAll es).insertAll es = s.insertAll es :=
  insertAll_of_covered (exact_insertAll h es) hfit (covered_insertAll h hends hfit)

theorem triples_insertAll (h : s.Exact) (hends : ∀ e ∈ es, Anchored s.graph e) :
    (s.insertAll es).graph.triples = (s.graph.triples ++ es.map Edge.triple).eraseDups := by
  induction es using List.reverseRecOn with
  | nil =>
    rw [List.map_nil, List.append_nil, eraseDups_eq_self h.nodup]
    rfl
  | append_singleton es e ih =>
    have he : Anchored (s.insertAll es).graph e :=
      anchored_insertAll_iff.mpr (hends e (List.mem_append_right _ List.mem_cons_self))
    have hes := ih fun x hx => hends x (List.mem_append_left _ hx)
    rw [insertAll_snoc, triples_insert (exact_insertAll h es) he, hes, List.map_append,
      ← List.append_assoc]
    simp only [List.mem_eraseDups]
    exact (eraseDups_snoc _ e.triple).symm

theorem strongest_insertAll (hs : s.graph.edges = []) (h : s.Exact)
    (hends : ∀ e ∈ es, Anchored s.graph e) (hfit : (s.insertAll es).graph.EdgesFit) :
    ∀ x ∈ (s.insertAll es).graph.edges, x.Strongest (es.filter (·.triple = x.triple)) := by
  induction es using List.reverseRecOn with
  | nil =>
    intro x hx
    have hnil : (s.insertAll []).graph.edges = [] := hs
    rw [hnil] at hx
    cases hx
  | append_singleton es e ih =>
    have hexact := exact_insertAll h es
    have hes : ∀ x ∈ es, Anchored s.graph x := fun x hx => hends x (List.mem_append_left _ hx)
    have hknown : ∀ c ∈ es, c.triple ∈ (s.insertAll es).graph.triples := by
      intro c hc
      rw [triples_insertAll h hes, List.mem_eraseDups]
      exact List.mem_append_right _ (List.mem_map_of_mem hc)
    rw [insertAll_snoc] at hfit ⊢
    exact strongest_insert hexact hfit (anchored_insertAll_iff.mpr
      (hends e (List.mem_append_right _ List.mem_cons_self))) hknown
      (ih hes (edgesFit_of_insert hexact hfit))

end InsertAll

end EdgeStore

end Lineage
