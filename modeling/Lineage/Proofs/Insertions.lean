import Lineage.Proofs.Additions
import Lineage.Proofs.EdgeStore
/-! # Edges without repetition in a graph that grows

Nodes are added and edges inserted in any order, so an edge that is refused now may be taken once its
ends are there. Main statement: `keepsBest_performAll`.
-/
namespace Lineage

/-- Nodes with the numbers of both ends are there. -/
def Edge.EndsIn (ns : List Node) (e : Edge) : Prop :=
  e.source.number < ns.length ∧ e.target.number < ns.length

namespace Addition
variable {view : NodeId → NodeId} {count : Nat} {as : List Addition} {e : Edge}

theorem taken_snoc_node (n : Node) : taken view count (as ++ [node n]) = taken view count as := by
  rw [taken_append, taken, taken, List.append_nil]

theorem taken_snoc_edge (e : Edge) : taken view count (as ++ [edge e]) =
    if (view e.source).number < count + (nodes as).length ∧
        (view e.target).number < count + (nodes as).length then
      taken view count as ++ [e]
    else taken view count as := by
  rw [taken_append, taken, taken]
  split <;> simp

theorem lt_of_mem_taken (h : e ∈ taken view count as) :
    (view e.source).number < count + (nodes as).length ∧
      (view e.target).number < count + (nodes as).length := by
  induction as using List.reverseRecOn with
  | nil => cases h
  | append_singleton as a ih =>
    have hle : (nodes as).length ≤ (nodes (as ++ [a])).length := by simp
    have hold : e ∈ taken view count as → _ := fun he => And.imp
      (fun h => Nat.lt_of_lt_of_le h (Nat.add_le_add_left hle count))
      (fun h => Nat.lt_of_lt_of_le h (Nat.add_le_add_left hle count)) (ih he)
    cases a with
    | node n =>
      rw [taken_snoc_node] at h
      exact hold h
    | edge f =>
      rw [taken_snoc_edge] at h
      split at h
      · rename_i hends
        rcases List.mem_append.mp h with h | h
        · exact hold h
        · obtain rfl := List.mem_singleton.mp h
          simpa using hends
      · exact hold h

end Addition

namespace EdgeStore

def perform (s : EdgeStore) : Addition → EdgeStore
  | .node n => { s with graph := (s.graph.addNode n).2 }
  | .edge e => (s.insert e).2

def performAll (s : EdgeStore) (as : List Addition) : EdgeStore := as.foldl perform s

/-- The edges whose insertion is told to be the first of its triple. -/
def added (s : EdgeStore) : List Addition → List Edge
  | [] => []
  | .node n :: as => added (s.perform (.node n)) as
  | .edge e :: as =>
    if (s.insert e).1 then e :: added (s.perform (.edge e)) as else added (s.perform (.edge e)) as

section Perform
variable {s : EdgeStore} {as : List Addition} {e : Edge}

theorem performAll_snoc (s : EdgeStore) (as : List Addition) (a : Addition) :
    s.performAll (as ++ [a]) = (s.performAll as).perform a := by
  simp only [performAll, List.foldl_append, List.foldl_cons, List.foldl_nil]

theorem nodes_perform {g : Graph} (h : s.graph.nodes = g.nodes) (a : Addition) :
    (s.perform a).graph.nodes = (g.add a).nodes := by
  cases a with
  | node n => simp [perform, Graph.add, Graph.nextNode, h]
  | edge e => simpa [perform, Graph.add] using h

theorem nodes_performAll (s : EdgeStore) (as : List Addition) : (s.performAll as).graph.nodes =
    s.graph.nodes ++ (Addition.nodes as).mapIdx fun i n =>
      n.renumber ⟨s.graph.nodes.length + i⟩ := by
  rw [← Graph.nodes_addAll]
  induction as using List.reverseRecOn with
  | nil => rfl
  | append_singleton as a ih =>
    rw [performAll_snoc, nodes_perform ih, Graph.addAll, Graph.addAll, List.foldl_append]
    rfl

theorem length_nodes_performAll (s : EdgeStore) (as : List Addition) :
    (s.performAll as).graph.nodes.length = s.graph.nodes.length + (Addition.nodes as).length := by
  simp [nodes_performAll]

theorem exact_perform (h : s.Exact) (a : Addition) : (s.perform a).Exact := by
  cases a with
  | node n => exact ⟨h.numbered, h.seen, h.nodup⟩
  | edge e => exact exact_insert h

theorem exact_performAll (h : s.Exact) (as : List Addition) : (s.performAll as).Exact :=
  List.foldlRecOn as perform h fun _ hs a _ => exact_perform hs a

theorem anchored_iff {g : Graph} (he : e.Fits) : Anchored g e ↔ e.EndsIn g.nodes := by
  rw [Anchored, Graph.hasNode_iff, Graph.hasNode_iff, he.1.low_eq, he.2.low_eq]
  rfl

theorem triples_eq_added (h : s.Exact) (as : List Addition) : (s.performAll as).graph.triples =
    s.graph.triples ++ (s.added as).map Edge.triple := by
  induction as generalizing s with
  | nil => simp [performAll, added]
  | cons a as ih =>
    rw [performAll, List.foldl_cons, ← performAll, ih (exact_perform h a)]
    cases a with
    | node n => rfl
    | edge e =>
      have hstep : (s.perform (.edge e)).graph.triples = _ := triples_insert_eq_ite h
      rw [hstep, added]
      split <;> simp

end Perform

section Run
variable {s : EdgeStore} (hs : s.graph.edges = []) (h : s.Exact) {as : List Addition} {e : Edge}
variable (hfits : ∀ e, .edge e ∈ as → e.Fits)

theorem taken_snoc_iff : e.EndsIn (s.performAll as).graph.nodes ↔
    Addition.taken id s.graph.nodes.length (as ++ [.edge e]) =
      Addition.taken id s.graph.nodes.length as ++ [e] := by
  rw [Edge.EndsIn, length_nodes_performAll, Addition.taken_snoc_edge]
  split
  · rename_i hends
    exact iff_of_true hends rfl
  · rename_i hends
    exact iff_of_false hends (by simp)

theorem endsIn_of_mem_taken (ht : e.triple ∈
    (Addition.taken id s.graph.nodes.length as).map Edge.triple) :
    e.EndsIn (s.performAll as).graph.nodes := by
  obtain ⟨c, hc, hce⟩ := List.mem_map.mp ht
  obtain ⟨hsource, -, htarget⟩ := Triple.mk.inj hce
  rw [Edge.EndsIn, length_nodes_performAll, ← hsource, ← htarget]
  exact Addition.lt_of_mem_taken hc

include hs h hfits

theorem triples_eq_taken : (s.performAll as).graph.triples =
    ((Addition.taken id s.graph.nodes.length as).map Edge.triple).eraseDups := by
  induction as using List.reverseRecOn with
  | nil => simp [performAll, Addition.taken, Graph.triples, hs]
  | append_singleton as a ih =>
    have has := ih fun x hx => hfits x (List.mem_append_left _ hx)
    rw [performAll_snoc]
    cases a with
    | node n =>
      rw [Addition.taken_snoc_node]
      exact has
    | edge e =>
      have hanchored := anchored_iff (g := (s.performAll as).graph)
        (hfits e (List.mem_append_right _ List.mem_cons_self))
      have hexact := exact_performAll h as
      rw [perform, Addition.taken_snoc_edge, ← length_nodes_performAll]
      split
      · rename_i hends
        rw [triples_insert hexact (hanchored.mpr hends), has, List.map_append, List.map_singleton,
          eraseDups_snoc]
        simp only [List.mem_eraseDups]
      · rename_i hends
        have hn : e.triple ∉ (s.performAll as).graph.triples := by
          rw [has, List.mem_eraseDups]
          exact fun ht => hends (endsIn_of_mem_taken ht)
        rw [insert_refused hexact hn fun ha => hends (hanchored.mp ha), has]

theorem endsIn_of_mem_triples (ht : e.triple ∈ (s.performAll as).graph.triples) :
    e.EndsIn (s.performAll as).graph.nodes := by
  rw [triples_eq_taken hs h hfits, List.mem_eraseDups] at ht
  exact endsIn_of_mem_taken ht

theorem strongest_performAll (hfit : (s.performAll as).graph.EdgesFit) :
    ∀ x ∈ (s.performAll as).graph.edges, x.Strongest
      ((Addition.taken id s.graph.nodes.length as).filter (·.triple = x.triple)) := by
  induction as using List.reverseRecOn with
  | nil =>
    intro x hx
    have hnil : (s.performAll []).graph.edges = [] := hs
    rw [hnil] at hx
    cases hx
  | append_singleton as a ih =>
    have hbefore : ∀ x, .edge x ∈ as → x.Fits := fun x hx => hfits x (List.mem_append_left _ hx)
    have hexact := exact_performAll h as
    rw [performAll_snoc] at hfit ⊢
    cases a with
    | node n =>
      rw [Addition.taken_snoc_node]
      exact ih hbefore hfit
    | edge e =>
      have hanchored := anchored_iff (g := (s.performAll as).graph)
        (hfits e (List.mem_append_right _ List.mem_cons_self))
      rw [perform] at hfit ⊢
      rw [Addition.taken_snoc_edge, ← length_nodes_performAll]
      have hold := ih hbefore (edgesFit_of_insert hexact hfit)
      split
      · rename_i hends
        refine strongest_insert hexact hfit (hanchored.mpr hends) (fun c hc => ?_) hold
        rw [triples_eq_taken hs h hbefore, List.mem_eraseDups]
        exact List.mem_map_of_mem hc
      · rename_i hends
        rw [insert_refused hexact (fun ht => hends (endsIn_of_mem_triples hs h hbefore ht))
          fun ha => hends (hanchored.mp ha)]
        exact hold

end Run

/-- After the additions a store that began without edges has one for each triple that was told to be
new, in this order, which says what the earliest of the most confident copies says. Only what has both
ends and another triple is new, and only that and what repeats a triple is a copy. -/
structure KeepsBest (g : Graph) (as : List Addition) (s : EdgeStore) : Prop where
  nodes_eq : s.graph.nodes =
    g.nodes ++ (Addition.nodes as).mapIdx fun i n => n.renumber ⟨g.nodes.length + i⟩
  answers_iff : ∀ e : Edge, e.Fits → ((s.insert e).1 = true ↔
    e.EndsIn s.graph.nodes ∧ e.triple ∉ ((ofGraph g).added as).map Edge.triple)
  refused : ∀ e : Edge, e.Fits → ¬e.EndsIn s.graph.nodes → s.insert e = (false, s)
  copied_iff : ∀ e : Edge, e.Fits → (Addition.taken id g.nodes.length (as ++ [.edge e]) =
      Addition.taken id g.nodes.length as ++ [e] ↔
    (s.insert e).1 = true ∨ e.triple ∈ ((ofGraph g).added as).map Edge.triple)
  size_eq : s.size = s.graph.edges.length
  numbered : Edge.Numbered s.graph.edges
  triples_eq : s.graph.triples = ((ofGraph g).added as).map Edge.triple
  nodup : s.graph.triples.Nodup
  strongest : ∀ x ∈ s.graph.edges, x.Strongest
    ((Addition.taken id g.nodes.length as).filter (·.triple = x.triple))

theorem keepsBest_performAll {g : Graph} {as : List Addition} (hg : g.edges = [])
    (hfits : ∀ e, .edge e ∈ as → e.Fits) (hfit : ((ofGraph g).performAll as).graph.EdgesFit) :
    KeepsBest g as ((ofGraph g).performAll as) := by
  have hstart := exact_ofGraph hg
  have hexact := exact_performAll hstart as
  have htriples : ((ofGraph g).performAll as).graph.triples =
      ((ofGraph g).added as).map Edge.triple := by
    rw [triples_eq_added hstart, Graph.triples, ofGraph, hg]
    rfl
  have hknown : ∀ e : Edge, e.triple ∈ ((ofGraph g).performAll as).graph.triples →
      e.EndsIn ((ofGraph g).performAll as).graph.nodes :=
    fun e => endsIn_of_mem_triples hg hstart hfits
  refine ⟨nodes_performAll _ as, fun e he => ?_, fun e he hends => ?_, fun e he => ?_, ?_,
    hexact.numbered, htriples, hexact.nodup, strongest_performAll hg hstart hfits hfit⟩
  · rw [fst_insert_iff hexact, anchored_iff he, htriples]
  · exact insert_refused hexact (fun ht => hends (hknown e ht)) fun ha =>
      hends ((anchored_iff he).mp ha)
  · rw [fst_insert_iff hexact, anchored_iff he, ← htriples]
    refine (taken_snoc_iff (s := ofGraph g)).symm.trans ⟨fun hends => ?_, ?_⟩
    · by_cases ht : e.triple ∈ ((ofGraph g).performAll as).graph.triples
      · exact .inr ht
      · exact .inl ⟨hends, ht⟩
    · rintro (hnew | ht)
      · exact hnew.1
      · exact hknown e ht
  · rw [size, hexact.seen, List.length_map]

/-! ## An edge that comes too early -/

def ownCall (rank : Nat) (label : String) : Edge :=
  { source := ⟨0⟩, target := ⟨0⟩, kind := .calls, confidence := ⟨false, rank⟩, label := some label }

/-- The first copy comes before the method, the third and the fourth are the best ones, and the last
edge leads nowhere. -/
def retold : List Addition :=
  [.edge (ownCall 9 "early"), .node { kind := .method, name := "a", qualifiedName := "A#a()" },
    .edge (ownCall 1 "weak"), .edge (ownCall 2 "strong"), .edge (ownCall 2 "late"),
    .edge { source := ⟨0⟩, target := ⟨1⟩, kind := .calls }]

theorem keepsBest_retold : Graph.empty.edges = [] ∧ (∀ e, .edge e ∈ retold → e.Fits) ∧
    ((ofGraph .empty).performAll retold).graph.EdgesFit ∧
    KeepsBest .empty retold ((ofGraph .empty).performAll retold) ∧
    ((ofGraph .empty).added retold).map (·.label) = [some "weak"] ∧
    ((ofGraph .empty).performAll retold).graph.edges.map (·.label) = [some "strong"] := by
  have hfits : ∀ e, .edge e ∈ retold → e.Fits := by
    simp [retold, ownCall, Edge.Fits, NodeId.Fits, UInt32.size]
  have hfit : ((ofGraph .empty).performAll retold).graph.EdgesFit := by decide
  exact ⟨rfl, hfits, hfit, keepsBest_performAll rfl hfits hfit, by decide, by decide⟩

end EdgeStore

end Lineage
