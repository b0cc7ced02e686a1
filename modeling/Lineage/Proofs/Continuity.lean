import Lineage.Proofs.Placement
/-! # Renamed methods and the edges that document them

A method that an operation renames goes on as one node, which remembers its former key. The edge that
documents the operation leads from that node to itself if the operation connects the node with
itself, as it does unless its first locations are said to be something else than methods: matching
takes them for methods all the same, merging does not. Main statements: `connects_of_proposedBy`,
`continued_run`.
-/
namespace Lineage

open Refactoring (Operation Location)
open Index (ofGraph)

/-- Nothing is said of what the location points at, or it is said to be a method. -/
def Refactoring.Location.MayBeMethod (l : Location) : Prop :=
  l.elementKind = none ∨ l.elementKind = some .method

/-- The first locations of both sides may be methods. -/
def Refactoring.Operation.MayKeepMethod (op : Operation) : Prop :=
  (∀ l ∈ op.before.head?, l.MayBeMethod) ∧ ∀ l ∈ op.after.head?, l.MayBeMethod

theorem Refactoring.Kind.target?_of_rekeysMethod {k : Kind} (h : k.rekeysMethod = true) :
    k.target? = some .method := by
  rw [rekeysMethod, Bool.and_eq_true] at h
  exact eq_of_beq h.2

theorem Refactoring.Kind.edgeKind_ne_refactored {k : Kind} (h : k.rekeysMethod = true) :
    k.edgeKind ≠ .refactored := by
  rw [rekeysMethod, Bool.and_eq_true] at h
  unfold edgeKind
  cases hf : k.family with
  | rename | move | extract | inline | changeSignature => nofun
  | other =>
    rw [hf] at h
    exact absurd h.1 (by decide)

namespace Merge

/-- What a merge makes of a rekey: the merged node, its former key and the edge on it. -/
structure Continued (v1 v2 : Graph) (ops : List Operation) (r : Merged) (k : Rekey) (x : Node) :
    Prop where
  mem : x ∈ r.graph.nodes
  older : r.ids1.lookup k.v1 = some x.id
  newer : r.ids2.lookup k.v2 = some x.id
  renamedFrom : x.metadatum Meta.renamedFrom = some k.oldKey
  documented_iff : (∃ e ∈ r.graph.edges, e.triple = ⟨x.id, k.operation.edgeKind, x.id⟩) ↔
    ∃ op ∈ ops, op.kind.edgeKind = k.operation.edgeKind ∧ Connects v1 v2 r op x.id x.id
  proposed : ∃ op ∈ ops, k.ProposedBy v1 v2 op ∧
    (op.MayKeepMethod → Connects v1 v2 r op x.id x.id)

section Landing
variable {g : Graph} (hg : g.Built) {origin : MergedNode → Option NodeId} {ns : List MergedNode}
variable {op : Operation} {l : Location} {ls : List Location} {i j : NodeId} {t : String}
include hg

/-- A location that may be a method lands where matching finds a method. -/
theorem head?_landings (hop : op.kind.rekeysMethod = true) (hl : l.MayBeMethod)
    (hfirst : ls.head? = some l) (hend : Rekey.endpoint? g (ofGraph g) l = some (i, t))
    (hi : (idMap g (ofGraph g) origin ns).lookup i = some j) :
    (landings g (idMap g (ofGraph g) origin ns) op ls).head? = some j := by
  have hhint : op.hint? l = some .method := by
    unfold Operation.hint?
    rcases hl with hl | hl
    · rw [hl, Refactoring.Kind.target?_of_rekeysMethod hop]
      rfl
    · rw [hl]
      rfl
  simp only [Rekey.endpoint?, bind, Option.bind_eq_some_iff, pure, Option.some.injEq,
    Prod.mk.injEq] at hend
  obtain ⟨a, ha, c, hc, _, -, rfl, -⟩ := hend
  obtain ⟨n, hn, rfl, -⟩ := Refactoring.exists_of_target? ha
  have hlanding : landing? g (idMap g (ofGraph g) origin ns) op l = some j := by
    rw [landing?, hhint, ha, Option.bind_some, ← lookup_canonical hg hn hc]
    exact hi
  cases ls with
  | nil => cases hfirst
  | cons l' ls =>
    cases hfirst
    rw [landings, List.filterMap_cons_some hlanding]
    rfl

end Landing

section Run
variable {detector : String} {v1 v2 : Graph} (h1 : v1.WellFormed) (h2 : v2.WellFormed)
variable {ops : List Operation} {op : Operation} {span : Span} {k : Rekey} {x : Node} {i : NodeId}

include h1 h2 in
theorem connects_of_proposedBy (hop : k.ProposedBy v1 v2 op) (hmay : op.MayKeepMethod)
    (holder : (run detector v1 v2 (.ofGraphs v1 v2 ops) ops span).1.ids1.lookup k.v1 = some i)
    (hnewer : (run detector v1 v2 (.ofGraphs v1 v2 ops) ops span).1.ids2.lookup k.v2 = some i) :
    Connects v1 v2 (run detector v1 v2 (.ofGraphs v1 v2 ops) ops span).1 op i i := by
  obtain ⟨l, hl, hend⟩ := hop.before
  obtain ⟨l', hl', hend'⟩ := hop.after
  exact fansOut_of_head?
    (head?_landings h1.built hop.rekeysMethod (hmay.1 l hl) hl hend holder)
    (head?_landings h2.built hop.rekeysMethod (hmay.2 l' hl') hl' hend' hnewer)

theorem renamedFrom_kept_of_rekey {m : Matching} {old new : Node} {p : Pair}
    (hk : m.rekeyOf2? p.v2 = some k) :
    (kept span m old new p).metadatum Meta.renamedFrom = some k.oldKey := by
  unfold kept Node.metadatum
  simp only [hk]
  rw [TextMap.get?_insert, if_pos rfl]

variable (detector span) in
include h1 h2 in
theorem exists_rekeyed (hk : k ∈ (Matching.ofGraphs v1 v2 ops).rekeys) :
    ∃ x ∈ (run detector v1 v2 (.ofGraphs v1 v2 ops) ops span).1.graph.nodes,
      (run detector v1 v2 (.ofGraphs v1 v2 ops) ops span).1.ids1.lookup k.v1 = some x.id ∧
      (run detector v1 v2 (.ofGraphs v1 v2 ops) ops span).1.ids2.lookup k.v2 = some x.id ∧
      x.metadatum Meta.renamedFrom = some k.oldKey := by
  have hvalid := (Matching.admissible_rekeys h1 h2 ops).valid k hk
  obtain ⟨old, hold, holdKey, holdId⟩ := hvalid.old
  obtain ⟨new, hnew, hnewKey, hnewId⟩ := hvalid.new
  have hpair : .ofEntities old new ∈ (Matching.ofGraphs v1 v2 ops).pairs := by
    rw [Matching.ofEntities_eq_ofRekey h1 h2 hvalid hold hnew ⟨holdKey, holdId⟩ ⟨hnewKey, hnewId⟩]
    exact (Matching.mem_pairs_iff h1 h2).mpr (.inl ⟨k, hk, rfl⟩)
  have hmem : _ ∈ nodes span (.ofGraphs v1 v2 ops) :=
    (mem_nodes_iff h1 h2).mpr (.kept hold hnew hpair)
  obtain ⟨j, hj, hget⟩ := List.getElem_of_mem hmem
  have hrekey : (Matching.ofGraphs v1 v2 ops).rekeyOf2? new.id = some k :=
    (rekeyOf2?_eq_some_iff h1 h2 hnew).mpr ⟨hk, hnewKey.symm⟩
  obtain ⟨a, ha, hai, hak⟩ := h1.isIndexOf.mem_nodes old hold
  obtain ⟨b, hb, hbi, hbk⟩ := h2.isIndexOf.mem_nodes new hnew
  have hlookup1 := ((settles1 h1 h2 ops span).lookup_eq_some_iff ha (j := ⟨j⟩)).mpr
    ⟨hj, by rw [hget, hak, Index.findKey?_key_ofGraph hold]⟩
  have hlookup2 := ((settles2 h1 h2 ops span).lookup_eq_some_iff hb (j := ⟨j⟩)).mpr
    ⟨hj, by rw [hget, hbk, Index.findKey?_key_ofGraph hnew]⟩
  rw [hai, holdId] at hlookup1
  rw [hbi, hnewId] at hlookup2
  refine ⟨_, mem_nodes_run_iff.mpr ⟨j, hj, rfl⟩, hlookup1, hlookup2, ?_⟩
  rw [hget]
  change (kept span _ old.node new.node (.ofEntities old new)).metadatum Meta.renamedFrom = _
  exact renamedFrom_kept_of_rekey hrekey

include h1 h2 in
/-- The edge on a rekeyed node is there if some operation of its kind connects the node with itself;
the one that proposed the rekey does unless it says that it is not about methods. -/
theorem continued_run (hs1 : v1.Structural) (hs2 : v2.Structural)
    (hk : k ∈ (Matching.ofGraphs v1 v2 ops).rekeys) :
    ∃ x, Continued v1 v2 ops (run detector v1 v2 (.ofGraphs v1 v2 ops) ops span).1 k x := by
  obtain ⟨x, hx, holder, hnewer, hformer⟩ := exists_rekeyed detector h1 h2 span hk
  obtain ⟨op, hop, hproposed⟩ := Rekey.exists_proposedBy hk
  have hkind : k.operation.edgeKind ≠ .refactored := by
    rw [← hproposed.kind]
    exact Refactoring.Kind.edgeKind_ne_refactored hproposed.rekeysMethod
  exact ⟨x, hx, holder, hnewer, hformer,
    exists_edge_iff_connects h1.built h2.built rfl hs1 hs2 (isEvolution_edgeKind _) hkind,
    op, hop, hproposed, fun hmay => connects_of_proposedBy h1 h2 hproposed hmay holder hnewer⟩

end Run

section Sample
open Lineage.Graph (ofMethods)

theorem continued_renamed :
    (ofMethods [("foo", 3)]).WellFormed ∧ (ofMethods [("bar", 3)]).WellFormed ∧
      (ofMethods [("foo", 3)]).Structural ∧ (ofMethods [("bar", 3)]).Structural ∧
      ⟨⟨0⟩, ⟨0⟩, "A#foo()", "A#bar()", .renameMethod⟩ ∈
        (Matching.ofGraphs (ofMethods [("foo", 3)]) (ofMethods [("bar", 3)]) [.renameAt 3]).rekeys ∧
      ∃ x, Continued (ofMethods [("foo", 3)]) (ofMethods [("bar", 3)]) [.renameAt 3]
        (run defaultDetector (ofMethods [("foo", 3)]) (ofMethods [("bar", 3)])
          (.ofGraphs (ofMethods [("foo", 3)]) (ofMethods [("bar", 3)]) [.renameAt 3]) [.renameAt 3]
          ⟨.new "c0" 0, .new "c1" 1⟩).1
        ⟨⟨0⟩, ⟨0⟩, "A#foo()", "A#bar()", .renameMethod⟩ x := by
  have h1 : (ofMethods [("foo", 3)]).WellFormed := (Graph.parsed_ofMethods _).toWellFormed
  have h2 : (ofMethods [("bar", 3)]).WellFormed := (Graph.parsed_ofMethods _).toWellFormed
  have hs1 : (ofMethods [("foo", 3)]).Structural := by decide +kernel
  have hs2 : (ofMethods [("bar", 3)]).Structural := by decide +kernel
  have hk : (⟨⟨0⟩, ⟨0⟩, "A#foo()", "A#bar()", .renameMethod⟩ : Rekey) ∈ (Matching.ofGraphs
      (ofMethods [("foo", 3)]) (ofMethods [("bar", 3)]) [.renameAt 3]).rekeys := by
    decide +kernel
  exact ⟨h1, h2, hs1, hs2, hk, continued_run h1 h2 hs1 hs2 hk⟩

/-- The renaming of a method whose old location is said to be a type. -/
def renameType : Operation :=
  { Refactoring.Operation.renameAt 3 with
    before := [{ filePath := "A.java", startLine := 3, endLine := 5, elementKind := some .type }] }

def undocumented : Merged :=
  (run defaultDetector (ofMethods [("foo", 3)]) (ofMethods [("bar", 3)])
    (.ofGraphs (ofMethods [("foo", 3)]) (ofMethods [("bar", 3)]) [renameType]) [renameType]
    ⟨.new "c0" 0, .new "c1" 1⟩).1

/-- Matching renames the method, and merging finds no type to put the edge on. -/
theorem not_documented_renameType :
    (ofMethods [("foo", 3)]).WellFormed ∧ (ofMethods [("bar", 3)]).WellFormed ∧
      (ofMethods [("foo", 3)]).Structural ∧ (ofMethods [("bar", 3)]).Structural ∧
      ¬∀ k ∈ (Matching.ofGraphs (ofMethods [("foo", 3)]) (ofMethods [("bar", 3)])
          [renameType]).rekeys,
        ∃ i, undocumented.ids1.lookup k.v1 = some i ∧ undocumented.ids2.lookup k.v2 = some i ∧
          ∃ e ∈ undocumented.graph.edges, e.triple = ⟨i, k.operation.edgeKind, i⟩ := by
  have hrekeys : (Matching.ofGraphs (ofMethods [("foo", 3)]) (ofMethods [("bar", 3)])
      [renameType]).rekeys = [⟨⟨0⟩, ⟨0⟩, "A#foo()", "A#bar()", .renameMethod⟩] := by
    decide +kernel
  have hedges : undocumented.graph.edges = [] := by decide +kernel
  refine ⟨(Graph.parsed_ofMethods _).toWellFormed, (Graph.parsed_ofMethods _).toWellFormed,
    by decide +kernel, by decide +kernel, fun h => ?_⟩
  obtain ⟨i, -, -, e, he, -⟩ := h _ (hrekeys ▸ List.mem_cons_self)
  rw [hedges] at he
  cases he

end Sample

end Merge

end Lineage
