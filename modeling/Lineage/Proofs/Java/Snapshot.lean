import Lineage.Proofs.Index
import Lineage.Proofs.Java.Naming
import Lineage.Proofs.Java.Linking
/-! # Snapshots of a project

The graph of a project has one node for each entity and says nothing twice; its edges join what their
kinds ask for, and containment in it is a forest. Main statement: `wellFormed_graph`.
-/
namespace Lineage

/-- The kinds of the edges that say where a node of some kind is declared. -/
def NodeKind.declaredBy : NodeKind → List EdgeKind
  | type => [.declaresType, .declares]
  | method | field => [.declares]
  | project | package | file => []

def Graph.declarations (g : Graph) (n : Node) : List Edge :=
  g.edges.filter fun e => e.target = n.id && n.kind.declaredBy.contains e.kind

namespace Java

/-- The form of the graph of a project, whatever its files declare. -/
structure Snapshot.WellFormed (g : Graph) : Prop where
  keys_nodup : g.keys.Nodup
  unambiguous : (Index.ofGraph g).warnings = []
  triples_nodup : g.triples.Nodup
  joins : ∀ e ∈ g.edges, ∃ s ∈ g.nodes, ∃ t ∈ g.nodes,
    s.id = e.source ∧ t.id = e.target ∧ (s.kind, t.kind) ∈ e.kind.ends
  loopless : ∀ e ∈ g.edges, e.kind.isSupertype → e.source ≠ e.target
  declared_once : ∀ n ∈ g.nodes, n.kind.isDeclared →
    ∃ e, g.declarations n = [e] ∧ e.source < n.id

theorem collisions_ofNodes {ns : List Node} (h : (ns.map Node.key).Nodup) :
    (Index.ofNodes ns).collisions = [] := by
  have hlength := Index.length_collisions ns
  rw [Index.entities_ofNodes h, List.length_map, Nat.add_eq_right] at hlength
  exact List.length_eq_zero_iff.mp hlength

section Numbered
variable {ns : List Node} (h : Graph.Numbered ns)
include h

theorem exists_of_kindAt? {i : NodeId} {k : NodeKind} (hi : kindAt? ns i = some k) :
    ∃ n ∈ ns, n.id = i ∧ n.kind = k := by
  have hlt := lt_of_kindAt? hi
  rw [kindAt?, List.getElem?_eq_getElem hlt] at hi
  exact ⟨ns[i.number], List.getElem_mem hlt, h.id_getElem hlt, Option.some.inj hi⟩

theorem kindAt?_of_mem {n : Node} (hn : n ∈ ns) : kindAt? ns n.id = some n.kind := by
  obtain ⟨i, hi, rfl⟩ := List.getElem_of_mem hn
  rw [h.id_getElem hi, kindAt?, List.getElem?_eq_getElem hi]
  rfl

end Numbered

theorem declarations_eq {g : Graph} (hn : Graph.Numbered g.nodes)
    (hc : Contained g.nodes g.triples) {n : Node} (hmem : n ∈ g.nodes) :
    g.declarations n = g.edges.filter fun e => e.target = n.id && e.kind.isContainment := by
  refine List.filter_congr fun e he => ?_
  by_cases ht : e.target = n.id
  · obtain ⟨a, b, -, hb, hends⟩ := hc.joins e.triple (List.mem_map_of_mem he)
    obtain rfl : n.kind = b := by
      have hb' : kindAt? g.nodes e.target = some b := hb
      rw [ht, kindAt?_of_mem hn hmem] at hb'
      exact Option.some.inj hb'
    have hends' : (a, n.kind) ∈ e.kind.ends := hends
    simp only [ht, decide_true, Bool.true_and]
    revert hends'
    cases e.kind <;> cases n.kind <;> simp [EdgeKind.ends, NodeKind.declaredBy,
      EdgeKind.isContainment]
  · simp [ht]

/-- The nodes of all files together go by keys of their own. -/
theorem nodup_keys_graph (projectName : String) {files : List FileFacts} (h : Nameable files) :
    (Snapshot.graph projectName files).keys.Nodup := by
  have hkeyed := Assembly.keyed_addFiles projectName h
  have htypes := Assembly.adds_foldl_nil Assembly.adds_linkSupertypes
    (files.foldl Assembly.addFile (.start projectName)) (files.foldl Assembly.addFile
      (.start projectName)).types
  exact ((hkeyed.of_adds_nil htypes).of_adds_nil (Assembly.adds_linkAll _ _)).nodup

/-- The graph of a project is well-formed. Types nested in types, types declared twice and types that
mean each other need no care. -/
theorem wellFormed_graph (projectName : String) {files : List FileFacts} (h : Nameable files) :
    Snapshot.WellFormed (Snapshot.graph projectName files) := by
  have hadded := Assembly.sound_addFiles projectName files
  have hlinked := hadded.linkTypes.linkMethods
  have hkeys := nodup_keys_graph projectName h
  have hnumbered : Graph.Numbered (Snapshot.graph projectName files).nodes := hlinked.numbered
  have hcontained : Contained (Snapshot.graph projectName files).nodes
    (Snapshot.graph projectName files).triples := hlinked.contained
  refine ⟨hkeys, ?_, hcontained.nodup, ?_, ?_, ?_⟩
  · rw [Index.warnings, Index.ofGraph, collisions_ofNodes hkeys]
    rfl
  · intro e he
    obtain ⟨a, b, ha, hb, hends⟩ := hcontained.joins e.triple (List.mem_map_of_mem he)
    obtain ⟨s, hs, hsid, rfl⟩ := exists_of_kindAt? hnumbered ha
    obtain ⟨t, ht, htid, rfl⟩ := exists_of_kindAt? hnumbered hb
    exact ⟨s, hs, t, ht, hsid, htid, hends⟩
  · intro e he
    exact hcontained.loopless e.triple (List.mem_map_of_mem he)
  · intro n hn hk
    obtain ⟨t, ht, hlt⟩ := hcontained.held n.id n.kind (kindAt?_of_mem hnumbered hn) hk
    rw [holders, Graph.triples, List.filter_map, List.map_eq_singleton_iff] at ht
    obtain ⟨e, he, rfl⟩ := ht
    refine ⟨e, ?_, hlt⟩
    rw [declarations_eq hnumbered hcontained hn]
    exact he

/-! ## A project with a type declared twice -/

def classFacts (name qualifiedName : String) (outer : Option Nat) (superclasses : List String) :
    TypeFacts where
  name
  qualifiedName
  kind := .classType
  header := "class " ++ name
  modifiers := ""
  doc := none
  lines := ⟨1, 9⟩
  outer
  superclasses
  interfaces := []
  fields := [⟨"next", "Node", "", "Node next;", ⟨2, 2⟩⟩]
  methods :=
    [{ name := "last", paramTypes := [], returnType := some "Node", throws := [], modifiers := ""
       annotations := [], isConstructor := false, source := "Node last() {}", doc := none
       lines := ⟨3, 3⟩
       body := { calls := [⟨"last", .other "next", 0⟩], fieldUses := [⟨"next", false⟩] } }]

def nodesTwice : List FileFacts :=
  [{ path := "a/Node.java", package := some "a", imports := [], hasErrors := false
     types :=
       [classFacts "Node" "a.Node" none [], classFacts "Leaf" "a.Node.Leaf" (some 0) ["Node"]] },
   { path := "b/Node.java", package := some "a", imports := [], hasErrors := false
     types :=
       [classFacts "Node" "a.Node" none [], classFacts "Leaf" "a.Node.Leaf" (some 0) []] }]

theorem wellFormed_nodesTwice :
    Nameable nodesTwice ∧ Snapshot.WellFormed (Snapshot.graph "app" nodesTwice) := by
  have hn : Nameable nodesTwice :=
    ⟨by decide, by decide, separate_of_hashless (by decide), by decide, by decide⟩
  exact ⟨hn, wellFormed_graph "app" hn⟩

end Java

end Lineage
