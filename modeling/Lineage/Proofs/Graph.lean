import Lineage.Index
import Lineage.Proofs.Keyed
/-! # Graphs as they are built

Nodes are numbered by position in every graph that is made by adding nodes and edges. A canonical
node is the first one that stands for its entity. What a parser leaves open in a node, and the field
types that keys rely on, survive when a node takes over what it lacks from another one of its kind.
-/
namespace Lineage

namespace Node

def renumber (i : NodeId) (n : Node) : Node := { n with id := i }

@[simp] theorem key_renumber (i : NodeId) (n : Node) : (n.renumber i).key = n.key := rfl

/-- Fields carry their type. -/
def Typed (n : Node) : Prop := n.kind = .field → (n.metadatum Meta.type).isSome

/-- A node of a single version says nothing about other versions. -/
structure Unversioned (n : Node) : Prop where
  versions : n.versions = .empty
  status : n.status = none
  firstVersion : n.firstVersion = none
  lastVersion : n.lastVersion = none
  renamedFrom : n.metadatum Meta.renamedFrom = none

@[simp] theorem kind_absorb (n m : Node) : (n.absorb m).kind = n.kind := rfl

theorem metadatum_absorb (n m : Node) (k : String) :
    (n.absorb m).metadatum k = (n.metadatum k).or (m.metadatum k) :=
  TextMap.get?_fillFrom n.metadata m.metadata k

theorem Typed.absorb {n : Node} (h : n.Typed) (m : Node) : (n.absorb m).Typed := by
  intro hk
  rw [metadatum_absorb, Option.isSome_or, h hk, Bool.true_or]

/-- A field without a type could take one over and go by another key; typed nodes keep theirs. -/
theorem Typed.key_absorb {n : Node} (h : n.Typed) (m : Node) : (n.absorb m).key = n.key := by
  have ht : n.kind = .field → ((n.absorb m).metadatum Meta.type) = n.metadatum Meta.type := by
    intro hk
    rw [metadatum_absorb, Option.or_of_isSome (h hk)]
  simp only [key, keyText, kind_absorb, EntityKey.mk.injEq, true_and]
  cases hk : n.kind with
  | field => simp only [ht hk]; rfl
  | project | package | type | method | file => rfl

theorem Unversioned.absorb {n m : Node} (hn : n.Unversioned) (hm : m.Unversioned) :
    (n.absorb m).Unversioned where
  versions := by
    show n.versions.union m.versions = .empty
    rw [hn.versions, hm.versions]; rfl
  status := hn.status
  firstVersion := hn.firstVersion
  lastVersion := hn.lastVersion
  renamedFrom := by rw [metadatum_absorb, hn.renamedFrom, hm.renamedFrom]; rfl

end Node

namespace Graph

inductive Built : Graph → Prop
  | empty : Built .empty
  | addNode {g : Graph} (h : Built g) (n : Node) : Built (g.addNode n).2
  | tryEdge {g : Graph} (h : Built g) (e : Edge) : Built (g.tryEdge e)

theorem nodes_addNodes {α : Type} (f : α → Node) (g : Graph) (xs : List α) :
    (xs.foldl (fun g x => (g.addNode (f x)).2) g).nodes =
      g.nodes ++ xs.mapIdx fun i x => (f x).renumber ⟨g.nodes.length + i⟩ := by
  induction xs generalizing g with
  | nil => simp
  | cons x xs ih =>
    rw [List.foldl_cons, ih, nodes_addNode, List.mapIdx_cons, List.append_assoc]
    simp [Node.renumber, nextNode, Nat.add_assoc, Nat.add_comm 1]

@[simp] theorem nodes_tryEdge (g : Graph) (e : Edge) : (g.tryEdge e).nodes = g.nodes := by
  unfold tryEdge
  cases h : g.addEdge e with
  | none => rfl
  | some r => exact (edges_addEdge h).2.2

theorem built_ofLists (ns : List Node) (es : List Edge) : (ofLists ns es).Built := by
  have hn : ∀ g : Graph, g.Built → (ns.foldl (fun g n => (g.addNode n).2) g).Built := by
    induction ns with
    | nil => exact fun _ h => h
    | cons n ns ih => exact fun g h => ih _ (h.addNode n)
  have he : ∀ g : Graph, g.Built → (es.foldl tryEdge g).Built := by
    induction es with
    | nil => exact fun _ h => h
    | cons e es ih => exact fun g h => ih _ (h.tryEdge e)
  exact he _ (hn _ .empty)

theorem nodes_ofLists (ns : List Node) (es : List Edge) :
    (ofLists ns es).nodes = ns.mapIdx fun i n => n.renumber ⟨i⟩ := by
  have he : ∀ g : Graph, (es.foldl tryEdge g).nodes = g.nodes := by
    induction es with
    | nil => exact fun _ => rfl
    | cons e es ih => exact fun g => (ih _).trans (nodes_tryEdge g e)
  have hn := nodes_addNodes (fun n => n) empty ns
  simp only [empty, List.nil_append, List.length_nil, Nat.zero_add] at hn
  rw [ofLists, he]
  exact hn

/-- The nodes carry the numbers 0, 1, 2 and so on. -/
def Numbered (ns : List Node) : Prop := ns.map (·.id) = (List.range ns.length).map NodeId.mk

theorem Numbered.snoc {ns : List Node} (h : Numbered ns) (n : Node) :
    Numbered (ns ++ [{ n with id := ⟨ns.length⟩ }]) := by
  unfold Numbered at h ⊢
  simp [List.range_succ, h]

theorem Built.numbered {g : Graph} (h : g.Built) : Numbered g.nodes := by
  induction h with
  | empty => rfl
  | addNode _ n ih => exact ih.snoc n
  | tryEdge _ e ih => rwa [nodes_tryEdge]

theorem Numbered.id_getElem {ns : List Node} (h : Numbered ns) {i : Nat} (hi : i < ns.length) :
    ns[i].id = ⟨i⟩ := by
  have hg := List.getElem_of_eq h (by rwa [List.length_map] : i < (ns.map (·.id)).length)
  simpa using hg

theorem Numbered.nodup {ns : List Node} (h : Numbered ns) : (ns.map (·.id)).Nodup := by
  rw [h]
  exact List.nodup_range.map fun _ _ he => congrArg NodeId.number he

theorem Numbered.ascending {ns : List Node} (h : Numbered ns) :
    (ns.map (·.id)).Pairwise (· < ·) := by
  rw [h]
  exact List.pairwise_map.mpr List.pairwise_lt_range

theorem Numbered.le_of_find?_eq_some {ns : List Node} (h : Numbered ns) {p : Node → Bool}
    {c n : Node} (hc : ns.find? p = some c) (hn : n ∈ ns) (hp : p n) : c.id ≤ n.id := by
  obtain ⟨-, i, hi, rfl, hbefore⟩ := List.find?_eq_some_iff_getElem.mp hc
  obtain ⟨j, hj, rfl⟩ := List.getElem_of_mem hn
  have hij : i ≤ j := by
    by_contra hlt
    simpa [hp] using hbefore j (by omega)
  rw [h.id_getElem hi, h.id_getElem hj]
  exact hij

theorem Built.ids_nodup {g : Graph} (h : g.Built) : (g.nodes.map (·.id)).Nodup := h.numbered.nodup

/-- A number below the count of nodes selects a node, if not its own in a graph that is too large. -/
theorem hasNode_of_lt {g : Graph} {i : NodeId} (hi : i.number < g.nodes.length) : g.hasNode i := by
  have hslot : slot i.number < g.nodes.length := Nat.lt_of_le_of_lt (Nat.mod_le _ _) hi
  rw [hasNode, node?, List.getElem?_eq_getElem hslot]
  rfl

/-- Every node has a number of its own in the 32 bits that select a node. -/
def NodesFit (g : Graph) : Prop := g.nodes.length ≤ UInt32.size

instance (g : Graph) : Decidable g.NodesFit :=
  inferInstanceAs (Decidable (g.nodes.length ≤ UInt32.size))

theorem slot_eq_of_lt {g : Graph} (hfit : g.NodesFit) {i : NodeId} (hi : i.number < g.nodes.length) :
    slot i.number = i.number := Nat.mod_eq_of_lt (Nat.lt_of_lt_of_le hi hfit)

theorem number_lt_of_mem {g : Graph} (h : Numbered g.nodes) {n : Node} (hn : n ∈ g.nodes) :
    n.id.number < g.nodes.length := by
  obtain ⟨i, hi, rfl⟩ := List.getElem_of_mem hn
  rw [h.id_getElem hi]
  exact hi

theorem node?_of_mem {g : Graph} (h : Numbered g.nodes) (hfit : g.NodesFit) {n : Node}
    (hn : n ∈ g.nodes) : g.node? n.id = some n := by
  rw [node?, slot_eq_of_lt hfit (number_lt_of_mem h hn)]
  obtain ⟨i, hi, rfl⟩ := List.getElem_of_mem hn
  rw [h.id_getElem hi]
  exact List.getElem?_eq_getElem hi

section FindKey
variable {g : Graph} {n : Node} {k k' : EntityKey} {c : NodeId}

theorem exists_findKey? (hn : n ∈ g.nodes) : ∃ c, g.findKey? n.key = some c := by
  have hs : (g.nodes.find? (·.key = n.key)).isSome := List.find?_isSome.mpr ⟨n, hn, by simp⟩
  obtain ⟨m, hm⟩ := Option.isSome_iff_exists.mp hs
  exact ⟨m.id, by rw [findKey?, hm]; rfl⟩

theorem findKey?_of_nodup (hk : g.keys.Nodup) (hn : n ∈ g.nodes) : g.findKey? n.key = some n.id := by
  rw [findKey?, (find?_key_eq_some_iff hk).mpr ⟨hn, rfl⟩]
  rfl

theorem Numbered.key_eq_of_findKey?_eq (hg : Numbered g.nodes) (h : g.findKey? k = some c)
    (h' : g.findKey? k' = some c) : k = k' := by
  obtain ⟨m, hm, hmc⟩ := Option.map_eq_some_iff.mp h
  obtain ⟨m', hm', hmc'⟩ := Option.map_eq_some_iff.mp h'
  have hmm := List.inj_on_of_nodup_map hg.nodup (List.mem_of_find?_eq_some hm)
    (List.mem_of_find?_eq_some hm') (hmc.trans hmc'.symm)
  have hk : m.key = k := by simpa using List.find?_some hm
  have hk' : m'.key = k' := by simpa using List.find?_some hm'
  rw [← hk, ← hk', hmm]

end FindKey

/-- The first of the nodes that stand for each entity. -/
def canonicalNodes (g : Graph) : List Node :=
  g.nodes.filter fun n => g.findKey? n.key = some n.id

def canonicalIds (g : Graph) : List NodeId := g.canonicalNodes.map (·.id)

/-- A graph that can be indexed: it is built by adding nodes and edges, and fields carry types. -/
structure WellFormed (g : Graph) : Prop where
  built : g.Built
  typed : ∀ n ∈ g.nodes, n.Typed

structure Parsed (g : Graph) : Prop extends g.WellFormed where
  unversioned : ∀ n ∈ g.nodes, n.Unversioned

theorem parsed_ofLists {ns : List Node} (h : ∀ n ∈ ns, n.Typed ∧ n.Unversioned) (es : List Edge) :
    (ofLists ns es).Parsed := by
  have hnode : ∀ n ∈ (ofLists ns es).nodes, n.Typed ∧ n.Unversioned := by
    intro n hn
    rw [nodes_ofLists, List.mem_mapIdx] at hn
    obtain ⟨i, hi, rfl⟩ := hn
    obtain ⟨ht, hu⟩ := h ns[i] (List.getElem_mem hi)
    exact ⟨ht, hu.1, hu.2, hu.3, hu.4, hu.5⟩
  exact ⟨⟨built_ofLists ns es, fun n hn => (hnode n hn).1⟩, fun n hn => (hnode n hn).2⟩

/-! ## A small snapshot -/

/-- Methods of the class `A` with their first lines, three lines each. -/
def ofMethods (ms : List (String × UInt32)) : Graph :=
  .ofLists (ms.map fun m =>
    { kind := .method, name := m.1, qualifiedName := "A#" ++ m.1 ++ "()", filePath := "A.java"
      lineStart := some m.2, lineEnd := some (m.2 + 2) }) []

theorem parsed_ofMethods (ms : List (String × UInt32)) : (ofMethods ms).Parsed := by
  refine parsed_ofLists (fun n hn => ?_) []
  obtain ⟨m, -, rfl⟩ := List.mem_map.mp hn
  exact ⟨nofun, rfl, rfl, rfl, rfl, rfl⟩

end Graph

end Lineage
