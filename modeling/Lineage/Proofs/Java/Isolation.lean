import Lineage.Proofs.Matching
import Lineage.Proofs.Java.Declarations
import Lineage.Proofs.Java.Trees
import Lineage.Proofs.Java.Origins
/-! # Edits stay where they are made

What becomes of an entity from one version of a project to another is decided by its own declaration
in both: by a type's header and modifiers, a method's text, modifiers and return type, a field's own
text, type and modifiers, a file's package and imports. Nothing around the declaration, and nothing
in a type's body, has a say. Main statement: `edits_isolated`.
-/
namespace Lineage.Java

/-! ## Fingerprints of declarations -/

namespace Assembly

theorem fingerprint_fileNode (f : FileFacts) :
    (fileNode f).fingerprint = ⟨.file, [f.package, some (Text.join "," f.imports)]⟩ := by
  unfold fileNode withPackage
  cases f.package <;>
    simp [Node.fingerprint, Node.metadatum, Node.withMetadatum, Meta.package, Meta.imports]

theorem fingerprint_typeNode (f : FileFacts) (t : TypeFacts) :
    (typeNode f t).fingerprint = ⟨.type, [some t.header, some t.modifiers]⟩ := by
  unfold typeNode withPackage
  cases f.package <;>
    simp [Node.fingerprint, Node.metadatum, Node.withMetadatum, withLines, Meta.package,
      Meta.modifiers]

theorem fingerprint_fieldNode (path : String) (t : TypeFacts) (x : FieldFacts) :
    (fieldNode path t x).fingerprint =
      ⟨.field, [some x.source, some x.type, some x.modifiers]⟩ := by
  simp [fieldNode, Node.fingerprint, Node.metadatum, Node.withMetadatum, withLines, Meta.type,
    Meta.modifiers]

theorem fingerprint_methodNode (path : String) (t : TypeFacts) (m : MethodFacts) :
    (methodNode path t m).fingerprint = ⟨.method, [some m.source,
      some (t.qualifiedName ++ "#" ++ m.tail), some m.modifiers, m.returnType]⟩ := by
  unfold methodNode
  cases m.returnType <;>
    simp [Node.fingerprint, Node.metadatum, Node.withMetadatum, withLines, Meta.modifiers,
      Meta.methodKind, Meta.returnType]

end Assembly

namespace Declaration

/-- Two declarations say the same of what they declare. -/
def Agrees : Declaration → Declaration → Prop
  | file f, file f' => f.package = f'.package ∧ f.imports = f'.imports
  | type _ t, type _ t' => t.header = t'.header ∧ t.modifiers = t'.modifiers
  | method _ _ m, method _ _ m' =>
    m.source = m'.source ∧ m.modifiers = m'.modifiers ∧ m.returnType = m'.returnType
  | field _ _ x, field _ _ x' =>
    x.source = x'.source ∧ x.type = x'.type ∧ x.modifiers = x'.modifiers
  | _, _ => False

def place : Declaration → FileFacts
  | file f | type f _ | method f _ _ | field f _ _ => f

/-- A declaration is told by the unit of its file, and there by the tree that it stands for. -/
def ToldIn (unit : Tree) : Declaration → Prop
  | file f => f.ToldBy unit
  | type _ t => ∃ u, unit.Within u ∧ t.ToldBy u
  | method _ _ m => ∃ u, unit.Within u ∧ m.ToldBy u
  | field _ _ x => ∃ u, unit.Within u ∧ x.ToldBy u

/-- Declarations of one entity have equal fingerprints if and only if they say the same. -/
theorem fingerprint_eq_iff {parse parse' : Parser} (hparse : parse.Reliable)
    (hparse' : parse'.Reliable) {s s' : String} {unit unit' : Tree} {d d' : Declaration}
    (h : parse s = some unit) (h' : parse' s' = some unit')
    (hd : d.ToldIn unit) (hd' : d'.ToldIn unit') (hk : d.node.key = d'.node.key) :
    d.node.fingerprint = d'.node.fingerprint ↔ d.Agrees d' := by
  cases d with
  | file f =>
    cases d' with
    | file f' =>
      have hjoin : Text.join "," f.imports = Text.join "," f'.imports ↔ f.imports = f'.imports :=
        ⟨join_injective (hd.solid_imports hparse h) (hd'.solid_imports hparse' h'), congrArg _⟩
      simp [node, Agrees, Assembly.fingerprint_fileNode, hjoin]
    | _ => simp [node, Node.key] at hk
  | type =>
    cases d' with
    | type => simp [node, Agrees, Assembly.fingerprint_typeNode]
    | _ => simp [node, Node.key] at hk
  | method =>
    cases d' with
    | method =>
      have htext := congrArg EntityKey.text hk
      simp only [node, Assembly.key_methodNode] at htext
      simp [node, Agrees, Assembly.fingerprint_methodNode, htext]
    | _ => simp [node, Node.key] at hk
  | field =>
    cases d' with
    | field => simp [node, Agrees, Assembly.fingerprint_fieldNode]
    | _ => simp [node, Node.key] at hk

end Declaration

/-! ## Projects -/

/-- A project's name, its files as paths and sources, and the parser that reads them. -/
structure Project where
  parser : Parser
  name : String
  sources : List (String × String)

namespace Project

def files (p : Project) : List FileFacts := p.sources.map fun s => .ofSource p.parser s.1 s.2

def graph (p : Project) : Graph := Snapshot.graph p.name p.files

def Valid (p : Project) : Prop := ∀ s ∈ p.sources, (p.parser s.2).isSome

def claims (p : Project) (k : EntityKey) : List Declaration :=
  (Declaration.ofFiles p.files).filter (·.node.key = k)

/-- A declaration stands in a file of the project and is told by its source. -/
def Writes (p : Project) (d : Declaration) : Prop :=
  ∃ s ∈ p.sources, ∃ unit, p.parser s.2 = some unit ∧ d.place = .ofSource p.parser s.1 s.2 ∧
    d.ToldIn unit

theorem writes_of_mem_claims {p : Project} (hparser : p.parser.Reliable) (hp : p.Valid)
    {k : EntityKey} {d : Declaration} (hd : d ∈ p.claims k) : p.Writes d := by
  obtain ⟨f, hf, hd⟩ := List.mem_flatMap.mp (List.mem_filter.mp hd).1
  obtain ⟨s, hs, rfl⟩ := List.mem_map.mp hf
  obtain ⟨unit, hunit⟩ := Option.isSome_iff_exists.mp (hp s hs)
  have hwritten := written_ofSource hparser hunit s.1
  refine ⟨s, hs, unit, hunit, ?_⟩
  rcases List.mem_cons.mp hd with rfl | hd
  · exact ⟨rfl, hwritten.self⟩
  obtain ⟨t, ht, hd⟩ := List.mem_flatMap.mp hd
  have htype := hwritten.types t ht
  rcases List.mem_cons.mp hd with rfl | hd
  · exact ⟨rfl, htype.self⟩
  rcases List.mem_append.mp hd with hd | hd
  · obtain ⟨x, hx, rfl⟩ := List.mem_map.mp hd
    exact ⟨rfl, htype.fields x hx⟩
  · obtain ⟨m, hm, rfl⟩ := List.mem_map.mp hd
    exact ⟨rfl, htype.methods m hm⟩

end Project

/-! ## What becomes of an entity -/

open Index (ofGraph)

/-- An entity of both versions: projects and packages never change, and whatever one declaration
claims in each version is unchanged if and only if the two declarations say the same. -/
structure Isolated (p q : Project) (k : EntityKey) (m : Matching) (i j : NodeId) : Prop where
  same : m.status1 i = m.status2 j
  unwritten : k.kind.isWritten = false → m.status1 i = .unchanged
  written : ∀ d d', p.claims k = [d] → q.claims k = [d'] → p.Writes d ∧ q.Writes d' ∧
    (m.status1 i = .unchanged ↔ d.Agrees d') ∧ (m.status1 i = .modified ↔ ¬d.Agrees d')

theorem fingerprint_of_claims {p : Project} {k : EntityKey} (hk : k.kind.isWritten = true)
    {d : Declaration} (hd : p.claims k = [d]) {e : Entity} (he : e ∈ (ofGraph p.graph).entities)
    (hkey : e.key = k) : e.node.fingerprint = d.node.fingerprint ∧ d.node.key = k := by
  have hwf : p.graph.WellFormed := wellFormed_project p.name p.files
  obtain ⟨n, hn, -, hnk⟩ := hwf.isIndexOf.mem_nodes e he
  obtain ⟨hnode, hfilter⟩ := node_of_claims hk hd hn (hnk.trans hkey)
  have hsame : e.node = n := by
    refine Index.node_eq_of_filter hwf.built.ids_nodup he ?_
    rw [hkey]
    exact hfilter
  rw [hsame, ← hnode]
  exact ⟨rfl, hnk.trans hkey⟩

/-- What has no text of its own goes by all that its fingerprint holds. -/
theorem fingerprint_eq_of_unwritten {n n' : Node} (hk : n.kind.isWritten = false)
    (h : n.key = n'.key) : n.fingerprint = n'.fingerprint := by
  simp only [Node.key, EntityKey.mk.injEq] at h
  obtain ⟨hkind, htext⟩ := h
  cases hn : n.kind with
  | project | package =>
    simp only [Node.keyText, ← hkind, hn] at htext
    simp only [Node.fingerprint, ← hkind, hn, htext]
  | file | type | method | field => simp [hn, NodeKind.isWritten] at hk

theorem edits_isolated {p q : Project} (hparser : p.parser.Reliable)
    (hparser' : q.parser.Reliable) (hp : p.Valid) (hq : q.Valid) {k : EntityKey} {i j : NodeId}
    (hi : p.graph.findKey? k = some i) (hj : q.graph.findKey? k = some j) :
    Isolated p q k (Matching.ofGraphs p.graph q.graph []) i j := by
  have h1 : p.graph.WellFormed := wellFormed_project p.name p.files
  have h2 : q.graph.WellFormed := wellFormed_project q.name q.files
  have hcoherent := Matching.coherent_ofGraphs h1 h2 []
  obtain ⟨old, hold, hkold, hidold⟩ := h1.lookup?_eq_some_iff.mp ((h1.isIndexOf.lookup? k).trans hi)
  obtain ⟨new, hnew, hknew, hidnew⟩ := h2.lookup?_eq_some_iff.mp ((h2.isIndexOf.lookup? k).trans hj)
  -- Without operations a pair is two entities of one key, and its status compares fingerprints.
  have hpair : Pair.ofEntities old new ∈ (Matching.ofGraphs p.graph q.graph []).pairs :=
    (Matching.mem_pairs_iff h1 h2).mpr
      (.inr ⟨old, hold, new, hnew, hkold.trans hknew.symm, rfl⟩)
  have hs1 := hcoherent.status1_of_mem hpair
  have hs2 := hcoherent.status2_of_mem hpair
  simp only [Pair.ofEntities, hidold, hidnew] at hs1 hs2
  refine ⟨hs1.trans hs2.symm, fun hk => ?_, fun d d' hd hd' => ?_⟩
  · have hsame : old.node.fingerprint = new.node.fingerprint := by
      have hk1 := h1.isIndexOf.key_node old hold
      have hk2 := h2.isIndexOf.key_node new hnew
      refine fingerprint_eq_of_unwritten ?_ (by rw [hk1, hk2, hkold, hknew])
      rwa [show old.node.kind = k.kind by rw [← hkold, ← hk1]; rfl]
    rw [hs1, if_pos hsame]
  · have hwrites := Project.writes_of_mem_claims hparser hp (hd ▸ List.mem_singleton_self d)
    have hwrites' := Project.writes_of_mem_claims hparser' hq (hd' ▸ List.mem_singleton_self d')
    have hk : k.kind.isWritten = true := by
      have hmem : d ∈ p.claims k := hd ▸ List.mem_singleton_self d
      have hkey : d.node.key = k := by simpa using (List.mem_filter.mp hmem).2
      rw [← hkey]
      exact d.isWritten_node
    obtain ⟨hf, hkd⟩ := fingerprint_of_claims hk hd hold hkold
    obtain ⟨hf', hkd'⟩ := fingerprint_of_claims hk hd' hnew hknew
    have hagrees : d.node.fingerprint = d'.node.fingerprint ↔ d.Agrees d' := by
      obtain ⟨s, -, unit, hunit, -, htold⟩ := hwrites
      obtain ⟨s', -, unit', hunit', -, htold'⟩ := hwrites'
      exact Declaration.fingerprint_eq_iff hparser hparser' hunit hunit' htold htold'
        (hkd.trans hkd'.symm)
    refine ⟨hwrites, hwrites', ?_⟩
    rw [hs1, hf, hf', ← hagrees]
    split <;> simp_all

/-! ## A field next to one that is edited -/

def siblings : Project := ⟨Tree.ofSource?, "app", [("A.java", "class A { int n, k; }")]⟩

def siblingEdited : Project := ⟨Tree.ofSource?, "app", [("A.java", "class A { int n, k = 1; }")]⟩

theorem edits_isolated_siblings :
    siblings.parser.Reliable ∧ siblingEdited.parser.Reliable ∧
      siblings.Valid ∧ siblingEdited.Valid ∧
      siblings.graph.findKey? ⟨.field, "A#n:int"⟩ = some ⟨3⟩ ∧
      siblingEdited.graph.findKey? ⟨.field, "A#n:int"⟩ = some ⟨3⟩ ∧
      (siblings.claims ⟨.field, "A#n:int"⟩).length = 1 ∧
      (siblingEdited.claims ⟨.field, "A#n:int"⟩).length = 1 ∧
      Isolated siblings siblingEdited ⟨.field, "A#n:int"⟩
        (Matching.ofGraphs siblings.graph siblingEdited.graph []) ⟨3⟩ ⟨3⟩ := by
  have hvalid : siblings.Valid ∧ siblingEdited.Valid := by
    unfold Project.Valid
    decide +kernel
  have hfound : siblings.graph.findKey? ⟨.field, "A#n:int"⟩ = some ⟨3⟩ := by decide +kernel
  have hfound' : siblingEdited.graph.findKey? ⟨.field, "A#n:int"⟩ = some ⟨3⟩ := by decide +kernel
  exact ⟨reliable_ofSource, reliable_ofSource, hvalid.1, hvalid.2, hfound, hfound',
    by decide +kernel, by decide +kernel,
    edits_isolated reliable_ofSource reliable_ofSource hvalid.1 hvalid.2 hfound hfound'⟩

end Lineage.Java
