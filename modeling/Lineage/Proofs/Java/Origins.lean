import Lineage.Proofs.Java.Snapshot
/-! # Where nodes come from

Each node of a project's graph that stands for a file, a type or a member is the node of one of the
declarations in the files, and no declaration gives two nodes. Main statements: `origins_graph`,
`wellFormed_project`.
-/
namespace Lineage

/-- Whether entities of some kind have a text of their own in a source. -/
def NodeKind.isWritten : NodeKind → Bool
  | file | type | method | field => true
  | project | package => false

namespace Java

/-- Something that a file declares: the file itself, a type or a member. -/
inductive Declaration where
  | file (f : FileFacts)
  | type (f : FileFacts) (t : TypeFacts)
  | method (f : FileFacts) (t : TypeFacts) (m : MethodFacts)
  | field (f : FileFacts) (t : TypeFacts) (x : FieldFacts)

namespace Declaration

def node : Declaration → Node
  | file f => Assembly.fileNode f
  | type f t => Assembly.typeNode f t
  | method f t m => Assembly.methodNode f.path t m
  | field f t x => Assembly.fieldNode f.path t x

def ofType (f : FileFacts) (t : TypeFacts) : List Declaration :=
  type f t :: (t.fields.map (field f t) ++ t.methods.map (method f t))

def ofFile (f : FileFacts) : List Declaration := file f :: f.types.flatMap (ofType f)

/-- All that the files of a project declare, also what is declared again. -/
def ofFiles (files : List FileFacts) : List Declaration := files.flatMap ofFile

theorem isWritten_node (d : Declaration) : d.node.kind.isWritten = true := by
  cases d <;> simp [node, NodeKind.isWritten]

theorem id_withPackage (p : Option String) (n : Node) :
    (Assembly.withPackage p n).id = n.id := by cases p <;> rfl

theorem id_node (d : Declaration) : d.node.id = ⟨0⟩ := by
  cases d with
  | file f => exact id_withPackage _ _
  | type f t => exact id_withPackage _ _
  | method f t m =>
    change (Assembly.methodNode f.path t m).id = ⟨0⟩
    unfold Assembly.methodNode
    cases m.returnType <;> rfl
  | field f t x => rfl

theorem renumber_node (d : Declaration) : d.node.renumber ⟨0⟩ = d.node := by
  rw [← d.id_node]
  rfl

theorem typed_node (d : Declaration) : d.node.Typed := by
  cases d with
  | field f t x =>
    intro _
    simp [node, Assembly.fieldNode, Assembly.withLines, Node.withMetadatum, Node.metadatum,
      Meta.type, Meta.modifiers]
  | _ => exact fun hk => by simp [node] at hk

end Declaration

/-! ## Steps of an assembly -/

/-- The nodes with a text of their own, apart from their numbers. -/
def written (ns : List Node) : List Node :=
  (ns.filter (·.kind.isWritten)).map (Node.renumber ⟨0⟩)

theorem written_append (ns ms : List Node) : written (ns ++ ms) = written ns ++ written ms := by
  simp [written]

/-- What a graph grows by, apart from projects and packages, are the nodes of some declarations. -/
structure Traces (g g' : Graph) (ds : List Declaration) : Prop where
  built : g.Built → g'.Built
  nodes : written g'.nodes = written g.nodes ++ ds.map Declaration.node

namespace Traces

variable {g g' g'' : Graph} {ds ds' : List Declaration}

theorem refl (g : Graph) : Traces g g [] := ⟨id, (List.append_nil _).symm⟩

theorem trans (h : Traces g g' ds) (h' : Traces g' g'' ds') : Traces g g'' (ds ++ ds') := by
  refine ⟨h'.built ∘ h.built, ?_⟩
  rw [h'.nodes, h.nodes, List.map_append, List.append_assoc]

theorem addNode (g : Graph) (d : Declaration) : Traces g (g.addNode d.node).2 [d] := by
  refine ⟨fun h => h.addNode _, ?_⟩
  rw [Graph.nodes_addNode, written_append]
  have hself : written [d.node.renumber g.nextNode] = [d.node] := by
    have hkind : (d.node.renumber g.nextNode).kind.isWritten = true := d.isWritten_node
    have hagain : (d.node.renumber g.nextNode).renumber ⟨0⟩ = d.node := d.renumber_node
    simp [written, hkind, hagain]
  exact congrArg _ hself

theorem addUnwritten (g : Graph) {n : Node} (hn : n.kind.isWritten = false) :
    Traces g (g.addNode n).2 [] := by
  refine ⟨fun h => h.addNode _, ?_⟩
  rw [Graph.nodes_addNode, written_append]
  have hself : written [n.renumber g.nextNode] = [] := by
    have hkind : (n.renumber g.nextNode).kind.isWritten = false := hn
    simp [written, hkind]
  exact congrArg _ hself

theorem link (a : Assembly) (t : Triple) : Traces a.graph (a.link t).graph [] := by
  refine ⟨fun h => ?_, ?_⟩
  · unfold Assembly.link
    split
    · exact h
    · exact h.tryEdge _
  · rw [Assembly.nodes_link, List.map_nil, List.append_nil]

theorem foldl {α : Type} {f : Assembly → α → Assembly} {d : α → Declaration}
    (hf : ∀ a x, Traces a.graph (f a x).graph [d x]) (a : Assembly) (xs : List α) :
    Traces a.graph (xs.foldl f a).graph (xs.map d) := by
  induction xs generalizing a with
  | nil => exact refl a.graph
  | cons x xs ih => exact (hf a x).trans (ih _)

theorem foldl_nil {α : Type} {f : Assembly → α → Assembly}
    (hf : ∀ a x, Traces a.graph (f a x).graph []) (a : Assembly) (xs : List α) :
    Traces a.graph (xs.foldl f a).graph [] := by
  induction xs generalizing a with
  | nil => exact refl a.graph
  | cons x xs ih => exact (hf a x).trans (ih _)

theorem linkAll (a : Assembly) (ts : List Triple) : Traces a.graph (a.linkAll ts).graph [] :=
  foldl_nil link a ts

end Traces

/-! ## Adding the files of a project -/

namespace Declaration

/-- What is kept of a type: of methods with one tail, the first. -/
def keptOf (f : FileFacts) (t : TypeFacts) : List Declaration :=
  type f t :: (t.fields.map (field f t) ++ (Assembly.distinctTails t.methods).map (method f t))

end Declaration

namespace Assembly

theorem traces_place (a : Assembly) (d : Declaration) (t : Triple) :
    Traces a.graph ((a.addNode d.node).2.link t).graph [d] :=
  (Traces.addNode a.graph d).trans (.link (a.addNode d.node).2 t)

theorem distinctTails_sublist (ms : List MethodFacts) : (distinctTails ms).Sublist ms := by
  induction ms using List.reverseRecOn with
  | nil => exact .slnil
  | append_singleton ms m ih =>
    rw [distinctTails, List.foldl_append]
    change (if (distinctTails ms).any (·.tail = m.tail) then distinctTails ms
      else distinctTails ms ++ [m]).Sublist (ms ++ [m])
    split
    · exact ih.trans (List.sublist_append_left _ _)
    · exact ih.append (List.Sublist.refl _)

theorem keptOf_sublist (f : FileFacts) (t : TypeFacts) :
    (Declaration.keptOf f t).Sublist (Declaration.ofType f t) :=
  ((List.Sublist.refl _).append ((distinctTails_sublist _).map _)).cons_cons _

theorem traces_addMembers (f : FileFacts) (t : TypeEntry) (a : Assembly) :
    Traces a.graph (addMembers f.path t a).graph (t.facts.fields.map (.field f t.facts) ++
      (distinctTails t.facts.methods).map (.method f t.facts)) := by
  have hfield : ∀ a x, Traces a.graph (addField f.path t a x).graph [.field f t.facts x] :=
    fun a x => traces_place a (.field f t.facts x) ⟨t.id, .declares, a.graph.nextNode⟩
  have hmethod : ∀ a m, Traces a.graph (addMethod f.path t a m).graph [.method f t.facts m] :=
    fun a m => traces_place a (.method f t.facts m) ⟨t.id, .declares, a.graph.nextNode⟩
  exact (Traces.foldl hfield a t.facts.fields).trans
    (Traces.foldl hmethod _ (distinctTails t.facts.methods))

theorem traces_addType {a : Assembly} {t : TypeFacts} (packageId : Option NodeId) (fileId : NodeId)
    (f : FileFacts) (outer : Option TypeEntry) (hfree : a.symbols.type? t.qualifiedName = none) :
    Traces a.graph (addType fileId packageId f outer a t).2.graph (Declaration.keptOf f t) := by
  rw [addType_eq hfree]
  have hplaced : Traces a.graph (placeType fileId f outer a t).graph [.type f t] :=
    traces_place a (.type f t) (declaration fileId outer a.graph.nextNode)
  exact (hplaced.trans (.linkAll _ _)).trans
    (traces_addMembers f (typeEntry a.graph.nextNode f outer t) _)

theorem traces_addTypeIfNew (fileId : NodeId) (packageId : Option NodeId) (f : FileFacts)
    (s : List (Option TypeEntry) × Assembly) (t : TypeFacts) :
    ∃ ds, Traces s.2.graph (addTypeIfNew fileId packageId f s t).2.graph ds ∧
      ds.Sublist (Declaration.ofType f t) := by
  obtain ⟨placed, a⟩ := s
  rcases addTypeIfNew_cases fileId packageId f placed a t with heq | ⟨outer, -, hfree, heq⟩
  · rw [heq]
    exact ⟨[], .refl _, List.nil_sublist _⟩
  · rw [heq]
    exact ⟨_, traces_addType packageId fileId f outer hfree, keptOf_sublist f t⟩

theorem traces_packageOf (a : Assembly) (name : Option String) :
    Traces a.graph (a.packageOf name).2.graph [] := by
  cases name with
  | none => exact .refl _
  | some name =>
    rcases package_cases a name with ⟨id, -, heq⟩ | ⟨-, heq⟩
    · rw [packageOf, heq]
      exact .refl _
    · rw [packageOf, heq]
      exact (Traces.addUnwritten a.graph rfl).trans (.link (a.placePackage name) _)

theorem traces_openFile (a : Assembly) (f : FileFacts) :
    Traces a.graph ((a.placeFile f).packageOf f.package).2.graph [.file f] :=
  (traces_place a (.file f) ⟨projectId, .contains, a.graph.nextNode⟩).trans (traces_packageOf _ _)

theorem traces_addFile (a : Assembly) (f : FileFacts) :
    ∃ ds, Traces a.graph (a.addFile f).graph ds ∧ ds.Sublist (Declaration.ofFile f) := by
  have htypes : ∀ (ts : List TypeFacts) (fileId : NodeId) (packageId : Option NodeId)
      (s : List (Option TypeEntry) × Assembly), ∃ ds,
        Traces s.2.graph (ts.foldl (addTypeIfNew fileId packageId f) s).2.graph ds ∧
          ds.Sublist (ts.flatMap (Declaration.ofType f)) := by
    intro ts
    induction ts with
    | nil => exact fun _ _ _ => ⟨[], .refl _, .slnil⟩
    | cons t ts ih =>
      intro fileId packageId s
      obtain ⟨ds, hds, hsub⟩ := traces_addTypeIfNew fileId packageId f s t
      obtain ⟨ds', hds', hsub'⟩ := ih fileId packageId (addTypeIfNew fileId packageId f s t)
      exact ⟨ds ++ ds', hds.trans hds', hsub.append hsub'⟩
  rw [addFile_eq]
  obtain ⟨ds, hds, hsub⟩ := htypes f.types a.graph.nextNode
    ((a.placeFile f).packageOf f.package).1 ([], ((a.placeFile f).packageOf f.package).2)
  exact ⟨_, (traces_openFile a f).trans hds, hsub.cons_cons _⟩

theorem traces_linkSupertype (t : TypeEntry) (a : Assembly) (named : EdgeKind × String) :
    Traces a.graph (linkSupertype t a named).graph [] := by
  unfold linkSupertype
  split
  · dsimp only
    split
    · exact .refl _
    · exact .link a _
  · exact .refl _

theorem traces_linkSupertypes (a : Assembly) (t : TypeEntry) :
    Traces a.graph (linkSupertypes a t).graph [] := .foldl_nil (traces_linkSupertype t) a _

/-- Links have no nodes. -/
theorem traces_graph (projectName : String) (files : List FileFacts) :
    Traces (files.foldl addFile (start projectName)).graph (Snapshot.graph projectName files) [] :=
  (Traces.foldl_nil traces_linkSupertypes _ _).trans (.linkAll _ _)

theorem traces_addFiles (a : Assembly) (files : List FileFacts) :
    ∃ ds, Traces a.graph (files.foldl addFile a).graph ds ∧
      ds.Sublist (Declaration.ofFiles files) := by
  induction files generalizing a with
  | nil => exact ⟨[], .refl _, .slnil⟩
  | cons f files ih =>
    obtain ⟨ds, hds, hsub⟩ := traces_addFile a f
    obtain ⟨ds', hds', hsub'⟩ := ih (a.addFile f)
    exact ⟨ds ++ ds', hds.trans hds', hsub.append hsub'⟩

end Assembly

theorem origins_graph (projectName : String) (files : List FileFacts) :
    (Snapshot.graph projectName files).Built ∧
      (written (Snapshot.graph projectName files).nodes).Sublist
        ((Declaration.ofFiles files).map Declaration.node) := by
  have hstart : Traces .empty (Assembly.start projectName).graph [] :=
    .addUnwritten .empty rfl
  obtain ⟨ds, hds, hsub⟩ := Assembly.traces_addFiles (Assembly.start projectName) files
  have hall := (hstart.trans hds).trans (Assembly.traces_graph projectName files)
  refine ⟨hall.built .empty, ?_⟩
  rw [hall.nodes, List.nil_append, List.append_nil]
  exact hsub.map _

/-- The graph of a project keeps to what graphs of versions have to, whatever the files are. -/
theorem wellFormed_project (projectName : String) (files : List FileFacts) :
    (Snapshot.graph projectName files).WellFormed where
  built := (origins_graph projectName files).1
  typed n hn := by
    intro hk
    have hmem : n.renumber ⟨0⟩ ∈ written (Snapshot.graph projectName files).nodes :=
      List.mem_map_of_mem (List.mem_filter.mpr ⟨hn, by simp [hk, NodeKind.isWritten]⟩)
    obtain ⟨d, -, hd⟩ := List.mem_map.mp ((origins_graph projectName files).2.subset hmem)
    have htyped := d.typed_node
    rw [hd] at htyped
    exact htyped hk

theorem filter_written {ns : List Node} {k : EntityKey} (hk : k.kind.isWritten = true) :
    (written ns).filter (·.key = k) = (ns.filter (·.key = k)).map (Node.renumber ⟨0⟩) := by
  have hkind : ∀ n : Node, n.key = k → n.kind.isWritten = true := by
    rintro n rfl
    exact hk
  rw [written, List.filter_map, List.filter_filter]
  refine congrArg _ (List.filter_congr fun n _ => ?_)
  by_cases hn : n.key = k <;> simp [hn, hkind]

/-- An entity that a single declaration claims has one node, that of the declaration. -/
theorem node_of_claims {projectName : String} {files : List FileFacts} {k : EntityKey}
    {d : Declaration} (hk : k.kind.isWritten = true)
    (hd : (Declaration.ofFiles files).filter (·.node.key = k) = [d]) {n : Node}
    (hn : n ∈ (Snapshot.graph projectName files).nodes) (hkey : n.key = k) :
    n.renumber ⟨0⟩ = d.node ∧
      (Snapshot.graph projectName files).nodes.filter (·.key = k) = [n] := by
  have hmem : n ∈ (Snapshot.graph projectName files).nodes.filter (·.key = k) :=
    List.mem_filter.mpr ⟨hn, by simpa using hkey⟩
  have hsub := (origins_graph projectName files).2.filter (·.key = k)
  have hclaims : ((Declaration.ofFiles files).map Declaration.node).filter (·.key = k) = [d.node] := by
    rw [List.filter_map]
    exact congrArg (List.map Declaration.node) hd
  rw [filter_written hk, hclaims] at hsub
  obtain ⟨m, hm⟩ : ∃ m, (Snapshot.graph projectName files).nodes.filter (·.key = k) = [m] := by
    refine List.length_eq_one_iff.mp (Nat.le_antisymm ?_ (List.length_pos_of_mem hmem))
    simpa using hsub.length_le
  rw [hm] at hmem hsub
  obtain rfl := List.mem_singleton.mp hmem
  exact ⟨List.mem_singleton.mp (hsub.subset List.mem_cons_self), hm⟩

end Java

end Lineage
