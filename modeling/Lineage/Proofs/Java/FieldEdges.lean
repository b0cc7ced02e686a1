import Lineage.Proofs.Java.Linking
import Lineage.Proofs.Java.Origins
/-! # Where reads and writes come from

What methods call, use and override is linked last, when all types are. In the graph of a project a
method reads or writes a field only if its body uses a field of that name. Main statements:
`registered_linked`, `exists_use`.
-/
namespace Lineage

namespace EdgeKind

def isUse (k : EdgeKind) : Bool := k = .reads || k = .writes

def leavesMethods : EdgeKind → Bool
  | calls | reads | writes | hasParam | returnType | throws | overrides | tests => true
  | _ => false

theorem leavesMethods_of_isUse {k : EdgeKind} (h : k.isUse = true) : k.leavesMethods = true := by
  revert h
  cases k <;> simp [isUse, leavesMethods]

theorem leavesMethods_of_isSupertype {k : EdgeKind} (h : k.isSupertype = true) :
    k.leavesMethods = false := by
  revert h
  cases k <;> simp [isSupertype, leavesMethods]

end EdgeKind

namespace Java

/-- The node at a position, but for its number. -/
def StandsFor (ns : List Node) (i : NodeId) (n : Node) : Prop := ns[i.number]? = some (n.renumber i)

section StandsFor
variable {ns : List Node} {i : NodeId} {n : Node}

theorem StandsFor.append (h : StandsFor ns i n) (new : List Node) : StandsFor (ns ++ new) i n := by
  have hlt := (List.getElem?_eq_some_iff.mp h).1
  rw [StandsFor, List.getElem?_append_left hlt]
  exact h

theorem standsFor_snoc (ns : List Node) (n : Node) :
    StandsFor (ns ++ [n.renumber ⟨ns.length⟩]) ⟨ns.length⟩ n := List.getElem?_concat_length

end StandsFor

namespace MethodEntry

variable {s : Symbols} {m : MethodEntry} {t : Triple}

theorem kind_of_mem_callEdges (h : t ∈ m.callEdges s) : t.kind = .calls := by
  obtain ⟨i, -, rfl⟩ := List.mem_map.mp h
  rfl

theorem kind_of_mem_creationEdges (h : t ∈ m.creationEdges s) : t.kind = .calls := by
  obtain ⟨c, -, h⟩ := List.mem_filterMap.mp h
  obtain ⟨type, -, h⟩ := Option.bind_eq_some_iff.mp h
  obtain ⟨i, -, h⟩ := Option.bind_eq_some_iff.mp h
  cases h
  rfl

theorem isUse_of_mem_fieldEdges (h : t ∈ m.fieldEdges s) : t.kind.isUse = true := by
  obtain ⟨u, -, h⟩ := List.mem_filterMap.mp h
  obtain ⟨field, -, h⟩ := Option.bind_eq_some_iff.mp h
  cases h
  cases u.write <;> rfl

theorem kind_of_mem_signatureEdges (h : t ∈ m.signatureEdges s) :
    t.kind ∈ [EdgeKind.hasParam, .returnType, .throws] := by
  obtain ⟨⟨k, type⟩, htype, h⟩ := List.mem_filterMap.mp h
  obtain ⟨i, -, rfl⟩ := Option.map_eq_some_iff.mp h
  simp only [signatureTypes, List.mem_append, List.mem_map, Prod.mk.injEq] at htype
  rcases htype with (⟨-, -, rfl, -⟩ | ⟨-, -, rfl, -⟩) | ⟨-, -, rfl, -⟩ <;> simp

theorem kind_of_mem_overrideEdges (h : t ∈ m.overrideEdges s) : t.kind = .overrides := by
  unfold overrideEdges at h
  split at h
  · obtain ⟨i, -, rfl⟩ := Option.map_eq_some_iff.mp (Option.mem_toList.mp h)
    rfl
  · cases h

theorem mem_edges_iff : t ∈ m.edges s ↔ ((((t ∈ m.callEdges s ∨ t ∈ m.creationEdges s) ∨
    t ∈ m.fieldEdges s) ∨ t ∈ m.signatureEdges s) ∨ t ∈ m.overrideEdges s) ∨
      ∃ i, m.tested? s = some i ∧ t = ⟨m.id, .tests, i⟩ := by
  simp [edges, eq_comm, or_assoc]

theorem leavesMethods_of_mem_edges (h : t ∈ m.edges s) : t.kind.leavesMethods = true := by
  cases leaves_edges h with
  | toMethod hk _ | toField hk _ | toType hk _ =>
    simp only [List.mem_cons, List.not_mem_nil, or_false] at hk
    rcases hk with rfl | rfl | rfl <;> rfl

/-- Only a use in the body leads to a field. -/
theorem mem_fieldEdges (h : t ∈ m.edges s) (hk : t.kind.isUse = true) : t ∈ m.fieldEdges s := by
  rcases mem_edges_iff.mp h with ((((h | h) | h) | h) | h) | ⟨i, -, rfl⟩
  · rw [kind_of_mem_callEdges h] at hk
    cases hk
  · rw [kind_of_mem_creationEdges h] at hk
    cases hk
  · exact h
  · have hsignature := kind_of_mem_signatureEdges h
    revert hk hsignature
    cases t.kind <;> simp [EdgeKind.isUse]
  · rw [kind_of_mem_overrideEdges h] at hk
    cases hk
  · cases hk

/-- Only what is overridden leads to an overridden method. -/
theorem mem_overrideEdges (h : t ∈ m.edges s) (hk : t.kind = .overrides) :
    t ∈ m.overrideEdges s := by
  rcases mem_edges_iff.mp h with ((((h | h) | h) | h) | h) | ⟨i, -, rfl⟩
  · rw [kind_of_mem_callEdges h] at hk
    cases hk
  · rw [kind_of_mem_creationEdges h] at hk
    cases hk
  · have huse := isUse_of_mem_fieldEdges h
    rw [hk] at huse
    cases huse
  · have hsignature := kind_of_mem_signatureEdges h
    rw [hk] at hsignature
    simp at hsignature
  · exact h
  · cases hk

theorem exists_of_mem_fieldEdges (h : t ∈ m.fieldEdges s) : ∃ u ∈ m.facts.body.fieldUses,
    ∃ e ∈ s.fields, e.2.name = u.name ∧
      t = ⟨m.id, if u.write then .writes else .reads, e.2.id⟩ := by
  obtain ⟨u, hu, h⟩ := List.mem_filterMap.mp h
  obtain ⟨field, hfield, h⟩ := Option.bind_eq_some_iff.mp h
  obtain ⟨owner, -, hfield⟩ := List.exists_of_findSome?_eq_some hfield
  obtain ⟨e, he, rfl⟩ := Option.map_eq_some_iff.mp hfield
  have hname := List.find?_some he
  simp only [Bool.and_eq_true, decide_eq_true_eq] at hname
  cases h
  exact ⟨u, hu, e, List.mem_of_find?_eq_some he, hname.2, rfl⟩

end MethodEntry

namespace Assembly

/-- Methods and fields are registered under their own nodes, and no method is linked yet. -/
structure Registered (files : List FileFacts) (a : Assembly) : Prop where
  methods : ∀ m ∈ a.methods, ∃ f ∈ files, m.owner.facts ∈ f.types ∧
    m.facts ∈ m.owner.facts.methods ∧
    StandsFor a.graph.nodes m.id (methodNode f.path m.owner.facts m.facts)
  fields : ∀ e ∈ a.symbols.fields, ∃ n : Node, n.kind = .field ∧ n.name = e.2.name ∧
    StandsFor a.graph.nodes e.2.id n
  unlinked : ∀ t ∈ a.graph.triples, t.kind.leavesMethods = false

theorem mem_triples_link {a : Assembly} {t u : Triple} (h : u ∈ (a.link t).graph.triples) :
    u ∈ a.graph.triples ∨ u = t := by
  unfold link at h
  split at h
  · exact .inl h
  · unfold Graph.tryEdge Graph.addEdge at h
    split at h
    · simp only [Option.map_some, Option.getD_some, Graph.triples, List.map_append, List.map_cons,
        List.map_nil, List.mem_append, List.mem_singleton] at h
      exact h
    · exact .inl h

theorem subset_triples_link (a : Assembly) (t : Triple) :
    a.graph.triples ⊆ (a.link t).graph.triples := by
  intro u hu
  unfold link
  split
  · exact hu
  · unfold Graph.tryEdge Graph.addEdge
    split
    · simp only [Option.map_some, Option.getD_some, Graph.triples, List.map_append, List.mem_append]
      exact .inl hu
    · exact hu

theorem mem_triples_linkAll {a : Assembly} {ts : List Triple} {u : Triple}
    (h : u ∈ (a.linkAll ts).graph.triples) : u ∈ a.graph.triples ∨ u ∈ ts := by
  induction ts generalizing a with
  | nil => exact .inl h
  | cons t ts ih =>
    rcases ih h with h | h
    · rcases mem_triples_link h with h | rfl
      · exact .inl h
      · exact .inr List.mem_cons_self
    · exact .inr (List.mem_cons_of_mem _ h)

theorem standsFor_place (a : Assembly) (n : Node) (t : Triple) :
    StandsFor ((a.addNode n).2.link t).graph.nodes a.graph.nextNode n := by
  rw [nodes_link]
  exact standsFor_snoc a.graph.nodes n

section Registered
variable {files : List FileFacts} {a b : Assembly} (h : Registered files a)
include h

theorem Registered.extend {m : List Node} (hn : b.graph.nodes = a.graph.nodes ++ m)
    (hm : b.methods = a.methods) (hf : b.symbols.fields = a.symbols.fields)
    (ht : ∀ t ∈ b.graph.triples, t ∈ a.graph.triples ∨ t.kind.leavesMethods = false) :
    Registered files b where
  methods e hmem := by
    obtain ⟨f, hfile, htype, hmethod, hnode⟩ := h.methods e (hm ▸ hmem)
    exact ⟨f, hfile, htype, hmethod, hn ▸ hnode.append m⟩
  fields e hmem := by
    obtain ⟨n, hkind, hname, hnode⟩ := h.fields e (hf ▸ hmem)
    exact ⟨n, hkind, hname, hn ▸ hnode.append m⟩
  unlinked t hmem := (ht t hmem).elim (h.unlinked t) id

theorem Registered.addNode (n : Node) : Registered files (a.addNode n).2 :=
  h.extend (m := [n.renumber a.graph.nextNode]) rfl rfl rfl fun _ ht => .inl ht

theorem Registered.link {t : Triple} (ht : t.kind.leavesMethods = false) :
    Registered files (a.link t) := by
  refine h.extend (m := []) ?_ ?_ ?_ fun u hu => ?_
  · rw [nodes_link, List.append_nil]
  · rw [link_eq]
  · rw [symbols_link]
  · rcases mem_triples_link hu with hu | rfl
    · exact .inl hu
    · exact .inr ht

theorem Registered.linkAll {ts : List Triple} (hts : ∀ t ∈ ts, t.kind.leavesMethods = false) :
    Registered files (a.linkAll ts) :=
  List.foldlRecOn ts Assembly.link h fun _ hb t ht => hb.link (hts t ht)

theorem Registered.addField (path : String) (t : TypeEntry) (x : FieldFacts) :
    Registered files (Assembly.addField path t a x) := by
  have hlinked := (h.addNode (fieldNode path t.facts x)).link
    (t := ⟨t.id, .declares, a.graph.nextNode⟩) rfl
  refine { hlinked with fields := fun e he => ?_ }
  rcases List.mem_append.mp he with he | he
  · exact hlinked.fields e he
  · rw [List.mem_singleton.mp he]
    exact ⟨fieldNode path t.facts x, rfl, rfl, standsFor_place a _ _⟩

theorem Registered.addMethod {f : FileFacts} (hf : f ∈ files) {t : TypeEntry}
    (ht : t.facts ∈ f.types) {m : MethodFacts} (hm : m ∈ t.facts.methods) :
    Registered files (Assembly.addMethod f.path t a m) := by
  have hlinked := (h.addNode (methodNode f.path t.facts m)).link
    (t := ⟨t.id, .declares, a.graph.nextNode⟩) rfl
  refine { hlinked with methods := fun e he => ?_ }
  rcases List.mem_append.mp he with he | he
  · exact hlinked.methods e he
  · rw [List.mem_singleton.mp he]
    exact ⟨f, hf, ht, hm, standsFor_place a _ _⟩

theorem Registered.addMembers {f : FileFacts} (hf : f ∈ files) {t : TypeEntry}
    (ht : t.facts ∈ f.types) : Registered files (Assembly.addMembers f.path t a) := by
  have hfields : Registered files (t.facts.fields.foldl (Assembly.addField f.path t) a) :=
    List.foldlRecOn t.facts.fields _ h fun _ hb x _ => hb.addField f.path t x
  exact List.foldlRecOn (distinctTails t.facts.methods) _ hfields fun _ hb m hm =>
    hb.addMethod hf ht ((distinctTails_sublist _).subset hm)

theorem Registered.addType {f : FileFacts} (hf : f ∈ files) {t : TypeFacts} (ht : t ∈ f.types)
    (fileId : NodeId) (packageId : Option NodeId) (outer : Option TypeEntry)
    (hfree : a.symbols.type? t.qualifiedName = none) :
    Registered files (Assembly.addType fileId packageId f outer a t).2 := by
  rw [addType_eq hfree]
  have hdeclared : (declaration fileId outer a.graph.nextNode).kind.leavesMethods = false := by
    cases outer <;> rfl
  have hnode := (h.addNode (typeNode f t)).link hdeclared
  have hplaced : Registered files (placeType fileId f outer a t) := by
    refine hnode.extend (m := []) (List.append_nil _).symm rfl ?_ fun _ hu => .inl hu
    rw [symbols_link]
    rfl
  have hlinked : Registered files ((placeType fileId f outer a t).linkAll
      (packageId.toList.map fun p => ⟨a.graph.nextNode, .inPackage, p⟩)) := by
    refine hplaced.linkAll fun u hu => ?_
    obtain ⟨p, -, rfl⟩ := List.mem_map.mp hu
    rfl
  have hfilled := hlinked.addMembers hf (t := typeEntry a.graph.nextNode f outer t) ht
  exact hfilled.extend (m := []) (List.append_nil _).symm rfl rfl fun _ hu => .inl hu

theorem Registered.packageOf (name : Option String) : Registered files (a.packageOf name).2 := by
  cases name with
  | none => exact h
  | some name =>
    rcases package_cases a name with ⟨id, -, heq⟩ | ⟨-, heq⟩
    · rw [Assembly.packageOf, heq]
      exact h
    · rw [Assembly.packageOf, heq]
      have hplaced : Registered files (a.placePackage name) :=
        h.extend (adds_placePackage a name).nodes.choose_spec.1 rfl rfl fun _ hu => .inl hu
      exact hplaced.link rfl

theorem Registered.addTypeIfNew {f : FileFacts} (hf : f ∈ files) {t : TypeFacts} (ht : t ∈ f.types)
    (fileId : NodeId) (packageId : Option NodeId) (placed : List (Option TypeEntry)) :
    Registered files (Assembly.addTypeIfNew fileId packageId f (placed, a) t).2 := by
  rcases addTypeIfNew_cases fileId packageId f placed a t with heq | ⟨outer, -, hfree, heq⟩
  · rw [heq]
    exact h
  · rw [heq]
    exact h.addType hf ht fileId packageId outer hfree

theorem Registered.addFile {f : FileFacts} (hf : f ∈ files) : Registered files (a.addFile f) := by
  rw [addFile_eq]
  have hplaced : Registered files (a.placeFile f) := (h.addNode (fileNode f)).link rfl
  exact List.foldlRecOn f.types _
    (motive := fun s : List (Option TypeEntry) × Assembly => Registered files s.2)
    (hplaced.packageOf f.package) fun s hs _ ht => hs.addTypeIfNew hf ht _ _ s.1

theorem Registered.linkSupertype (t : TypeEntry) {named : EdgeKind × String}
    (hk : named.1.isSupertype = true) : Registered files (Assembly.linkSupertype t a named) := by
  unfold Assembly.linkSupertype
  split
  · dsimp only
    split
    · exact h
    · have hlinked := h.link (t := ⟨t.id, named.1, ‹NodeId›⟩)
        (EdgeKind.leavesMethods_of_isSupertype hk)
      exact hlinked.extend (m := []) (List.append_nil _).symm rfl rfl fun _ hu => .inl hu
  · exact h

theorem Registered.linkSupertypes (t : TypeEntry) :
    Registered files (Assembly.linkSupertypes a t) :=
  List.foldlRecOn (declaredSupertypes t.facts) _ h fun _ hb _ he =>
    hb.linkSupertype t (isSupertype_of_mem_declaredSupertypes he)

end Registered

def linked (projectName : String) (files : List FileFacts) : Assembly :=
  let a := files.foldl addFile (start projectName)
  a.types.foldl linkSupertypes a

theorem graph_eq_linkAll (projectName : String) (files : List FileFacts) :
    Snapshot.graph projectName files = ((linked projectName files).linkAll
      ((linked projectName files).methods.flatMap
        (MethodEntry.edges (linked projectName files).symbols))).graph := rfl

theorem registered_linked (projectName : String) (files : List FileFacts) :
    Registered files (linked projectName files) := by
  have hstart : Registered files (start projectName) :=
    ⟨List.forall_mem_nil _, List.forall_mem_nil _, List.forall_mem_nil _⟩
  have hfiles : Registered files (files.foldl addFile (start projectName)) :=
    List.foldlRecOn files addFile hstart fun _ ha _ hf => ha.addFile hf
  exact List.foldlRecOn _ linkSupertypes hfiles fun _ ha t _ => ha.linkSupertypes t

theorem sound_linked (projectName : String) (files : List FileFacts) :
    (linked projectName files).Sound := (sound_addFiles projectName files).linkTypes

theorem mem_triples_linkAll_iff {a : Assembly} {ts : List Triple} {u : Triple}
    (hts : ∀ t ∈ ts, Joins a.graph.nodes t) :
    u ∈ (a.linkAll ts).graph.triples ↔ u ∈ a.graph.triples ∨ u ∈ ts := by
  refine ⟨mem_triples_linkAll, fun hu => ?_⟩
  induction ts generalizing a with
  | nil => exact hu.resolve_right List.not_mem_nil
  | cons t ts ih =>
    obtain ⟨ht, hts⟩ := List.forall_mem_cons.mp hts
    have hlink : (a.link t).graph.triples =
        if t ∈ a.graph.triples then a.graph.triples else a.graph.triples ++ [t] :=
      triples_link ht.lt.1 ht.lt.2
    refine ih (a := a.link t) (by rwa [nodes_link]) ?_
    rw [List.mem_cons] at hu
    rw [hlink]
    split
    · rename_i hold
      rcases hu with hu | rfl | hu
      · exact .inl hu
      · exact .inl hold
      · exact .inr hu
    · rcases hu with hu | rfl | hu
      · exact .inl (List.mem_append_left _ hu)
      · exact .inl List.mem_append_cons_self
      · exact .inr hu

theorem mem_triples_graph_iff (projectName : String) (files : List FileFacts) {t : Triple} :
    t ∈ (Snapshot.graph projectName files).triples ↔ t ∈ (linked projectName files).graph.triples ∨
      ∃ m ∈ (linked projectName files).methods, t ∈ m.edges (linked projectName files).symbols := by
  have hsound := sound_linked projectName files
  rw [graph_eq_linkAll, mem_triples_linkAll_iff, List.mem_flatMap]
  intro u hu
  obtain ⟨m, hm, hu⟩ := List.mem_flatMap.mp hu
  exact (hsound.joins_of_leaves hm (MethodEntry.leaves_edges hu)).1

/-- The edges that leave methods are what the methods use when all types are linked. -/
theorem mem_triples_iff_of_leaves (projectName : String) (files : List FileFacts) {t : Triple}
    (hk : t.kind.leavesMethods = true) : t ∈ (Snapshot.graph projectName files).triples ↔
      ∃ m ∈ (linked projectName files).methods, t ∈ m.edges (linked projectName files).symbols := by
  rw [mem_triples_graph_iff]
  refine or_iff_right fun hold => ?_
  have hunlinked := (registered_linked projectName files).unlinked t hold
  rw [hk] at hunlinked
  cases hunlinked

/-- The edges that leave no methods are there when all types are linked. -/
theorem mem_triples_iff_of_not_leaves (projectName : String) (files : List FileFacts) {t : Triple}
    (hk : t.kind.leavesMethods = false) : t ∈ (Snapshot.graph projectName files).triples ↔
      t ∈ (linked projectName files).graph.triples := by
  rw [mem_triples_graph_iff]
  refine or_iff_left ?_
  rintro ⟨m, -, hedge⟩
  rw [MethodEntry.leavesMethods_of_mem_edges hedge] at hk
  cases hk

theorem nodes_graph (projectName : String) (files : List FileFacts) :
    (Snapshot.graph projectName files).nodes = (linked projectName files).graph.nodes := by
  obtain ⟨new, hnodes, hkeys⟩ := (adds_linkAll (linked projectName files)
    ((linked projectName files).methods.flatMap
      (MethodEntry.edges (linked projectName files).symbols))).nodes
  rw [graph_eq_linkAll, hnodes, List.map_eq_nil_iff.mp hkeys, List.append_nil]

end Assembly

/-- An edge comes from a use in the body of a method of some file. -/
structure UsedBy (files : List FileFacts) (g : Graph) (e : Edge) (f : FileFacts) (t : TypeFacts)
    (m : MethodFacts) (u : FieldUse) : Prop where
  file : f ∈ files
  type : t ∈ f.types
  method : m ∈ t.methods
  use : u ∈ m.body.fieldUses
  kind : e.kind = if u.write then .writes else .reads
  source : ∃ n ∈ g.nodes, n.id = e.source ∧ n.renumber ⟨0⟩ = Assembly.methodNode f.path t m
  target : ∃ n ∈ g.nodes, n.id = e.target ∧ n.kind = .field ∧ n.name = u.name

theorem StandsFor.exists_mem {ns : List Node} {i : NodeId} {n : Node} (h : StandsFor ns i n) :
    ∃ x ∈ ns, x.id = i ∧ x.renumber ⟨0⟩ = n.renumber ⟨0⟩ :=
  ⟨n.renumber i, List.mem_of_getElem? h, rfl, rfl⟩

/-- Every read or write comes from a use of the field's name in the body of the method. -/
theorem exists_use (projectName : String) (files : List FileFacts) {e : Edge}
    (he : e ∈ (Snapshot.graph projectName files).edges) (hk : e.kind.isUse = true) :
    ∃ f t m u, UsedBy files (Snapshot.graph projectName files) e f t m u := by
  have hregistered := Assembly.registered_linked projectName files
  have hnodes := Assembly.nodes_graph projectName files
  have htriple : e.triple ∈ (Snapshot.graph projectName files).triples := List.mem_map_of_mem he
  obtain ⟨m, hm, hedge⟩ := (Assembly.mem_triples_iff_of_leaves projectName files
    (EdgeKind.leavesMethods_of_isUse hk)).mp htriple
  obtain ⟨u, hu, x, hx, hname, heq⟩ :=
    MethodEntry.exists_of_mem_fieldEdges (MethodEntry.mem_fieldEdges hedge hk)
  obtain ⟨f, hf, ht, hmethod, hnode⟩ := hregistered.methods m hm
  obtain ⟨n, hnkind, hnname, hfield⟩ := hregistered.fields x hx
  obtain ⟨hsource, hkind, htarget⟩ := Triple.mk.inj heq
  obtain ⟨y, hy, hyid, hynode⟩ := hnode.exists_mem
  obtain ⟨z, hz, hzid, hznode⟩ := hfield.exists_mem
  refine ⟨f, m.owner.facts, m.facts, u, hf, ht, hmethod, hu, hkind, ⟨y, ?_, ?_, ?_⟩, z, ?_, ?_,
    ?_, ?_⟩
  · exact hnodes ▸ hy
  · exact hyid.trans hsource.symm
  · rw [hynode]
    exact (Declaration.method f m.owner.facts m.facts).renumber_node
  · exact hnodes ▸ hz
  · exact hzid.trans htarget.symm
  · exact (congrArg Node.kind hznode).trans hnkind
  · exact (congrArg Node.name hznode).trans (hnname.trans hname)

end Java

end Lineage
