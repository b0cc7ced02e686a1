import Lineage.Proofs.Java.FieldEdges
import Lineage.Proofs.Java.Isolation
import Lineage.Proofs.Java.Tables
/-! # Types and members of a project

The tables of a project hold what its types declare, in the order of the types: their names, their
fields, and of the methods of each type the first with each tail. A type knows the package and the
imports of its file and the types around it. Main statements: `listed_linked`, `Listed.field?_eq`,
`Listed.methodWithTail?_eq_some_iff`.
-/
namespace Lineage.Java

/-! ## Types inside types -/

namespace TypeEntry

/-- A type of a file stands in these types, the innermost first. -/
inductive Inside (f : FileFacts) : TypeEntry → List TypeEntry → Prop
  | top {id : NodeId} {t : TypeFacts} (ht : t ∈ f.types) :
    Inside f (Assembly.typeEntry id f none t) []
  | nested {id : NodeId} {t : TypeFacts} {o : TypeEntry} {around : List TypeEntry}
    (ho : Inside f o around) (ht : t ∈ f.types) :
    Inside f (Assembly.typeEntry id f (some o) t) (o :: around)

variable {f : FileFacts} {t o : TypeEntry} {around inner outer : List TypeEntry}

theorem Inside.mem_types (h : t.Inside f around) : t.facts ∈ f.types := by
  cases h <;> assumption

theorem Inside.context_eq (h : t.Inside f around) : t.context =
    { package := f.package
      imports := f.imports
      enclosing := (t :: around).map (·.facts.qualifiedName) } := by
  induction h with
  | top => rfl
  | nested _ _ ih => simp [Assembly.typeEntry, ih]

theorem Inside.outerIds_eq (h : t.Inside f around) : t.outerIds = around.map (·.id) := by
  induction h with
  | top => rfl
  | nested _ _ ih => simp [Assembly.typeEntry, ih]

theorem Inside.of_append (h : t.Inside f (inner ++ o :: outer)) : o.Inside f outer := by
  induction inner generalizing t with
  | nil =>
    cases h with
    | nested ho _ => exact ho
  | cons i inner ih =>
    cases h with
    | nested ho _ => exact ih ho

end TypeEntry

namespace Assembly

/-! ## Rows of the tables -/

def fieldRow (e : NodeId × FieldSymbol) : NodeId × String × String := (e.1, e.2.name, e.2.type)

def fieldOf (t : TypeEntry) (x : FieldFacts) : NodeId × String × String := (t.id, x.name, x.type)

def methodRow (m : MethodEntry) : NodeId × MethodSymbol := (m.owner.id, methodSymbol m.id m.facts)

def member (m : MethodEntry) : TypeEntry × MethodFacts := (m.owner, m.facts)

/-- The tables hold what the types declare and where the edges to supertypes lead, and each method
is numbered on its own. -/
structure Listed (files : List FileFacts) (a : Assembly) : Prop where
  types : a.symbols.types = a.types.map fun t => (t.facts.qualifiedName, t.id)
  fields : a.symbols.fields.map fieldRow = a.types.flatMap fun t => t.facts.fields.map (fieldOf t)
  methods : a.symbols.methods = a.methods.map methodRow
  members : a.methods.map member =
    a.types.flatMap fun t => (distinctTails t.facts.methods).map (t, ·)
  numbers : (a.methods.map (·.id.number)).Sublist (List.range' 0 a.graph.nodes.length)
  supertypes : ∀ i j, (i, j) ∈ a.symbols.supertypes ↔
    ∃ k : EdgeKind, k.isSupertype = true ∧ ⟨i, k, j⟩ ∈ a.graph.triples
  entries : ∀ t ∈ a.types, ∃ f ∈ files, StandsFor a.graph.nodes t.id (typeNode f t.facts) ∧
    ∃ around, t.Inside f around ∧ around ⊆ a.types

/-- From one assembly to another these types, fields and methods are registered; no supertypes
are. -/
structure Grows (a b : Assembly) (names : List (String × NodeId)) (types : List TypeEntry)
    (fields : List (NodeId × String × String)) (members : List (TypeEntry × MethodFacts)) :
    Prop where
  names : b.symbols.types = a.symbols.types ++ names
  types : b.types = a.types ++ types
  fields : b.symbols.fields.map fieldRow = a.symbols.fields.map fieldRow ++ fields
  methods : ∃ new, b.methods = a.methods ++ new ∧ new.map member = members ∧
    b.symbols.methods = a.symbols.methods ++ new.map methodRow ∧
    ∃ nodes, b.graph.nodes = a.graph.nodes ++ nodes ∧
      (new.map (·.id.number)).Sublist (List.range' a.graph.nodes.length nodes.length)
  supertypes : b.symbols.supertypes = a.symbols.supertypes
  edges : ∀ u : Triple, u.kind.isSupertype = true →
    (u ∈ b.graph.triples ↔ u ∈ a.graph.triples)

namespace Grows

variable {a b c : Assembly} {names names' : List (String × NodeId)} {types types' : List TypeEntry}
  {fields fields' : List (NodeId × String × String)}
  {members members' : List (TypeEntry × MethodFacts)}

theorem nodes (h : Grows a b names types fields members) :
    ∃ nodes, b.graph.nodes = a.graph.nodes ++ nodes := by
  obtain ⟨_, _, _, _, nodes, hnodes, _⟩ := h.methods
  exact ⟨nodes, hnodes⟩

theorem of_eq (hsymbols : b.symbols = a.symbols) (hmethods : b.methods = a.methods)
    (htypes : b.types = a.types) (hnodes : ∃ nodes, b.graph.nodes = a.graph.nodes ++ nodes)
    (hedges : ∀ u : Triple, u.kind.isSupertype = true →
      (u ∈ b.graph.triples ↔ u ∈ a.graph.triples)) : Grows a b [] [] [] [] := by
  obtain ⟨nodes, hnodes⟩ := hnodes
  refine ⟨?_, ?_, ?_, ⟨[], ?_, rfl, ?_, nodes, hnodes, List.nil_sublist _⟩, ?_, hedges⟩
  · rw [hsymbols, List.append_nil]
  · rw [htypes, List.append_nil]
  · rw [hsymbols, List.append_nil]
  · rw [hmethods, List.append_nil]
  · rw [hsymbols, List.map_nil, List.append_nil]
  · rw [hsymbols]

theorem refl (a : Assembly) : Grows a a [] [] [] [] :=
  of_eq rfl rfl rfl ⟨[], (List.append_nil _).symm⟩ fun _ _ => Iff.rfl

theorem trans (h : Grows a b names types fields members)
    (h' : Grows b c names' types' fields' members') :
    Grows a c (names ++ names') (types ++ types') (fields ++ fields') (members ++ members') := by
  obtain ⟨new, hmethods, hmembers, hsymbols, nodes, hnodes, hnumbers⟩ := h.methods
  obtain ⟨new', hmethods', hmembers', hsymbols', nodes', hnodes', hnumbers'⟩ := h'.methods
  refine ⟨?_, ?_, ?_, ⟨new ++ new', ?_, ?_, ?_, nodes ++ nodes', ?_, ?_⟩,
    h'.supertypes.trans h.supertypes, fun u hu => (h'.edges u hu).trans (h.edges u hu)⟩
  · rw [h'.names, h.names, List.append_assoc]
  · rw [h'.types, h.types, List.append_assoc]
  · rw [h'.fields, h.fields, List.append_assoc]
  · rw [hmethods', hmethods, List.append_assoc]
  · rw [List.map_append, hmembers, hmembers']
  · rw [hsymbols', hsymbols, List.map_append, List.append_assoc]
  · rw [hnodes', hnodes, List.append_assoc]
  · rw [hnodes, List.length_append] at hnumbers'
    rw [List.map_append, List.length_append, ← List.range'_append_1]
    exact hnumbers.append hnumbers'

theorem foldl {α : Type} {f : Assembly → α → Assembly} {x : α → List (NodeId × String × String)}
    {m : α → List (TypeEntry × MethodFacts)} (hf : ∀ a v, Grows a (f a v) [] [] (x v) (m v))
    (a : Assembly) (vs : List α) : Grows a (vs.foldl f a) [] [] (vs.flatMap x) (vs.flatMap m) := by
  induction vs generalizing a with
  | nil => exact refl a
  | cons v vs ih => exact (hf a v).trans (ih _)

theorem addNode (a : Assembly) (n : Node) : Grows a (a.addNode n).2 [] [] [] [] :=
  of_eq rfl rfl rfl ⟨_, rfl⟩ fun _ _ => Iff.rfl

theorem link (a : Assembly) {u : Triple} (hu : u.kind.isSupertype = false) :
    Grows a (a.link u) [] [] [] [] := by
  refine of_eq (symbols_link a u) ?_ ?_ ⟨[], by simp⟩ fun x hx => ⟨fun hmem => ?_, ?_⟩
  · rw [link_eq]
  · rw [link_eq]
  · rcases mem_triples_link hmem with hmem | rfl
    · exact hmem
    · rw [hu] at hx
      cases hx
  · exact fun hmem => subset_triples_link a u hmem

theorem linkAll {us : List Triple} (hus : ∀ u ∈ us, u.kind.isSupertype = false) (a : Assembly) :
    Grows a (a.linkAll us) [] [] [] [] := by
  induction us generalizing a with
  | nil => exact refl a
  | cons u us ih =>
    obtain ⟨hu, hus⟩ := List.forall_mem_cons.mp hus
    exact (link a hu).trans (ih hus _)

theorem place (a : Assembly) (n : Node) {u : Triple} (hu : u.kind.isSupertype = false) :
    Grows a ((a.addNode n).2.link u) [] [] [] [] := (addNode a n).trans (link _ hu)

theorem addField (path : String) (t : TypeEntry) (a : Assembly) (x : FieldFacts) :
    Grows a (addField path t a x) [] [] [fieldOf t x] [] := by
  have hplaced := place a (fieldNode path t.facts x) (u := ⟨t.id, .declares, a.graph.nextNode⟩) rfl
  refine { hplaced with fields := ?_ }
  have hfields := hplaced.fields
  rw [List.append_nil] at hfields
  rw [Assembly.addField, ← hfields]
  exact List.map_append

theorem addMethod (path : String) (t : TypeEntry) (a : Assembly) (m : MethodFacts) :
    Grows a (addMethod path t a m) [] [] [] [(t, m)] := by
  have hplaced := place a (methodNode path t.facts m) (u := ⟨t.id, .declares, a.graph.nextNode⟩) rfl
  have hlink := link_eq (a.addNode (methodNode path t.facts m)).2
    ⟨t.id, .declares, a.graph.nextNode⟩
  refine { hplaced with methods := ⟨[⟨a.graph.nextNode, t, m⟩], ?_, rfl, ?_,
    [(methodNode path t.facts m).renumber a.graph.nextNode], nodes_link _ _, .refl _⟩ }
  · change ((a.addNode (methodNode path t.facts m)).2.link _).methods ++ _ = _
    rw [hlink]
    rfl
  · change ((a.addNode (methodNode path t.facts m)).2.link _).symbols.methods ++ _ = _
    rw [hlink]
    rfl

theorem addMembers (path : String) (t : TypeEntry) (a : Assembly) :
    Grows a (addMembers path t a) [] [] (t.facts.fields.map (fieldOf t))
      ((distinctTails t.facts.methods).map (t, ·)) := by
  have hall := (foldl (addField path t) a t.facts.fields).trans
    (foldl (addMethod path t) _ (distinctTails t.facts.methods))
  have hnone : ∀ {α β : Type} (vs : List α), (vs.flatMap fun _ => ([] : List β)) = [] :=
    fun vs => List.flatMap_eq_nil_iff.mpr fun _ _ => rfl
  simp only [hnone, List.append_nil, List.nil_append, ← List.map_eq_flatMap] at hall
  exact hall

theorem placeType (fileId : NodeId) (f : FileFacts) (outer : Option TypeEntry) (a : Assembly)
    (t : TypeFacts) : Grows a (placeType fileId f outer a t)
      [(t.qualifiedName, a.graph.nextNode)] [] [] [] := by
  have hdeclared : (declaration fileId outer a.graph.nextNode).kind.isSupertype = false := by
    cases outer <;> rfl
  have hplaced := place a (typeNode f t) hdeclared
  obtain ⟨nodes, hnodes⟩ := hplaced.nodes
  refine ⟨rfl, hplaced.types, (List.append_nil _).symm, ⟨[], ?_, rfl, (List.append_nil _).symm,
    nodes, hnodes, List.nil_sublist _⟩, rfl, hplaced.edges⟩
  rw [List.append_nil, Assembly.placeType, link_eq]
  rfl

theorem openFile (a : Assembly) (f : FileFacts) :
    Grows a ((a.placeFile f).packageOf f.package).2 [] [] [] [] := by
  have hplaced : Grows a (a.placeFile f) [] [] [] [] := place a (fileNode f) rfl
  cases f.package with
  | none => exact hplaced
  | some name =>
    rcases package_cases (a.placeFile f) name with ⟨id, -, heq⟩ | ⟨-, heq⟩
    · rw [packageOf, heq]
      exact hplaced
    · obtain ⟨nodes, hnodes, -⟩ := (adds_placePackage (a.placeFile f) name).nodes
      have hpackage : Grows (a.placeFile f) ((a.placeFile f).placePackage name) [] [] [] [] :=
        of_eq rfl rfl rfl ⟨nodes, hnodes⟩ fun _ _ => Iff.rfl
      rw [packageOf, heq]
      exact hplaced.trans (hpackage.trans (link _ rfl))

theorem addType (fileId : NodeId) (packageId : Option NodeId) (f : FileFacts)
    (outer : Option TypeEntry) {a : Assembly} {t : TypeFacts}
    (hfree : a.symbols.type? t.qualifiedName = none) :
    Grows a (addType fileId packageId f outer a t).2
      ([typeEntry a.graph.nextNode f outer t].map fun e => (e.facts.qualifiedName, e.id))
      [typeEntry a.graph.nextNode f outer t]
      ([typeEntry a.graph.nextNode f outer t].flatMap fun e => e.facts.fields.map (fieldOf e))
      ([typeEntry a.graph.nextNode f outer t].flatMap fun e =>
        (distinctTails e.facts.methods).map (e, ·)) := by
  have hinPackage : ∀ u ∈ packageId.toList.map fun p =>
      (⟨a.graph.nextNode, .inPackage, p⟩ : Triple), u.kind.isSupertype = false := by
    intro u hu
    obtain ⟨p, -, rfl⟩ := List.mem_map.mp hu
    rfl
  -- the name is registered first and the entry last, when all members are there
  have hfilled := ((placeType fileId f outer a t).trans (linkAll hinPackage _)).trans
    (addMembers f.path (typeEntry a.graph.nextNode f outer t) _)
  rw [addType_eq hfree, List.flatMap_singleton, List.flatMap_singleton]
  refine { hfilled with types := ?_ }
  have htypes := hfilled.types
  rw [List.append_nil, List.append_nil, List.append_nil] at htypes
  rw [← htypes]

end Grows

/-! ## Adding types and files -/

theorem standsFor_addType (fileId : NodeId) (packageId : Option NodeId) (f : FileFacts)
    (outer : Option TypeEntry) {a : Assembly} {t : TypeFacts}
    (hfree : a.symbols.type? t.qualifiedName = none) :
    StandsFor (addType fileId packageId f outer a t).2.graph.nodes a.graph.nextNode
      (typeNode f t) := by
  rw [addType_eq hfree]
  have hplaced : (placeType fileId f outer a t).graph.nodes =
      a.graph.nodes ++ [(typeNode f t).renumber a.graph.nextNode] := nodes_link _ _
  obtain ⟨new, hnodes, -⟩ := ((adds_linkAll (placeType fileId f outer a t)
    (packageId.toList.map fun p => ⟨a.graph.nextNode, .inPackage, p⟩)).trans
      (adds_addMembers f.path (typeEntry a.graph.nextNode f outer t) _)).nodes
  dsimp only
  rw [hnodes, hplaced]
  exact (standsFor_snoc a.graph.nodes (typeNode f t)).append new

section Listed
variable {files : List FileFacts} {a b : Assembly} (h : Listed files a)
include h

/-- What is listed stays listed when all that further types declare is registered with them. -/
theorem Listed.grow (ts : List TypeEntry)
    (hb : Grows a b (ts.map fun t => (t.facts.qualifiedName, t.id)) ts
      (ts.flatMap fun t => t.facts.fields.map (fieldOf t))
      (ts.flatMap fun t => (distinctTails t.facts.methods).map (t, ·)))
    (hts : ∀ t ∈ ts, ∃ f ∈ files, StandsFor b.graph.nodes t.id (typeNode f t.facts) ∧
      ∃ around, t.Inside f around ∧ around ⊆ b.types) : Listed files b := by
  obtain ⟨new, hmethods, hmembers, hsymbols, nodes, hnodes, hnumbers⟩ := hb.methods
  refine ⟨?_, ?_, ?_, ?_, ?_, ?_, ?_⟩
  · rw [hb.names, hb.types, h.types, List.map_append]
  · rw [hb.fields, hb.types, h.fields, List.flatMap_append]
  · rw [hsymbols, hmethods, h.methods, List.map_append]
  · rw [hmethods, hb.types, List.map_append, h.members, hmembers, List.flatMap_append]
  · rw [hmethods, hnodes, List.map_append, List.length_append, ← List.range'_append_1, Nat.zero_add]
    exact h.numbers.append hnumbers
  · intro i j
    rw [hb.supertypes, h.supertypes]
    exact exists_congr fun k => and_congr_right fun hk => (hb.edges _ hk).symm
  · intro e he
    rw [hb.types] at he
    rcases List.mem_append.mp he with he | he
    · obtain ⟨f, hf, hnode, around, hinside, hsub⟩ := h.entries e he
      refine ⟨f, hf, hnodes ▸ hnode.append nodes, around, hinside, hb.types ▸ ?_⟩
      exact List.Subset.trans hsub (List.subset_append_left _ _)
    · exact hts e he

theorem Listed.of_grows (hb : Grows a b [] [] [] []) : Listed files b :=
  h.grow [] hb (List.forall_mem_nil _)

theorem Listed.addType {f : FileFacts} (hf : f ∈ files) {t : TypeFacts} (ht : t ∈ f.types)
    (fileId : NodeId) (packageId : Option NodeId) {outer : Option TypeEntry}
    (houter : ∀ o ∈ outer, o ∈ a.types ∧ ∃ around, o.Inside f around ∧ around ⊆ a.types)
    (hfree : a.symbols.type? t.qualifiedName = none) :
    Listed files (Assembly.addType fileId packageId f outer a t).2 ∧
      (Assembly.addType fileId packageId f outer a t).2.types =
        a.types ++ [typeEntry a.graph.nextNode f outer t] ∧
      ∃ around, (typeEntry a.graph.nextNode f outer t).Inside f around ∧ around ⊆ a.types := by
  have hgrows := Grows.addType fileId packageId f outer hfree
  have hinside : ∃ around, (typeEntry a.graph.nextNode f outer t).Inside f around ∧
      around ⊆ a.types := by
    cases outer with
    | none => exact ⟨[], .top ht, List.nil_subset _⟩
    | some o =>
      obtain ⟨ho, around, hinside, hsub⟩ := houter o rfl
      exact ⟨o :: around, .nested hinside ht, List.cons_subset.mpr ⟨ho, hsub⟩⟩
  refine ⟨h.grow _ hgrows fun e he => ?_, hgrows.types, hinside⟩
  obtain rfl := List.mem_singleton.mp he
  obtain ⟨around, hinside, hsub⟩ := hinside
  exact ⟨f, hf, standsFor_addType fileId packageId f outer hfree, around, hinside,
    hgrows.types ▸ List.Subset.trans hsub (List.subset_append_left _ _)⟩

end Listed

/-- While the types of a file are added, those that were placed are listed. -/
structure Filed (files : List FileFacts) (f : FileFacts)
    (s : List (Option TypeEntry) × Assembly) : Prop where
  listed : Listed files s.2
  placed : ∀ e, some e ∈ s.1 →
    e ∈ s.2.types ∧ ∃ around, e.Inside f around ∧ around ⊆ s.2.types

section Files
variable {files : List FileFacts} {f : FileFacts} (hf : f ∈ files)
include hf

theorem Filed.addTypeIfNew {s : List (Option TypeEntry) × Assembly} (h : Filed files f s)
    {t : TypeFacts} (ht : t ∈ f.types) (fileId : NodeId) (packageId : Option NodeId) :
    Filed files f (Assembly.addTypeIfNew fileId packageId f s t) := by
  obtain ⟨placed, a⟩ := s
  rcases addTypeIfNew_cases fileId packageId f placed a t with heq | ⟨outer, houter, hfree, heq⟩
  · rw [heq]
    refine ⟨h.listed, fun e he => ?_⟩
    rcases List.mem_append.mp he with he | he
    · exact h.placed e he
    · cases List.mem_singleton.mp he
  · rw [heq]
    obtain ⟨hlisted, htypes, around, hinside, hsub⟩ := h.listed.addType hf ht fileId packageId
      (fun o ho => h.placed o (houter o ho)) hfree
    refine ⟨hlisted, fun e he => ?_⟩
    rw [htypes]
    rcases List.mem_append.mp he with he | he
    · obtain ⟨hmem, around, hinside, hsub⟩ := h.placed e he
      exact ⟨List.mem_append_left _ hmem, around, hinside,
        List.Subset.trans hsub (List.subset_append_left _ _)⟩
    · obtain rfl := Option.some.inj (List.mem_singleton.mp he)
      rw [addType_eq hfree]
      exact ⟨by simp, around, hinside, List.Subset.trans hsub (List.subset_append_left _ _)⟩

theorem Listed.addFile {a : Assembly} (h : Listed files a) : Listed files (a.addFile f) := by
  have hopened := h.of_grows (.openFile a f)
  rw [addFile_eq]
  have hfiled : Filed files f ([], ((a.placeFile f).packageOf f.package).2) :=
    ⟨hopened, fun _ he => by cases he⟩
  exact (List.foldlRecOn f.types _ hfiled fun s hs t ht => hs.addTypeIfNew hf ht _ _).listed

end Files

section Supertypes
variable {files : List FileFacts} {a : Assembly} (h : Listed files a) (hsound : a.Sound)
include h hsound

/-- What the table learns of a supertype, an edge says too. -/
theorem Listed.linkSupertype {t : TypeEntry} (ht : kindAt? a.graph.nodes t.id = some .type)
    {named : EdgeKind × String} (hk : named.1.isSupertype = true) :
    Listed files (Assembly.linkSupertype t a named) := by
  unfold Assembly.linkSupertype
  split
  · rename_i target htarget
    dsimp only
    split
    · exact h
    · have hjoins : Joins a.graph.nodes ⟨t.id, named.1, target⟩ := by
        refine ⟨_, _, ht, hsound.kindAt?_of_isType (Symbols.isType_of_resolve? htarget), ?_⟩
        simp only [EdgeKind.isSupertype, Bool.or_eq_true, decide_eq_true_eq] at hk
        rcases hk with hk | hk <;> simp [hk, EdgeKind.ends]
      have hedges : ∀ u, u ∈ (a.link ⟨t.id, named.1, target⟩).graph.triples ↔
          u ∈ a.graph.triples ∨ u = ⟨t.id, named.1, target⟩ := by
        intro u
        rw [← List.mem_singleton]
        exact mem_triples_linkAll_iff (List.forall_mem_singleton.mpr hjoins)
      have hnodes : (a.link ⟨t.id, named.1, target⟩).graph.nodes = a.graph.nodes := nodes_link _ _
      -- the edge is new or was there before, and the table learns of the supertype either way
      rw [link_eq]
      refine { h with numbers := ?_, supertypes := fun i j => ?_, entries := ?_ }
      · rw [hnodes]
        exact h.numbers
      · simp only [Symbols.addSupertype, List.mem_append, List.mem_singleton, h.supertypes, hedges,
          and_or_left, exists_or, Prod.mk.injEq, Triple.mk.injEq]
        refine or_congr_right ⟨?_, ?_⟩
        · rintro ⟨rfl, rfl⟩
          exact ⟨named.1, hk, rfl, rfl, rfl⟩
        · rintro ⟨k, -, rfl, -, rfl⟩
          exact ⟨rfl, rfl⟩
      · rw [hnodes]
        exact h.entries
  · exact h

theorem Listed.linkSupertypes {t : TypeEntry} (ht : kindAt? a.graph.nodes t.id = some .type) :
    Listed files (Assembly.linkSupertypes a t) := by
  have hall := List.foldlRecOn (declaredSupertypes t.facts) (Assembly.linkSupertype t)
    (motive := fun b => Listed files b ∧ b.Sound ∧ kindAt? b.graph.nodes t.id = some .type)
    ⟨h, hsound, ht⟩ fun b ⟨hb, hbsound, hbt⟩ named hnamed =>
      have hk := isSupertype_of_mem_declaredSupertypes hnamed
      ⟨hb.linkSupertype hbsound hbt hk, hbsound.linkSupertype hbt hk,
        (adds_linkSupertype t b named).kindAt? hbt⟩
  exact hall.1

theorem Listed.linkTypes {ts : List TypeEntry}
    (hts : ∀ t ∈ ts, kindAt? a.graph.nodes t.id = some .type) :
    Listed files (ts.foldl Assembly.linkSupertypes a) := by
  have hall := List.foldlRecOn ts Assembly.linkSupertypes
    (motive := fun b => Listed files b ∧ b.Sound ∧
      ∀ t ∈ ts, kindAt? b.graph.nodes t.id = some .type)
    ⟨h, hsound, hts⟩ fun b ⟨hb, hbsound, hbts⟩ t ht =>
      ⟨hb.linkSupertypes hbsound (hbts t ht), hbsound.linkSupertypes (hbts t ht), fun u hu =>
        (adds_linkSupertypes b t).kindAt? (hbts u hu)⟩
  exact hall.1

end Supertypes

theorem listed_addFiles (projectName : String) {files fs : List FileFacts} (hfs : fs ⊆ files) :
    Listed files (fs.foldl addFile (start projectName)) := by
  have hstart : Listed files (start projectName) :=
    ⟨rfl, rfl, rfl, rfl, List.nil_sublist _, by simp [start, Graph.triples, Graph.addNode,
      Graph.empty, Symbols.empty], List.forall_mem_nil _⟩
  exact List.foldlRecOn fs addFile hstart fun a ha f hf => ha.addFile (hfs hf)

/-- The tables with which methods are linked hold what the types of the project declare. -/
theorem listed_linked (projectName : String) (files : List FileFacts) :
    Listed files (linked projectName files) := by
  have hfiles := listed_addFiles projectName (List.Subset.refl files)
  have hsound := sound_addFiles projectName files
  exact hfiles.linkTypes hsound hsound.typeEntries

theorem nodup_typeIds (projectName : String) (files : List FileFacts) :
    ((linked projectName files).types.map (·.id)).Nodup := by
  -- the numbers of the types are in the table of names, where each is the number of a new node
  obtain ⟨es, hsymbols, hnodup⟩ := exists_entries projectName files
    (files.foldl addFile (start projectName)).types
  have htypes := (listed_linked projectName files).types
  rw [← hsymbols] at hnodup
  change ((linked projectName files).symbols.types.map (·.2)).Nodup at hnodup
  rwa [htypes, List.map_map] at hnodup

/-! ## Looking members up -/

section Lookup
variable {files : List FileFacts} {a : Assembly} (h : Listed files a)
  (hids : (a.types.map (·.id)).Nodup)
include h

theorem Listed.owner_mem {m : MethodEntry} (hm : m ∈ a.methods) : m.owner ∈ a.types := by
  have hmember : member m ∈ a.methods.map member := List.mem_map_of_mem hm
  rw [h.members] at hmember
  obtain ⟨t, ht, hmember⟩ := List.mem_flatMap.mp hmember
  obtain ⟨x, -, heq⟩ := List.mem_map.mp hmember
  obtain rfl : t = m.owner := (Prod.mk.inj heq).1
  exact ht

theorem Listed.nodup_methodIds : (a.methods.map (·.id)).Nodup := by
  have hnumbers := (List.nodup_range' 1).sublist h.numbers
  rw [show (fun m : MethodEntry => m.id.number) = NodeId.number ∘ (·.id) from rfl,
    ← List.map_map] at hnumbers
  exact hnumbers.of_map _

include hids

/-- The first field of a name that the type with a number declares. -/
theorem Listed.field?_eq (i : NodeId) (name : String) :
    (a.symbols.field? i name).map (·.type) = (a.types.find? fun t => t.id = i).bind fun t =>
      (t.facts.fields.find? (·.name = name)).map (·.type) := by
  have hrows : (a.symbols.field? i name).map (·.type) =
      ((a.symbols.fields.map fieldRow).find? fun r => r.1 = i && r.2.1 = name).map (·.2.2) := by
    rw [List.find?_map, Symbols.field?, Option.map_map, Option.map_map]
    rfl
  rw [hrows, h.fields, List.find?_flatMap, List.map_findSome?, ← findSome?_key_eq hids]
  refine congrArg (fun g => a.types.findSome? g) (funext fun t => ?_)
  by_cases hid : t.id = i
  · rw [if_pos hid, Function.comp_apply, List.find?_map, Option.map_map]
    simp only [Function.comp_def, fieldOf, hid, decide_true, Bool.true_and]
  · simp [fieldOf, hid]

theorem Listed.nodup_tails : (a.methods.map fun m => (m.owner.id, m.facts.tail)).Nodup := by
  have hmembers : (a.methods.map fun m => (m.owner.id, m.facts.tail)) =
      (a.methods.map member).map fun e => (e.1.id, e.2.tail) := by
    rw [List.map_map]
    rfl
  rw [hmembers, h.members, List.map_flatMap, List.nodup_flatMap]
  constructor
  · intro t _
    rw [List.map_map]
    have htails := nodup_tails_distinctTails t.facts.methods
    refine List.Nodup.of_map Prod.snd ?_
    rwa [List.map_map]
  · have hdistinct := List.pairwise_map.mp hids
    refine hdistinct.imp fun hne => List.disjoint_left.mpr fun e he hother => hne ?_
    simp only [List.mem_map, exists_exists_and_eq_and] at he hother
    obtain ⟨x, -, rfl⟩ := he
    obtain ⟨y, -, heq⟩ := hother
    exact (Prod.mk.inj heq).1.symm

theorem Listed.methodWithTail?_eq_some_iff {i j : NodeId} {tail : String} :
    a.symbols.methodWithTail? i tail = some j ↔ ∃ m ∈ a.methods, m.owner.id = i ∧
      m.facts.tail = tail ∧ m.facts.isConstructor = false ∧ m.id = j := by
  have hrows : a.symbols.methodWithTail? i tail =
      ((a.methods.filter fun m => !m.facts.isConstructor).find? fun m =>
        (m.owner.id, m.facts.tail) = (i, tail)).map (·.id) := by
    rw [Symbols.methodWithTail?, Symbols.methodsOf, h.methods, List.filter_map, List.map_map,
      List.find?_map, Option.map_map, List.find?_filter, List.find?_filter]
    simp only [Function.comp_def, methodRow, methodSymbol, Prod.mk.injEq, decide_eq_true_eq,
      Bool.and_eq_true, Bool.not_eq_true']
    grind
  have hnodup := (h.nodup_tails hids).sublist
    ((List.filter_sublist (p := fun m : MethodEntry => !m.facts.isConstructor)).map _)
  have hfound : ∀ m : MethodEntry, ((a.methods.filter fun m => !m.facts.isConstructor).find?
      fun m => (m.owner.id, m.facts.tail) = (i, tail)) = some m ↔
        (m ∈ a.methods ∧ m.facts.isConstructor = false) ∧ m.owner.id = i ∧ m.facts.tail = tail := by
    intro m
    rw [find?_key_eq_some_iff hnodup, List.mem_filter, Prod.mk.injEq, Bool.not_eq_true']
  rw [hrows, Option.map_eq_some_iff]
  simp only [hfound]
  grind

end Lookup

end Assembly

namespace Project

/-- The project when all its types are linked, and what its methods use is not. -/
def assembly (p : Project) : Assembly := .linked p.name p.files

theorem listed_assembly (p : Project) : Assembly.Listed p.files p.assembly :=
  Assembly.listed_linked p.name p.files

theorem nodup_typeIds_assembly (p : Project) : (p.assembly.types.map (·.id)).Nodup :=
  Assembly.nodup_typeIds p.name p.files

end Project

end Lineage.Java
