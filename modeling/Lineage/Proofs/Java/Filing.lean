import Lineage.Proofs.Java.Containment
/-! # Adding the files of a project

Each file is added with its package and its types, and each type with its members. A type is added
only below its file or below a type of that file that was added, so what is declared is declared once.
Main statements: `Sound.addType`, `Sound.addFile`, `sound_addFiles`.
-/
namespace Lineage.Java.Assembly

/-! ## Types -/

section Types
variable {a : Assembly} {fileId : NodeId} {packageId : Option NodeId} {f : FileFacts}
  {outer : Option TypeEntry} {t : TypeFacts}

/-- A type whose name is free is placed below its file or the type around it; then its name leads to
it. Its members are not there yet. -/
def placeType (fileId : NodeId) (f : FileFacts) (outer : Option TypeEntry) (a : Assembly)
    (t : TypeFacts) : Assembly :=
  let placed := (a.addNode (typeNode f t)).2.link (declaration fileId outer a.graph.nextNode)
  { placed with
    symbols :=
      { a.symbols with types := a.symbols.types ++ [(t.qualifiedName, a.graph.nextNode)] } }

theorem addType_eq (hfree : a.symbols.type? t.qualifiedName = none) :
    addType fileId packageId f outer a t =
      let entry := typeEntry a.graph.nextNode f outer t
      let placed := (placeType fileId f outer a t).linkAll
        (packageId.toList.map fun p => ⟨a.graph.nextNode, .inPackage, p⟩)
      let filled := addMembers f.path entry placed
      (entry, { filled with types := filled.types ++ [entry] }) := by
  have hadd : a.symbols.addType? t.qualifiedName a.graph.nextNode =
      some { a.symbols with types := a.symbols.types ++ [(t.qualifiedName, a.graph.nextNode)] } := by
    rw [Symbols.addType?, hfree]
  have hlink := link_withSymbols (a.addNode (typeNode f t)).2
    (declaration fileId outer a.graph.nextNode)
    { a.symbols with types := a.symbols.types ++ [(t.qualifiedName, a.graph.nextNode)] }
  unfold addType placeType
  rw [← hlink]
  simp only [addNode, Graph.addNode, hadd, Option.getD_some]

theorem adds_placeType (fileId : NodeId) (f : FileFacts) (outer : Option TypeEntry) (a : Assembly)
    (t : TypeFacts) :
    Adds a (placeType fileId f outer a t) [(typeNode f t).key] [t.qualifiedName] [] := by
  have hlinked := (adds_addNode a (typeNode f t)).trans
    (adds_link _ (declaration fileId outer a.graph.nextNode))
  refine ⟨hlinked.nodes, ?_, hlinked.packages⟩
  rw [placeType, List.map_append]
  rfl

theorem kindAt?_placeType (fileId : NodeId) (f : FileFacts) (outer : Option TypeEntry)
    (a : Assembly) (t : TypeFacts) :
    kindAt? (placeType fileId f outer a t).graph.nodes a.graph.nextNode = some .type := by
  have hnodes : (placeType fileId f outer a t).graph.nodes = a.graph.nodes ++
      [(typeNode f t).renumber a.graph.nextNode] := nodes_link _ _
  rw [hnodes, ← kind_typeNode f t]
  exact kindAt?_length _ _

theorem adds_addType (packageId : Option NodeId) (fileId : NodeId) (f : FileFacts)
    (outer : Option TypeEntry) (hfree : a.symbols.type? t.qualifiedName = none) :
    Adds a (addType fileId packageId f outer a t).2
      ((typeNode f t).key :: (t.fields.map (fun x => (fieldNode f.path t x).key) ++
        (distinctTails t.methods).map fun m => (methodNode f.path t m).key)) [t.qualifiedName] [] := by
  rw [addType_eq hfree]
  have hadds := ((adds_placeType fileId f outer a t).trans (adds_linkAll _
    (packageId.toList.map fun p => ⟨a.graph.nextNode, .inPackage, p⟩))).trans
    (adds_addMembers f.path (typeEntry a.graph.nextNode f outer t) _)
  exact ⟨hadds.nodes, hadds.names, hadds.packages⟩

variable (h : a.Sound) (hfile : kindAt? a.graph.nodes fileId = some .file)
  (houter : ∀ o ∈ outer, kindAt? a.graph.nodes o.id = some .type)
include h hfile houter

theorem Sound.placeType (t : TypeFacts) : (Assembly.placeType fileId f outer a t).Sound := by
  have hplaced : ((a.addNode (typeNode f t)).2.link
      (declaration fileId outer a.graph.nextNode)).Sound := by
    cases outer with
    | none => exact h.place (e := .declaresType) hfile (by simp [EdgeKind.ends]) rfl rfl
    | some o =>
      exact h.place (e := .declares) (houter o rfl) (by simp [EdgeKind.ends]) rfl rfl
  have hsymbols : ((a.addNode (typeNode f t)).2.link
      (declaration fileId outer a.graph.nextNode)).symbols = a.symbols := symbols_link _ _
  refine hplaced.withSymbols ?_ ?_ ?_
  · intro e he
    rcases List.mem_append.mp he with he | he
    · exact hplaced.types e (by rwa [hsymbols])
    · rw [List.mem_singleton.mp he]
      exact kindAt?_placeType fileId f outer a t
  · intro e he
    exact hplaced.methods e (by rwa [hsymbols])
  · intro e he
    exact hplaced.fields e (by rwa [hsymbols])

variable (hfree : a.symbols.type? t.qualifiedName = none)
include hfree

theorem Sound.addType (hpackage : ∀ p ∈ packageId, kindAt? a.graph.nodes p = some .package) :
    (Assembly.addType fileId packageId f outer a t).2.Sound ∧
      kindAt? (Assembly.addType fileId packageId f outer a t).2.graph.nodes
        (Assembly.addType fileId packageId f outer a t).1.id = some .type := by
  rw [addType_eq hfree]
  have hplaced := adds_placeType fileId f outer a t
  have htype := kindAt?_placeType fileId f outer a t
  have hlinked : ((Assembly.placeType fileId f outer a t).linkAll
      (packageId.toList.map fun p => ⟨a.graph.nextNode, .inPackage, p⟩)).Sound := by
    refine (h.placeType hfile houter t).linkAll ?_
    intro u hu
    obtain ⟨p, hp, rfl⟩ := List.mem_map.mp hu
    have hp' := hplaced.kindAt? (hpackage p (Option.mem_toList.mp hp))
    exact ⟨⟨.type, .package, htype, hp', by simp [EdgeKind.ends]⟩, rfl, nofun⟩
  have htype' := (adds_linkAll (Assembly.placeType fileId f outer a t)
    (packageId.toList.map fun p => ⟨a.graph.nextNode, .inPackage, p⟩)).kindAt? htype
  have hfilled := hlinked.addMembers f.path (t := typeEntry a.graph.nextNode f outer t) htype'
  have hentry := (adds_addMembers f.path (typeEntry a.graph.nextNode f outer t) _).kindAt? htype'
  refine ⟨{ hfilled with typeEntries := fun e he => ?_ }, hentry⟩
  rcases List.mem_append.mp he with he | he
  · exact hfilled.typeEntries e he
  · rw [List.mem_singleton.mp he]
    exact hentry

end Types

/-! ## Files -/

/-- A type of a file is left out, or it has a free name and is added below the file or below one of
its types. -/
theorem addTypeIfNew_cases (fileId : NodeId) (packageId : Option NodeId) (f : FileFacts)
    (placed : List (Option TypeEntry)) (a : Assembly) (t : TypeFacts) :
    addTypeIfNew fileId packageId f (placed, a) t = (placed ++ [none], a) ∨
      ∃ outer, (∀ o ∈ outer, some o ∈ placed) ∧ a.symbols.type? t.qualifiedName = none ∧
        addTypeIfNew fileId packageId f (placed, a) t =
          (placed ++ [some (addType fileId packageId f outer a t).1],
            (addType fileId packageId f outer a t).2) := by
  unfold addTypeIfNew
  dsimp only
  split
  · rename_i outer houter hfree
    refine .inr ⟨outer, ?_, hfree, rfl⟩
    intro o ho
    rw [Option.mem_def] at ho
    subst ho
    split at houter
    · cases houter
    · obtain ⟨e, he, heq⟩ := Option.map_eq_some_iff.mp houter
      obtain rfl : e = o := Option.some.inj heq
      exact List.mem_of_getElem? (Option.join_eq_some_iff.mp he)
  · exact .inl rfl

/-- A package's node with its name; nothing leads to it yet. -/
def placePackage (a : Assembly) (name : String) : Assembly :=
  { (a.addNode { kind := .package, name, qualifiedName := name }).2 with
    packages := a.packages ++ [(name, a.graph.nextNode)] }

theorem adds_placePackage (a : Assembly) (name : String) :
    Adds a (a.placePackage name) [⟨.package, name⟩] [] [name] where
  nodes := (adds_addNode a { kind := .package, name, qualifiedName := name }).nodes
  names := (List.append_nil _).symm
  packages := List.map_append

/-- A package is found, or it is new and linked to the project. -/
theorem package_cases (a : Assembly) (name : String) :
    (∃ id, (name, id) ∈ a.packages ∧ a.package name = (id, a)) ∨
      name ∉ a.packages.map (·.1) ∧ a.package name =
        (a.graph.nextNode,
          (a.placePackage name).link ⟨projectId, .hasPackage, a.graph.nextNode⟩) := by
  unfold package
  cases hl : a.packages.lookup name with
  | some id => exact .inl ⟨id, mem_of_lookup_eq_some hl, rfl⟩
  | none => exact .inr ⟨lookup_eq_none_iff_not_mem.mp hl, rfl⟩

theorem Sound.placePackage {a : Assembly} (h : a.Sound) (name : String) :
    (a.placePackage name).Sound ∧
      kindAt? (a.placePackage name).graph.nodes a.graph.nextNode = some .package := by
  have hnode := h.addNode (n := { kind := .package, name, qualifiedName := name }) rfl
  have hnew : kindAt? (a.placePackage name).graph.nodes a.graph.nextNode = some .package :=
    kindAt?_length _ _
  refine ⟨{ hnode with packages := fun e he => ?_ }, hnew⟩
  rcases List.mem_append.mp he with he | he
  · exact hnode.packages e he
  · rw [List.mem_singleton.mp he]
    exact hnew

theorem Sound.package {a : Assembly} (h : a.Sound) (name : String) :
    (a.package name).2.Sound ∧
      kindAt? (a.package name).2.graph.nodes (a.package name).1 = some .package := by
  rcases package_cases a name with ⟨id, hid, heq⟩ | ⟨-, heq⟩
  · rw [heq]
    exact ⟨h, h.packages _ hid⟩
  · rw [heq, nodes_link]
    obtain ⟨hplaced, hnew⟩ := h.placePackage name
    refine ⟨hplaced.link ⟨.project, .package, hplaced.project, hnew, ?_⟩ rfl nofun, hnew⟩
    simp [EdgeKind.ends]

/-- While the types of a file are added: the file and its package are there, and so are the types
that were added so far. -/
structure Filing (fileId : NodeId) (packageId : Option NodeId)
    (s : List (Option TypeEntry) × Assembly) : Prop where
  sound : s.2.Sound
  file : kindAt? s.2.graph.nodes fileId = some .file
  package : ∀ p ∈ packageId, kindAt? s.2.graph.nodes p = some .package
  placed : ∀ e, some e ∈ s.1 → kindAt? s.2.graph.nodes e.id = some .type

section Filing
variable {fileId : NodeId} {packageId : Option NodeId} {s : List (Option TypeEntry) × Assembly}
  (h : Filing fileId packageId s) (f : FileFacts)
include h

theorem Filing.addTypeIfNew (t : TypeFacts) :
    Filing fileId packageId (Assembly.addTypeIfNew fileId packageId f s t) := by
  obtain ⟨placed, a⟩ := s
  rcases addTypeIfNew_cases fileId packageId f placed a t with heq | ⟨outer, houter, hfree, heq⟩
  · rw [heq]
    refine { h with placed := fun e he => ?_ }
    rcases List.mem_append.mp he with he | he
    · exact h.placed e he
    · cases List.mem_singleton.mp he
  · rw [heq]
    have hadds := adds_addType packageId fileId f outer hfree
    obtain ⟨hsound, hentry⟩ := h.sound.addType h.file (fun o ho => h.placed o (houter o ho)) hfree
      (f := f) h.package
    refine ⟨hsound, hadds.kindAt? h.file, fun p hp => hadds.kindAt? (h.package p hp), ?_⟩
    intro e he
    rcases List.mem_append.mp he with he | he
    · exact hadds.kindAt? (h.placed e he)
    · obtain rfl := Option.some.inj (List.mem_singleton.mp he)
      exact hentry

theorem Filing.foldl (ts : List TypeFacts) :
    Filing fileId packageId (ts.foldl (Assembly.addTypeIfNew fileId packageId f) s) := by
  induction ts generalizing s with
  | nil => exact h
  | cons t ts ih => exact ih (h.addTypeIfNew f t)

end Filing

/-- A file's node; its package and its types are not there yet. -/
def placeFile (a : Assembly) (f : FileFacts) : Assembly :=
  (a.addNode (fileNode f)).2.link ⟨projectId, .contains, a.graph.nextNode⟩

theorem adds_placeFile (a : Assembly) (f : FileFacts) :
    Adds a (a.placeFile f) [(fileNode f).key] [] [] :=
  (adds_addNode a (fileNode f)).trans (adds_link _ _)

theorem Sound.placeFile {a : Assembly} (h : a.Sound) (f : FileFacts) :
    (a.placeFile f).Sound ∧
      kindAt? (a.placeFile f).graph.nodes a.graph.nextNode = some .file := by
  have hkind : (fileNode f).kind = .file := kind_fileNode f
  have hnode := h.addNode (n := fileNode f) (by rw [hkind]; rfl)
  have hnew : kindAt? (a.addNode (fileNode f)).2.graph.nodes a.graph.nextNode = some .file := by
    rw [← hkind]
    exact kindAt?_length _ _
  refine ⟨hnode.link ⟨.project, .file, hnode.project, hnew, ?_⟩ rfl nofun, ?_⟩
  · simp [EdgeKind.ends]
  · rw [Assembly.placeFile, nodes_link]
    exact hnew

theorem addFile_eq (a : Assembly) (f : FileFacts) :
    a.addFile f = (f.types.foldl
      (addTypeIfNew a.graph.nextNode ((a.placeFile f).packageOf f.package).1 f)
      ([], ((a.placeFile f).packageOf f.package).2)).2 := rfl

theorem filing_packageOf {a : Assembly} (h : a.Sound) {fileId : NodeId}
    (hfile : kindAt? a.graph.nodes fileId = some .file) (name : Option String) :
    Filing fileId (a.packageOf name).1 ([], (a.packageOf name).2) := by
  cases name with
  | none => exact ⟨h, hfile, nofun, nofun⟩
  | some name =>
    obtain ⟨hsound, hpackage⟩ := h.package name
    refine ⟨hsound, ?_, ?_, nofun⟩
    · rcases package_cases a name with ⟨id, hid, heq⟩ | ⟨-, heq⟩
      · rw [packageOf, heq]
        exact hfile
      · rw [packageOf, heq]
        exact ((adds_placePackage a name).trans (adds_link _ _)).kindAt? hfile
    · intro p hp
      obtain rfl : (a.package name).1 = p := Option.some.inj hp
      exact hpackage

theorem Sound.addFile {a : Assembly} (h : a.Sound) (f : FileFacts) : (a.addFile f).Sound := by
  rw [addFile_eq]
  obtain ⟨hplaced, hfile⟩ := h.placeFile f
  exact ((filing_packageOf hplaced hfile f.package).foldl f f.types).sound

theorem sound_start (projectName : String) : (start projectName).Sound where
  numbered := rfl
  contained := (show Contained [] [] from ⟨nofun, nofun, .nil, nofun⟩).add rfl
  project := rfl
  packages := List.forall_mem_nil _
  types := List.forall_mem_nil _
  methods := List.forall_mem_nil _
  fields := List.forall_mem_nil _
  typeEntries := List.forall_mem_nil _
  methodEntries := List.forall_mem_nil _

theorem sound_addFiles (projectName : String) (files : List FileFacts) :
    (files.foldl addFile (start projectName)).Sound := by
  have hfold : ∀ a : Assembly, a.Sound → (files.foldl addFile a).Sound := by
    induction files with
    | nil => exact fun _ h => h
    | cons f files ih => exact fun a h => ih _ (h.addFile f)
  exact hfold _ (sound_start projectName)

end Lineage.Java.Assembly
