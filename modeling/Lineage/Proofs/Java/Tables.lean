import Lineage.Proofs.Java.Filing
import Lineage.Proofs.Java.Registration
/-! # The table of a project

While the files of a project are added, its table of symbols only ever grows by registering; types
are registered under the numbers of their own nodes. So what holds of all tables that registering
makes holds wherever the references of a project are resolved. Main statement: `exists_entries`.
-/
namespace Lineage.Java.Assembly

open Symbols (Entry enter ofEntries typesOf)

/-- From one assembly to another, entries are registered, types under the numbers of new nodes. -/
structure Enters (a b : Assembly) (es : List Entry) : Prop where
  symbols : b.symbols = es.foldl enter a.symbols
  numbers : ∃ k, b.graph.nodes.length = a.graph.nodes.length + k ∧
    ((typesOf es).map (·.2.number)).Sublist (List.range' a.graph.nodes.length k)

def Registers (a b : Assembly) : Prop := ∃ es, Enters a b es

namespace Registers

variable {a b c : Assembly}

theorem of_eq (hsymbols : b.symbols = a.symbols)
    (hnodes : ∃ new, b.graph.nodes = a.graph.nodes ++ new) : Registers a b := by
  obtain ⟨new, hnew⟩ := hnodes
  exact ⟨[], hsymbols, new.length, by rw [hnew, List.length_append], List.nil_sublist _⟩

theorem refl (a : Assembly) : Registers a a := of_eq rfl ⟨[], (List.append_nil _).symm⟩

theorem trans (h : Registers a b) (h' : Registers b c) : Registers a c := by
  obtain ⟨es, hsymbols, k, hlength, hes⟩ := h
  obtain ⟨es', hsymbols', k', hlength', hes'⟩ := h'
  refine ⟨es ++ es', ?_, k + k', by omega, ?_⟩
  · rw [hsymbols', hsymbols, List.foldl_append]
  · rw [hlength] at hes'
    rw [typesOf, List.filterMap_append, List.map_append, ← List.range'_append_1]
    exact hes.append hes'

theorem foldl {α : Type} {f : Assembly → α → Assembly} (hf : ∀ a x, Registers a (f a x))
    (a : Assembly) (xs : List α) : Registers a (xs.foldl f a) := by
  induction xs generalizing a with
  | nil => exact refl a
  | cons x xs ih => exact (hf a x).trans (ih _)

theorem addNode (a : Assembly) (n : Node) : Registers a (a.addNode n).2 := of_eq rfl ⟨_, rfl⟩

theorem link (a : Assembly) (t : Triple) : Registers a (a.link t) :=
  of_eq (symbols_link a t) ⟨[], by rw [nodes_link, List.append_nil]⟩

theorem linkAll (a : Assembly) (ts : List Triple) : Registers a (a.linkAll ts) := foldl link a ts

theorem enter {e : Entry} (he : e.type? = none) (hsymbols : b.symbols = a.symbols.enter e)
    (hgraph : b.graph = a.graph) : Registers a b := by
  refine ⟨[e], hsymbols, 0, by rw [hgraph]; rfl, ?_⟩
  simp [typesOf, he]

end Registers

/-! ## Adding the files of a project -/

theorem registers_addField (path : String) (t : TypeEntry) (a : Assembly) (x : FieldFacts) :
    Registers a (addField path t a x) := by
  have hplaced := (Registers.addNode a (fieldNode path t.facts x)).trans
    (.link _ ⟨t.id, .declares, a.graph.nextNode⟩)
  exact hplaced.trans (.enter (e := .field t.id ⟨a.graph.nextNode, x.name, x.type⟩) rfl rfl rfl)

theorem registers_addMethod (path : String) (t : TypeEntry) (a : Assembly) (m : MethodFacts) :
    Registers a (addMethod path t a m) := by
  have hplaced := (Registers.addNode a (methodNode path t.facts m)).trans
    (.link _ ⟨t.id, .declares, a.graph.nextNode⟩)
  exact hplaced.trans (.enter (e := .method t.id (methodSymbol a.graph.nextNode m)) rfl rfl rfl)

theorem registers_addMembers (path : String) (t : TypeEntry) (a : Assembly) :
    Registers a (addMembers path t a) :=
  (Registers.foldl (registers_addField path t) a _).trans (.foldl (registers_addMethod path t) _ _)

theorem registers_placeType (fileId : NodeId) (f : FileFacts) (outer : Option TypeEntry)
    {a : Assembly} {t : TypeFacts} (hfree : a.symbols.type? t.qualifiedName = none) :
    Registers a (placeType fileId f outer a t) := by
  have hnodes : (placeType fileId f outer a t).graph.nodes = a.graph.nodes ++
      [(typeNode f t).renumber a.graph.nextNode] := nodes_link _ _
  refine ⟨[.type t.qualifiedName a.graph.nextNode], ?_, 1, ?_, List.Sublist.refl _⟩
  · simp [placeType, Symbols.enter, Symbols.addType?, hfree]
  · rw [hnodes, List.length_append]
    rfl

theorem registers_addType (fileId : NodeId) (packageId : Option NodeId) (f : FileFacts)
    (outer : Option TypeEntry) {a : Assembly} {t : TypeFacts}
    (hfree : a.symbols.type? t.qualifiedName = none) :
    Registers a (addType fileId packageId f outer a t).2 := by
  rw [addType_eq hfree]
  have hplaced := (registers_placeType fileId f outer hfree).trans (.linkAll _
    (packageId.toList.map fun p => ⟨a.graph.nextNode, .inPackage, p⟩))
  have hfilled := hplaced.trans
    (registers_addMembers f.path (typeEntry a.graph.nextNode f outer t) _)
  exact hfilled.trans (.of_eq rfl ⟨[], (List.append_nil _).symm⟩)

theorem registers_addTypeIfNew (fileId : NodeId) (packageId : Option NodeId) (f : FileFacts)
    (s : List (Option TypeEntry) × Assembly) (t : TypeFacts) :
    Registers s.2 (addTypeIfNew fileId packageId f s t).2 := by
  obtain ⟨placed, a⟩ := s
  rcases addTypeIfNew_cases fileId packageId f placed a t with heq | ⟨outer, -, hfree, heq⟩
  · rw [heq]
    exact .refl a
  · rw [heq]
    exact registers_addType fileId packageId f outer hfree

theorem registers_packageOf (a : Assembly) (name : Option String) :
    Registers a (a.packageOf name).2 := by
  cases name with
  | none => exact .refl a
  | some name =>
    rcases package_cases a name with ⟨id, -, heq⟩ | ⟨-, heq⟩
    · rw [packageOf, heq]
      exact .refl a
    · rw [packageOf, heq]
      obtain ⟨new, hnodes, -⟩ := (adds_placePackage a name).nodes
      have hplaced : Registers a (a.placePackage name) := .of_eq rfl ⟨new, hnodes⟩
      exact hplaced.trans (.link _ _)

theorem registers_addFile (a : Assembly) (f : FileFacts) : Registers a (a.addFile f) := by
  have htypes : ∀ (ts : List TypeFacts) (fileId : NodeId) (packageId : Option NodeId)
      (s : List (Option TypeEntry) × Assembly),
      Registers s.2 (ts.foldl (addTypeIfNew fileId packageId f) s).2 := by
    intro ts
    induction ts with
    | nil => exact fun _ _ s => .refl s.2
    | cons t ts ih => exact fun _ _ s => (registers_addTypeIfNew _ _ f s t).trans (ih _ _ _)
  rw [addFile_eq]
  have hplaced : Registers a (a.placeFile f) := (Registers.addNode a (fileNode f)).trans (.link _ _)
  exact (hplaced.trans (registers_packageOf _ f.package)).trans (htypes f.types _ _ (_, _))

theorem registers_linkSupertype (t : TypeEntry) (a : Assembly) (named : EdgeKind × String) :
    Registers a (linkSupertype t a named) := by
  unfold linkSupertype
  split
  · rename_i target _
    dsimp only
    split
    · exact .refl a
    · exact (Registers.link a ⟨t.id, named.1, target⟩).trans
        (.enter (e := .supertype t.id target) rfl rfl rfl)
  · exact .refl a

theorem registers_linkSupertypes (a : Assembly) (t : TypeEntry) :
    Registers a (linkSupertypes a t) := .foldl (registers_linkSupertype t) a _

/-- Wherever supertypes and methods are linked, the table is made by registering, and no two of its
types have one number. -/
theorem exists_entries (projectName : String) (files : List FileFacts) (ts : List TypeEntry) :
    ∃ es, (ts.foldl linkSupertypes (files.foldl addFile (start projectName))).symbols =
        ofEntries es ∧ ((ofEntries es).types.map (·.2)).Nodup := by
  obtain ⟨es, hsymbols, k, -, hnumbers⟩ :=
    (Registers.foldl registers_addFile (start projectName) files).trans
      (.foldl registers_linkSupertypes _ ts)
  refine ⟨es, hsymbols, ?_⟩
  have hnodup : ((typesOf es).map (·.2.number)).Nodup := (List.nodup_range' 1).sublist hnumbers
  have hids : ((typesOf es).map (·.2)).Nodup := by
    rw [show (fun t : String × NodeId => t.2.number) = NodeId.number ∘ (·.2) from rfl,
      ← List.map_map] at hnodup
    exact hnodup.of_map _
  exact hids.sublist ((Symbols.types_sublist es).map _)

end Lineage.Java.Assembly
