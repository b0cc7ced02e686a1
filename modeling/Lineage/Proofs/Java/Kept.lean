import Lineage.Proofs.Java.Contents
import Lineage.Proofs.Java.Naming
import Lineage.Proofs.Java.Origins
/-! # What is kept of the types of a project

Where no two types share a full name, none is left out: the graph has the nodes of all files, types
and fields and, in each type, of the first method with each tail, in the order in which they are
declared. Main statement: `written_graph`.
-/
namespace Lineage.Java

def fullNames (files : List FileFacts) : List String :=
  files.flatMap fun f => f.types.map (·.qualifiedName)

/-- What is kept of files none of whose types is left out. -/
def Declaration.kept (files : List FileFacts) : List Declaration :=
  files.flatMap fun f => file f :: f.types.flatMap (keptOf f)

namespace Assembly

/-! ## Types with names of their own -/

def names (a : Assembly) : List String := a.symbols.types.map (·.1)

theorem names_packageOf (a : Assembly) (name : Option String) :
    (a.packageOf name).2.names = a.names := by
  cases name with
  | none => rfl
  | some name =>
    rcases package_cases a name with ⟨id, -, heq⟩ | ⟨-, heq⟩
    · rw [packageOf, heq]
    · rw [packageOf, heq]
      exact congrArg (fun s : Symbols => s.types.map (·.1)) (symbols_link (a.placePackage name) _)

section Types
variable {fileId : NodeId} {packageId : Option NodeId} {f : FileFacts} {a : Assembly}
  {placed : List (Option TypeEntry)}

/-- A type is added if its name is free and the type around it was added. -/
theorem exists_addTypeIfNew (fileId : NodeId) (packageId : Option NodeId) (f : FileFacts)
    {t : TypeFacts} (houter : ∀ i ∈ t.outer, ∃ e, placed[i]? = some (some e))
    (hfree : a.symbols.type? t.qualifiedName = none) :
    ∃ outer, addTypeIfNew fileId packageId f (placed, a) t =
      (placed ++ [some (addType fileId packageId f outer a t).1],
        (addType fileId packageId f outer a t).2) := by
  cases ht : t.outer with
  | none => exact ⟨none, by simp [addTypeIfNew, ht, hfree]⟩
  | some i =>
    obtain ⟨e, he⟩ := houter i ht
    exact ⟨some e, by simp [addTypeIfNew, ht, he, hfree]⟩

theorem traces_addTypes {ts : List TypeFacts} (hplaced : ∀ o ∈ placed, o.isSome)
    (hnames : (a.names ++ ts.map (·.qualifiedName)).Nodup) (hfirst : OuterFirst placed.length ts) :
    Traces a.graph (ts.foldl (addTypeIfNew fileId packageId f) (placed, a)).2.graph
        (ts.flatMap (Declaration.keptOf f)) ∧
      (ts.foldl (addTypeIfNew fileId packageId f) (placed, a)).2.names =
        a.names ++ ts.map (·.qualifiedName) := by
  -- on the types still to be added, while all types before them are placed
  induction ts generalizing placed a with
  | nil => exact ⟨.refl _, (List.append_nil _).symm⟩
  | cons t ts ih =>
    have hnew : t.qualifiedName ∉ a.names := fun hmem =>
      (List.nodup_append.mp hnames).2.2 _ hmem _ List.mem_cons_self rfl
    have hfree : a.symbols.type? t.qualifiedName = none := lookup_eq_none_iff_not_mem.mpr hnew
    have houter : ∀ i ∈ t.outer, ∃ e, placed[i]? = some (some e) := by
      intro i hi
      have hlt := hfirst.1 i hi
      obtain ⟨e, he⟩ := Option.isSome_iff_exists.mp (hplaced _ (List.getElem_mem hlt))
      exact ⟨e, by rw [List.getElem?_eq_getElem hlt, he]⟩
    obtain ⟨outer, heq⟩ := exists_addTypeIfNew fileId packageId f houter hfree
    have hnames' : (addType fileId packageId f outer a t).2.names = a.names ++ [t.qualifiedName] :=
      (adds_addType packageId fileId f outer hfree).names
    have hcons : a.names ++ (t :: ts).map (·.qualifiedName) =
        (addType fileId packageId f outer a t).2.names ++ ts.map (·.qualifiedName) := by
      rw [hnames', List.append_assoc]
      rfl
    rw [List.foldl_cons, heq, hcons]
    have hplaced' : ∀ o ∈ placed ++ [some (addType fileId packageId f outer a t).1], o.isSome :=
      List.forall_mem_append.mpr ⟨hplaced, by simp⟩
    obtain ⟨htraces, hrest⟩ := ih hplaced' (hcons ▸ hnames) (by simpa using hfirst.2)
    exact ⟨(traces_addType packageId fileId f outer hfree).trans htraces, hrest⟩

end Types

theorem traces_addFile_of_nodup {a : Assembly} {f : FileFacts}
    (hnames : (a.names ++ f.types.map (·.qualifiedName)).Nodup) (hfirst : OuterFirst 0 f.types) :
    Traces a.graph (a.addFile f).graph (.file f :: f.types.flatMap (Declaration.keptOf f)) ∧
      (a.addFile f).names = a.names ++ f.types.map (·.qualifiedName) := by
  have hopened : ((a.placeFile f).packageOf f.package).2.names = a.names := by
    rw [names_packageOf]
    exact (adds_placeFile a f).names.trans (List.append_nil _)
  rw [← hopened] at hnames ⊢
  rw [addFile_eq]
  have hnone : ∀ o ∈ ([] : List (Option TypeEntry)), o.isSome := List.forall_mem_nil _
  obtain ⟨htraces, hrest⟩ := traces_addTypes hnone hnames hfirst
  exact ⟨(traces_openFile a f).trans htraces, hrest⟩

theorem traces_addFiles_of_nodup {a : Assembly} {files : List FileFacts}
    (hnames : (a.names ++ fullNames files).Nodup) (hfirst : ∀ f ∈ files, OuterFirst 0 f.types) :
    Traces a.graph (files.foldl addFile a).graph (Declaration.kept files) := by
  induction files generalizing a with
  | nil => exact .refl _
  | cons f files ih =>
    obtain ⟨hf, hfiles⟩ := List.forall_mem_cons.mp hfirst
    have hcons : a.names ++ fullNames (f :: files) =
        a.names ++ f.types.map (·.qualifiedName) ++ fullNames files := by
      rw [fullNames, List.flatMap_cons, ← List.append_assoc]
      rfl
    rw [hcons] at hnames
    obtain ⟨htraces, hnames'⟩ := traces_addFile_of_nodup (List.nodup_append.mp hnames).1 hf
    exact htraces.trans (ih (hnames' ▸ hnames) hfiles)

end Assembly

theorem written_graph (projectName : String) {files : List FileFacts}
    (hnames : (fullNames files).Nodup) (hfirst : ∀ f ∈ files, OuterFirst 0 f.types) :
    written (Snapshot.graph projectName files).nodes =
      (Declaration.kept files).map Declaration.node := by
  have hstart : Traces .empty (Assembly.start projectName).graph [] := .addUnwritten .empty rfl
  have hall := (hstart.trans (Assembly.traces_addFiles_of_nodup hnames hfirst)).trans
    (Assembly.traces_graph projectName files)
  rw [hall.nodes, List.nil_append, List.append_nil]
  rfl

/-! ## Methods with tails of their own -/

theorem filter_method_kept (files : List FileFacts) :
    ((Declaration.kept files).map Declaration.node).filter (·.kind = .method) =
      files.flatMap fun f => f.types.flatMap fun t =>
        (Assembly.distinctTails t.methods).map (Assembly.methodNode f.path t) := by
  have htype : ∀ (f : FileFacts) (t : TypeFacts),
      ((Declaration.keptOf f t).map Declaration.node).filter (·.kind = .method) =
        (Assembly.distinctTails t.methods).map (Assembly.methodNode f.path t) := by
    intro f t
    have hmethods : ((Assembly.distinctTails t.methods).map (Assembly.methodNode f.path t)).filter
        (·.kind = .method) = (Assembly.distinctTails t.methods).map (Assembly.methodNode f.path t) :=
      List.filter_eq_self.mpr (by simp)
    have hfields : (t.fields.map (Assembly.fieldNode f.path t)).filter (·.kind = .method) = [] :=
      List.filter_eq_nil_iff.mpr (by simp)
    simp only [Declaration.keptOf, List.map_cons, List.map_append, List.map_map]
    rw [List.filter_cons_of_neg (by simp [Declaration.node]), List.filter_append]
    exact (congrArg₂ (· ++ ·) hfields hmethods).trans (List.nil_append _)
  simp only [Declaration.kept, List.map_flatMap, List.filter_flatMap, List.map_cons]
  refine List.flatMap_congr fun f _ => ?_
  rw [List.filter_cons_of_neg (by simp [Declaration.node]), List.filter_flatMap]
  exact List.flatMap_congr fun t _ => htype f t

theorem distinctTails_eq_self_iff (ms : List MethodFacts) :
    Assembly.distinctTails ms = ms ↔ (ms.map (·.tail)).Nodup := by
  constructor
  · intro h
    rw [← h]
    exact Assembly.nodup_tails_distinctTails ms
  · intro h
    induction ms using List.reverseRecOn with
    | nil => rfl
    | append_singleton ms m ih =>
      rw [List.map_append, List.nodup_append] at h
      have hnew : ms.any (fun m' => m'.tail = m.tail) = false := by
        rw [List.any_eq_false]
        intro m' hm'
        have hne := h.2.2 _ (List.mem_map_of_mem hm') _ List.mem_cons_self
        simpa using hne
      rw [Assembly.distinctTails, List.foldl_append]
      change (if (Assembly.distinctTails ms).any (·.tail = m.tail) then Assembly.distinctTails ms
        else Assembly.distinctTails ms ++ [m]) = ms ++ [m]
      rw [ih h.1, hnew]
      rfl

end Lineage.Java
