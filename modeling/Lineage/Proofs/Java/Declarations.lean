import Lineage.Proofs.Java.Formed
import Lineage.Proofs.Keyed
import Lineage.Proofs.Text
/-! # Where declarations are written

Each type, method and field of a file stands for a tree in the file's source and is told by this tree
alone: a type's header is the text before its body, a method's source is its own text, and a field's
source has its modifiers, its type and its own declarator. Main statement: `written_ofSource`.
-/
namespace Lineage.Java

inductive Tree.Within (unit : Tree) : Tree → Prop
  | child {t : Tree} (h : t ∈ unit.children) : Within unit t
  | deeper {t c : Tree} (h : Within unit t) (hc : c ∈ t.children) : Within unit c

/-- A file is told by the package and the imports among the parts of its source. -/
def FileFacts.ToldBy (f : FileFacts) (unit : Tree) : Prop :=
  f.package = (unit.children.filterMap Extract.packageName?).getLast? ∧
    f.imports = unit.children.filterMap Extract.importName?

/-- A type is told by its tree: its header ends where its body begins. -/
def TypeFacts.ToldBy (t : TypeFacts) (u : Tree) : Prop :=
  ∃ body before, u.child? .body = some body ∧ u.text = before ++ body.text ∧
    t.header = Text.trim before ∧ t.modifiers = Extract.modifiers u

def MethodFacts.ToldBy (m : MethodFacts) (u : Tree) : Prop :=
  m.source = u.text ∧ m.modifiers = Extract.modifiers u ∧
    m.returnType = (u.child? .type).map fun ty => TypeName.withoutBlanks ty.text

/-- A field is told by a component of a record, or by its modifiers, its type and one declarator of its
declaration: what other variables the declaration has does not show. -/
inductive FieldFacts.ToldBy (x : FieldFacts) (u : Tree) : Prop
  | component {type : Tree} (htype : u.child? .type = some type) (hsource : x.source = u.text)
    (hx : x.type = TypeName.withoutBlanks type.text ∧ x.modifiers = "private final")
  | declarator {type d : Tree} {start : String} (htype : u.child? .type = some type)
    (hd : d ∈ u.children ∧ d.role = some .declarator ∧ Extract.nameOf? d = some x.name)
    (hstart : start = if x.modifiers = "" then type.text else x.modifiers ++ " " ++ type.text)
    (hsource : x.source = start ++ " " ++ d.text ++ ";")
    (hx : x.type = TypeName.withoutBlanks type.text ∧ x.modifiers = Extract.modifiers u)

/-- A type and its members stand for trees inside of a unit. -/
structure TypeFacts.Written (unit : Tree) (t : TypeFacts) : Prop where
  self : ∃ u, unit.Within u ∧ t.ToldBy u
  methods : ∀ m ∈ t.methods, ∃ u, unit.Within u ∧ m.ToldBy u
  fields : ∀ x ∈ t.fields, ∃ u, unit.Within u ∧ x.ToldBy u

theorem Tree.Within.all {P : Tree → Prop} {unit t : Tree} (h : unit.Within t)
    (hP : ∀ c ∈ unit.children, c.All P) : t.All P := by
  induction h with
  | child h => exact hP _ h
  | deeper _ hc ih => exact ih.child hc

theorem Tree.Within.child? {unit t c : Tree} {r : Role} (h : unit.Within t)
    (hc : t.child? r = some c) : unit.Within c := h.deeper (List.mem_of_find?_eq_some hc)

theorem Tree.Within.named {unit t c : Tree} (h : unit.Within t) (hc : c ∈ t.named) :
    unit.Within c := h.deeper (List.mem_filter.mp hc).1

namespace Extract

variable {unit : Tree} {types : List TypeFacts}

theorem header_eq {u b : Tree} {before : String} (hb : u.child? .body = some b)
    (ht : u.text = before ++ b.text) : header u = Text.trim before := by
  rw [header, hb]
  simp only [ht, Text.before?_append, Option.getD_some]

theorem toldBy_of_recordComponent? {u : Tree} {x : FieldFacts} (h : recordComponent? u = some x) :
    x.ToldBy u := by
  obtain ⟨-, -, h⟩ := Option.bind_eq_some_iff.mp h
  obtain ⟨name, -, h⟩ := Option.bind_eq_some_iff.mp h
  obtain ⟨type, htype, h⟩ := Option.bind_eq_some_iff.mp h
  cases h
  exact .component htype rfl ⟨rfl, rfl⟩

theorem toldBy_of_mem_fields {u : Tree} {x : FieldFacts} (h : x ∈ fields u) : x.ToldBy u := by
  unfold fields at h
  split at h
  · cases h
  · rename_i type htype
    obtain ⟨d, hd, hx⟩ := List.mem_filterMap.mp h
    obtain ⟨name, hname, rfl⟩ := Option.map_eq_some_iff.mp hx
    obtain ⟨hmem, hrole⟩ := List.mem_filter.mp hd
    exact .declarator htype ⟨hmem, by simpa using hrole, hname⟩ rfl rfl ⟨rfl, rfl⟩

theorem written_typeFacts {u : Tree} (hu : unit.Within u) (h : u.BodyLast) (before : List Tree)
    (scope : Option String) (outer : Option Nat) (kind : TypeKind) (name : String) :
    (typeFacts before scope outer kind name u).Written unit where
  self := by
    obtain ⟨b, text, hb, ht⟩ := h
    exact ⟨u, hu, b, text, hb, ht, header_eq hb ht, rfl⟩
  methods := List.forall_mem_nil _
  fields x hx := by
    simp only [typeFacts] at hx
    split at hx
    · obtain ⟨c, hc, hx⟩ := List.mem_filterMap.mp hx
      cases hp : u.child? .parameters with
      | none => simp [hp] at hc
      | some p =>
        simp only [hp, Option.map_some, Option.getD_some] at hc
        exact ⟨c, (hu.child? hp).named hc, toldBy_of_recordComponent? hx⟩
    · cases hx

theorem written_addFields (h : ∀ t ∈ types, t.Written unit) (i : Nat) {xs : List FieldFacts}
    (hxs : ∀ x ∈ xs, ∃ u, unit.Within u ∧ x.ToldBy u) :
    ∀ t ∈ addFields i xs types, t.Written unit := by
  intro t hmem
  rcases mem_modify hmem with ht | ⟨t, ht, rfl⟩
  · exact h t ht
  · refine { h t ht with fields := fun x hx => ?_ }
    rcases List.mem_append.mp hx with hx | hx
    · exact (h t ht).fields x hx
    · exact hxs x hx

theorem written_addMethod (h : ∀ t ∈ types, t.Written unit) (i : Nat) {m : MethodFacts}
    (hm : ∃ u, unit.Within u ∧ m.ToldBy u) : ∀ t ∈ addMethod i m types, t.Written unit := by
  intro t hmem
  rcases mem_modify hmem with ht | ⟨t, ht, rfl⟩
  · exact h t ht
  · refine { h t ht with methods := fun m' hm' => ?_ }
    rcases List.mem_append.mp hm' with hm' | hm'
    · exact (h t ht).methods m' hm'
    · rw [List.mem_singleton.mp hm']
      exact hm

theorem written_addOwn (h : ∀ t ∈ types, t.Written unit) (scope : Scope) (before : List Tree)
    {u : Tree} (hu : unit.Within u) : ∀ t ∈ addOwn scope before types u, t.Written unit := by
  unfold addOwn
  split
  · exact h
  · split
    · exact written_addMethod h _ ⟨u, hu, rfl, rfl, rfl⟩
    · exact written_addMethod h _ ⟨u, hu, rfl, rfl, rfl⟩
    · exact written_addMethod h _ ⟨u, hu, rfl, rfl, rfl⟩
    · exact written_addFields h _ fun x hx => ⟨u, hu, toldBy_of_mem_fields hx⟩
    · exact written_addFields h _ fun x hx => ⟨u, hu, toldBy_of_mem_fields hx⟩
    · exact h

mutual

theorem written_addDeclaration (hf : ∀ u, unit.Within u → u.Formed) {types : List TypeFacts}
    (h : ∀ t ∈ types, t.Written unit) (scope : Scope) (before : List Tree) :
    ∀ u, unit.Within u → ∀ t ∈ addDeclaration scope before types u, t.Written unit
  | .node k r text a b cs, hu => by
    have hcs : ∀ c ∈ cs, unit.Within c := fun c hc => hu.deeper hc
    unfold addDeclaration
    dsimp only
    split
    · rename_i kind name hkind hname
      have hbody := (hf _ hu).body (by simp [Tree.kind, hkind])
      refine written_addBodies hf (List.forall_mem_append.mpr ⟨h, ?_⟩) _ cs hcs
      intro t ht
      rw [List.mem_singleton.mp ht]
      exact written_typeFacts hu hbody ..
    · split
      · exact written_addDeclarations hf h scope [] cs hcs
      · exact written_addOwn h scope before hu

theorem written_addBodies (hf : ∀ u, unit.Within u → u.Formed) {types : List TypeFacts}
    (h : ∀ t ∈ types, t.Written unit) (scope : Scope) :
    ∀ cs, (∀ c ∈ cs, unit.Within c) → ∀ t ∈ addBodies scope types cs, t.Written unit
  | [], _ => h
  | .node k r text a b cs :: us, hu => by
    obtain ⟨hfirst, hrest⟩ := List.forall_mem_cons.mp hu
    have hcs : ∀ c ∈ cs, unit.Within c := fun c hc => hfirst.deeper hc
    unfold addBodies
    refine written_addBodies hf ?_ scope us hrest
    split
    · exact written_addDeclarations hf h scope [] cs hcs
    · exact h

theorem written_addDeclarations (hf : ∀ u, unit.Within u → u.Formed) {types : List TypeFacts}
    (h : ∀ t ∈ types, t.Written unit) (scope : Scope) (before : List Tree) :
    ∀ us, (∀ u ∈ us, unit.Within u) → ∀ t ∈ addDeclarations scope before types us, t.Written unit
  | [], _ => h
  | u :: us, hu => by
    obtain ⟨hfirst, hrest⟩ := List.forall_mem_cons.mp hu
    exact written_addDeclarations hf (written_addDeclaration hf h scope before u hfirst) scope
      (u :: before) us hrest

end

theorem written_unitTypes (hf : ∀ u, unit.Within u → u.Formed) (h : ∀ t ∈ types, t.Written unit)
    (package : Option String) (before : List Tree) {parts : List Tree}
    (hparts : ∀ u ∈ parts, unit.Within u) :
    ∀ t ∈ unitTypes package before types parts, t.Written unit := by
  induction parts generalizing package before types with
  | nil => exact h
  | cons u us ih =>
    obtain ⟨hfirst, hrest⟩ := List.forall_mem_cons.mp hparts
    refine ih ?_ _ _ hrest
    split
    · exact written_addDeclaration hf h _ before u hfirst
    · exact h

theorem solid_importName? {u : Tree} (hu : u.Formed) {name : String}
    (h : importName? u = some name) : Solid name ∧ name ≠ "" := by
  unfold importName? at h
  split at h
  · rename_i hkind
    obtain ⟨c, hc, rfl⟩ := Option.map_eq_some_iff.mp h
    have hmem := List.mem_filter.mp (List.mem_of_getLast? hc)
    obtain ⟨hsolid, hne⟩ := hu.names hkind c (List.mem_filter.mp hmem.1).1 hmem.2
    split
    · refine ⟨hsolid.append ⟨by decide, by decide⟩, fun he => hne ?_⟩
      exact (String.append_eq_empty_iff.mp he).1
    · exact ⟨hsolid, hne⟩
  · cases h

end Extract

structure FileFacts.Written (unit : Tree) (f : FileFacts) : Prop where
  self : f.ToldBy unit
  types : ∀ t ∈ f.types, t.Written unit

section Source
variable {parse : Parser} (hparse : parse.Reliable) {source : String} {unit : Tree}
variable (h : parse source = some unit)
include hparse h

theorem written_ofSource (path : String) : (FileFacts.ofSource parse path source).Written unit := by
  have hformed : ∀ u, unit.Within u → u.Formed := fun u hu => (hu.all (hparse source unit h)).self
  simp only [FileFacts.ofSource, h]
  refine ⟨⟨rfl, rfl⟩, ?_⟩
  exact Extract.written_unitTypes hformed (List.forall_mem_nil _) none [] fun u hu => .child hu

/-- The names that a file imports can be told from the text of its list of imports. -/
theorem FileFacts.ToldBy.solid_imports {f : FileFacts} (hf : f.ToldBy unit) :
    ∀ i ∈ f.imports, Solid i ∧ i ≠ "" := by
  intro i hi
  rw [hf.2] at hi
  obtain ⟨u, hu, hi⟩ := List.mem_filterMap.mp hi
  exact Extract.solid_importName? (hparse source unit h u hu).self hi

end Source

end Lineage.Java
