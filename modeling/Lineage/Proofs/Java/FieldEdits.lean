import Lineage.Proofs.Java.Kept
import Lineage.Proofs.Java.Members
import Lineage.Proofs.Java.Parameters
/-! # Edits of fields

The text by which a field is compared is put together anew from the keywords among its modifiers,
its type and its own declarator; a field that a record has by its header is compared by the text of
its component. Together with the type that the field goes by, each part can be read back from that
text, so an edit of any of them is noticed. Annotations are left out of it. Main statement:
`noticesEdits_project`.
-/
namespace Lineage.Java

/-- What is written of one field: a variable's declaration without its other variables, or a
component of a record's header. -/
inductive FieldText where
  | ofVariable (annotations keywords : List String) (type declarator : String)
  | ofComponent (text : String)
  deriving DecidableEq

def FieldText.unannotated : FieldText → FieldText
  | ofVariable _ keywords type declarator => ofVariable [] keywords type declarator
  | ofComponent text => ofComponent text

namespace Tree

def annotationTexts (u : Tree) : List String :=
  ((Extract.modifierTrees u).filter fun m => Extract.isAnnotationKind m.kind).map text

/-- What stands among the modifiers of a declaration and is neither annotation nor comment. -/
def keywords (u : Tree) : List String :=
  ((Extract.modifierTrees u).filter fun m =>
    !Extract.isAnnotationKind m.kind && !m.kind.isComment).map text

def declarators (u : Tree) : List Tree := u.children.filter (·.role = some .declarator)

end Tree

namespace Extract

theorem modifiers_eq_join (u : Tree) : modifiers u = Text.join " " u.keywords := rfl

def start (u type : Tree) : String :=
  if modifiers u = "" then type.text else modifiers u ++ " " ++ type.text

def fieldOf? (u v : Tree) : Option FieldFacts := do
  let type ← u.child? .type
  let name ← nameOf? v
  return ⟨name, TypeName.withoutBlanks type.text, modifiers u,
    start u type ++ " " ++ v.text ++ ";", u.range⟩

theorem fields_eq_filterMap (u : Tree) : fields u = u.declarators.filterMap (fieldOf? u) := by
  unfold fields fieldOf? start
  cases u.child? .type with
  | none => simp
  | some type =>
    refine List.filterMap_congr fun v _ => ?_
    cases nameOf? v <;> rfl

end Extract

/-- A type declares a field, as a component of its header or as a variable in its body. -/
inductive Tree.HasField (d : Tree) : String → FieldText → Prop
  | ofComponent {c name type : Tree} (hd : d.kind = .recordDeclaration) (hc : c ∈ d.parameters)
      (hk : c.kind = .formalParameter) (hname : c.child? .name = some name)
      (htype : c.child? .type = some type) : HasField d name.text (.ofComponent c.text)
  | ofVariable {q : Placed} {type v : Tree} {name : String} (hq : q ∈ d.members)
      (hk : q.tree.kind.isVariables) (htype : q.tree.child? .type = some type)
      (hv : v ∈ q.tree.declarators) (hname : Extract.nameOf? v = some name) :
      HasField d name (.ofVariable q.tree.annotationTexts q.tree.keywords type.text v.text)

/-- The facts of a field are read off its own text. -/
inductive FieldFacts.ReadOff (x : FieldFacts) (d : Tree) : FieldText → Prop
  | ofComponent {c : Tree} (hd : d.kind = .recordDeclaration) (hc : c ∈ d.parameters)
      (hx : Extract.recordComponent? c = some x) : ReadOff x d (.ofComponent c.text)
  | ofVariable {q : Placed} {type v : Tree} (hq : q ∈ d.members) (hk : q.tree.kind.isVariables)
      (htype : q.tree.child? .type = some type) (hv : v ∈ q.tree.declarators)
      (hx : Extract.fieldOf? q.tree v = some x) :
      ReadOff x d (.ofVariable q.tree.annotationTexts q.tree.keywords type.text v.text)

section Reflects
variable {t : TypeFacts} {d : Tree} (h : t.Reflects d)
include h

theorem TypeFacts.Reflects.exists_field {name : String} {w : FieldText} (hw : d.HasField name w) :
    ∃ x ∈ t.fields, x.ReadOff d w ∧ x.name = name := by
  rw [h.fields]
  cases hw with
  | @ofComponent c name type hd hc hk hname htype =>
    have hx : Extract.recordComponent? c = some ⟨name.text, TypeName.withoutBlanks type.text,
        "private final", c.text, c.range⟩ := by
      simp [Extract.recordComponent?, hk, hname, htype]
    refine ⟨_, List.mem_append_left _ ?_, .ofComponent hd hc hx, rfl⟩
    rw [Tree.components, if_pos hd]
    exact List.mem_filterMap.mpr ⟨_, hc, hx⟩
  | @ofVariable q type v _ hq hk htype hv hname =>
    have hx : Extract.fieldOf? q.tree v = some ⟨name, TypeName.withoutBlanks type.text,
        Extract.modifiers q.tree, Extract.start q.tree type ++ " " ++ v.text ++ ";",
        q.tree.range⟩ := by
      simp [Extract.fieldOf?, Extract.start, htype, hname]
    refine ⟨_, List.mem_append_right _ ?_, .ofVariable hq hk htype hv hx, rfl⟩
    refine List.mem_flatMap.mpr ⟨_, hq, ?_⟩
    rw [Extract.fieldsIn, if_pos hk, Extract.fields_eq_filterMap]
    exact List.mem_filterMap.mpr ⟨_, hv, hx⟩

theorem TypeFacts.Reflects.exists_text {x : FieldFacts} (hx : x ∈ t.fields) :
    ∃ w, x.ReadOff d w := by
  rw [h.fields] at hx
  rcases List.mem_append.mp hx with hx | hx
  · unfold Tree.components at hx
    split at hx
    · rename_i hd
      obtain ⟨c, hc, hx⟩ := List.mem_filterMap.mp hx
      exact ⟨_, .ofComponent hd hc hx⟩
    · cases hx
  · obtain ⟨q, hq, hx⟩ := List.mem_flatMap.mp hx
    unfold Extract.fieldsIn at hx
    split at hx
    · rename_i hk
      rw [Extract.fields_eq_filterMap] at hx
      obtain ⟨v, hv, hx⟩ := List.mem_filterMap.mp hx
      obtain ⟨type, htype, -⟩ := Option.bind_eq_some_iff.mp hx
      exact ⟨_, .ofVariable hq hk htype hv hx⟩
    · cases hx

end Reflects

/-! ## Reading the parts back -/

section Parts
variable {s s' r r' : String}

/-- A type takes up no blanks from what follows it. -/
theorem eq_nil_of_withoutBlanks_eq (hs' : Closed s')
    (h : TypeName.withoutBlanks s = TypeName.withoutBlanks s') {cs : List Char}
    (hcs : s'.toList = s.toList ++ cs) : cs = [] := by
  by_contra hne
  obtain ⟨before, c, hlast, -, hc⟩ := hs'
  have hmem : c ∈ cs := by
    have hend := congrArg List.getLast? (hcs.symm.trans hlast)
    rw [List.getLast?_append_of_ne_nil _ hne, List.getLast?_concat] at hend
    exact List.mem_of_getLast? hend
  have hblank : cs.filter (fun c => !Text.isBlank c) = [] := by
    have hlist := congrArg String.toList h
    simp only [TypeName.withoutBlanks, String.toList_ofList, hcs, List.filter_append] at hlist
    exact List.self_eq_append_right.mp hlist
  rw [List.filter_eq_nil_iff] at hblank
  simpa [hc] using hblank c hmem

theorem eq_of_append_blank (hs : Closed s) (hs' : Closed s')
    (htype : TypeName.withoutBlanks s = TypeName.withoutBlanks s')
    (h : s ++ " " ++ r = s' ++ " " ++ r') : s = s' ∧ r = r' := by
  have hlist := congrArg String.toList h
  simp only [String.toList_append, List.append_assoc] at hlist
  have heq : s = s' := by
    rcases List.append_eq_append_iff.mp hlist with ⟨cs, hcs, -⟩ | ⟨cs, hcs, -⟩
    · rw [eq_nil_of_withoutBlanks_eq hs' htype hcs, List.append_nil] at hcs
      exact (String.toList_inj.mp hcs).symm
    · rw [eq_nil_of_withoutBlanks_eq hs htype.symm hcs, List.append_nil] at hcs
      exact String.toList_inj.mp hcs
  rw [heq] at hlist
  exact ⟨heq, String.toList_inj.mp (by simpa using hlist)⟩

theorem not_closed_semicolon (s : String) : ¬Closed (s ++ ";") := by
  rintro ⟨before, c, hs, ⟨-, hne⟩, -⟩
  have hlast := congrArg List.getLast? hs
  simp [String.toList_append] at hlast
  exact hne hlast.symm

end Parts

theorem of_mem_keywords {u : Tree} (hu : u.All Tree.Formed) :
    ∀ k ∈ u.keywords, k ≠ "" ∧ ' ' ∉ k.toList := by
  intro k hk
  obtain ⟨m, hm, rfl⟩ := List.mem_map.mp hk
  obtain ⟨hm, hkind⟩ := List.mem_filter.mp hm
  simp only [Bool.and_eq_true, Bool.not_eq_true'] at hkind
  cases hfind : u.children.find? (·.kind = .modifiers) with
  | none => simp [Extract.modifierTrees, hfind] at hm
  | some ms =>
    have hms : ms.kind = .modifiers := by simpa using List.find?_some hfind
    have hformed := (hu.child (List.mem_of_find?_eq_some hfind)).self
    rw [Extract.modifierTrees, hfind] at hm
    exact hformed.modifying hms m hm hkind.1 hkind.2

section Variables
variable {u u' v v' type type' : Tree} {x x' : FieldFacts}

theorem Extract.eq_of_fieldOf? (hx : fieldOf? u v = some x) (htype : u.child? .type = some type) :
    x.source = start u type ++ " " ++ v.text ++ ";" ∧
      x.type = TypeName.withoutBlanks type.text ∧ x.modifiers = modifiers u := by
  obtain ⟨type', htype', hx⟩ := Option.bind_eq_some_iff.mp hx
  obtain ⟨name, -, hx⟩ := Option.bind_eq_some_iff.mp hx
  obtain rfl : type = type' := Option.some.inj (htype.symm.trans htype')
  obtain rfl := Option.some.inj hx
  exact ⟨rfl, rfl, rfl⟩

variable (hu : u.All Tree.Formed) (hu' : u'.All Tree.Formed)
  (htype : u.child? .type = some type) (htype' : u'.child? .type = some type')
include hu hu' htype htype'

/-- Variables of one type are compared by their keywords, their types as written and their
declarators. -/
theorem variables_agree_iff (hk : u.kind.isVariables) (hk' : u'.kind.isVariables)
    (hx : Extract.fieldOf? u v = some x) (hx' : Extract.fieldOf? u' v' = some x')
    (h : x.type = x'.type) : x.source = x'.source ∧ x.modifiers = x'.modifiers ↔
      u.keywords = u'.keywords ∧ type.text = type'.text ∧ v.text = v'.text := by
  obtain ⟨hsource, hxtype, hmodifiers⟩ := Extract.eq_of_fieldOf? hx htype
  obtain ⟨hsource', hxtype', hmodifiers'⟩ := Extract.eq_of_fieldOf? hx' htype'
  have hclosed := (hu.self.typeLike (isDeclaration_of_isVariables hk) htype).closed
  have hclosed' := (hu'.self.typeLike (isDeclaration_of_isVariables hk') htype').closed
  rw [hsource, hsource', hmodifiers, hmodifiers']
  constructor
  · rintro ⟨hs, hm⟩
    have hkeywords : u.keywords = u'.keywords :=
      Text.join_singleton_injective (of_mem_keywords hu) (of_mem_keywords hu') hm
    have hrest : type.text ++ " " ++ v.text = type'.text ++ " " ++ v'.text := by
      simp only [Extract.start, hm, String.append_left_inj] at hs
      split at hs
      · exact hs
      · simpa only [String.append_assoc, String.append_right_inj] using hs
    exact ⟨hkeywords, eq_of_append_blank hclosed hclosed' (hxtype ▸ hxtype' ▸ h) hrest⟩
  · rintro ⟨hk, ht, hv⟩
    have hm : Extract.modifiers u = Extract.modifiers u' := by
      rw [Extract.modifiers_eq_join, Extract.modifiers_eq_join, hk]
    exact ⟨by rw [Extract.start, Extract.start, hm, ht, hv], hm⟩

end Variables

section Compare
variable {x x' : FieldFacts} {d d' : Tree} {w w' : FieldText}

theorem Extract.eq_of_recordComponent? {c : Tree} (hx : recordComponent? c = some x) :
    c.kind = .formalParameter ∧ x.source = c.text ∧ x.modifiers = "private final" := by
  obtain ⟨_, hk, hx⟩ := Option.bind_eq_some_iff.mp hx
  obtain ⟨name, -, hx⟩ := Option.bind_eq_some_iff.mp hx
  obtain ⟨type, -, hx⟩ := Option.bind_eq_some_iff.mp hx
  obtain rfl := Option.some.inj hx
  exact ⟨by simpa [guard] using hk, rfl, rfl⟩

theorem source_ne_of_readOff (hd : d.All Tree.Formed) {c u type v : Tree} (hc : c ∈ d.parameters)
    (hx : Extract.recordComponent? c = some x) (htype : u.child? .type = some type)
    (hx' : Extract.fieldOf? u v = some x') : x.source ≠ x'.source := by
  obtain ⟨hk, hsource, -⟩ := Extract.eq_of_recordComponent? hx
  rw [hsource, (Extract.eq_of_fieldOf? hx' htype).1]
  intro h
  exact not_closed_semicolon _ (h ▸ (hd.parameters _ hc).self.closed hk)

/-- Fields of one type agree if and only if they are written alike but for their annotations. -/
theorem agree_iff (hd : d.All Tree.Formed) (hd' : d'.All Tree.Formed) (h : x.ReadOff d w)
    (h' : x'.ReadOff d' w') (htype : x.type = x'.type) :
    x.source = x'.source ∧ x.modifiers = x'.modifiers ↔ w.unannotated = w'.unannotated := by
  cases h with
  | ofComponent _ hc hx =>
    cases h' with
    | ofComponent _ hc' hx' =>
      obtain ⟨-, hsource, hmodifiers⟩ := Extract.eq_of_recordComponent? hx
      obtain ⟨-, hsource', hmodifiers'⟩ := Extract.eq_of_recordComponent? hx'
      simp [FieldText.unannotated, hsource, hsource', hmodifiers, hmodifiers']
    | ofVariable _ _ ht' _ hx' =>
      simp [FieldText.unannotated, source_ne_of_readOff hd hc hx ht' hx']
  | ofVariable hq hk ht _ hx =>
    cases h' with
    | ofComponent _ hc' hx' =>
      simp [FieldText.unannotated, (source_ne_of_readOff hd' hc' hx' ht hx).symm]
    | ofVariable hq' hk' ht' _ hx' =>
      rw [variables_agree_iff (hd.members _ hq) (hd'.members _ hq') ht ht' hk hk' hx hx' htype]
      simp [FieldText.unannotated]

end Compare

/-! ## Projects -/

namespace Project

/-- The facts of a field and of its type, with what is written of the field. -/
structure FindsField (p : Project) (d : Tree) (f : FileFacts) (t : TypeFacts) (x : FieldFacts)
    (w : FieldText) : Prop where
  holds : p.Holds d f
  type : t ∈ f.types
  told : t.Reflects d
  field : x ∈ t.fields
  read : x.ReadOff d w

/-- One node of the graph goes by the field's key, and it is the field's own. -/
def ShowsField (p : Project) (f : FileFacts) (t : TypeFacts) (x : FieldFacts) (i : NodeId) : Prop :=
  ∃ n, p.graph.nodes.filter (·.key = n.key) = [n] ∧ n.id = i ∧
    n.renumber ⟨0⟩ = Assembly.fieldNode f.path t x

section Shown
variable {p q : Project} {f f' : FileFacts} {t t' : TypeFacts} {x x' : FieldFacts} {i j : NodeId}

theorem exists_findsField {d : Tree} (h : p.Holds d f) {name : String} {w : FieldText}
    (hw : d.HasField name w) : ∃ t x, p.FindsField d f t x w ∧ x.name = name := by
  obtain ⟨t, ht, htold⟩ := h.exists_type
  obtain ⟨x, hx, hread, hname⟩ := htold.exists_field hw
  exact ⟨t, x, ⟨h, ht, htold, hx, hread⟩, hname⟩

theorem findsField_of_mem (hf : f ∈ p.files) (ht : t ∈ f.types) (hx : x ∈ t.fields) :
    ∃ d w, p.FindsField d f t x w := by
  obtain ⟨d, hd, htold⟩ := exists_holds hf ht
  obtain ⟨w, hread⟩ := htold.exists_text hx
  exact ⟨d, w, hd, ht, htold, hx, hread⟩

theorem exists_showsField (hn : Nameable p.files) (hnames : (fullNames p.files).Nodup)
    (hf : f ∈ p.files) (ht : t ∈ f.types) (hx : x ∈ t.fields) : ∃ i, p.ShowsField f t x i := by
  have hkept : Declaration.field f t x ∈ Declaration.kept p.files := by
    refine List.mem_flatMap.mpr ⟨f, hf, List.mem_cons_of_mem _ (List.mem_flatMap.mpr ⟨t, ht, ?_⟩)⟩
    exact List.mem_cons_of_mem _ (List.mem_append_left _ (List.mem_map_of_mem hx))
  have hwritten : Assembly.fieldNode f.path t x ∈ written p.graph.nodes := by
    rw [graph, written_graph p.name hnames p.outerFirst_files]
    exact List.mem_map_of_mem hkept
  obtain ⟨n, hn', hnode⟩ := List.mem_map.mp hwritten
  have hmem := (List.mem_filter.mp hn').1
  exact ⟨n.id, n, filter_key_eq_singleton (nodup_keys_graph p.name hn) hmem, rfl, hnode⟩

theorem ShowsField.exists_entity (h : p.ShowsField f t x i) :
    ∃ e ∈ (Index.ofGraph p.graph).entities, e.id = i ∧
      e.key = (Assembly.fieldNode f.path t x).key ∧
        e.node.fingerprint = (Assembly.fieldNode f.path t x).fingerprint := by
  obtain ⟨n, hfilter, rfl, hnode⟩ := h
  have hwf : p.graph.WellFormed := wellFormed_project p.name p.files
  have hfind := Index.find?_ofNodes hwf.built.ids_nodup n.key
  rw [hfilter] at hfind
  refine ⟨_, (hwf.find?_eq_some_iff.mp hfind).1, rfl, ?_, ?_⟩
  · rw [← hnode]
    rfl
  · rw [← hnode]
    rfl

/-- Two fields of one key are matched, whatever methods are renamed, and compared by their facts. -/
theorem ShowsField.status (h : p.ShowsField f t x i) (h' : q.ShowsField f' t' x' j)
    (howner : t.qualifiedName = t'.qualifiedName) (hname : x.name = x'.name)
    (htype : x.type = x'.type) (ops : List Refactoring.Operation) :
    (Matching.ofGraphs p.graph q.graph ops).status2 j =
        (Matching.ofGraphs p.graph q.graph ops).status1 i ∧
      (Matching.ofGraphs p.graph q.graph ops).status1 i =
        if x.source = x'.source ∧ x.modifiers = x'.modifiers then .unchanged else .modified := by
  have h1 : p.graph.WellFormed := wellFormed_project p.name p.files
  have h2 : q.graph.WellFormed := wellFormed_project q.name q.files
  obtain ⟨old, hold, rfl, hkold, hfold⟩ := h.exists_entity
  obtain ⟨new, hnew, rfl, hknew, hfnew⟩ := h'.exists_entity
  have hkey : old.key = new.key := by
    rw [hkold, hknew, Assembly.key_fieldNode, Assembly.key_fieldNode, howner, hname, htype]
  have hpair : Pair.ofEntities old new ∈ (Matching.ofGraphs p.graph q.graph ops).pairs :=
    (Matching.mem_pairs_iff h1 h2).mpr (.inr ⟨old, hold, new, hnew, hkey, rfl⟩)
  have hcoherent := Matching.coherent_ofGraphs h1 h2 ops
  have hagree : old.node.fingerprint = new.node.fingerprint ↔
      x.source = x'.source ∧ x.modifiers = x'.modifiers := by
    rw [hfold, hfnew, Assembly.fingerprint_fieldNode, Assembly.fingerprint_fieldNode]
    simp [htype]
  have hs1 := hcoherent.status1_of_mem hpair
  have hs2 := hcoherent.status2_of_mem hpair
  simp only [Pair.ofEntities, hagree] at hs1 hs2
  exact ⟨hs2.trans hs1.symm, hs1⟩

end Shown

/-- Every field that a project declares is found and shown, and from one version to another it is
modified if and only if something of it other than an annotation is written differently. -/
structure NoticesEdits (p : Project) : Prop where
  declared : ∀ d f, p.Holds d f → ∀ name w, d.HasField name w →
    ∃ t x, p.FindsField d f t x w ∧ x.name = name
  told : ∀ f ∈ p.files, ∀ t ∈ f.types, ∀ x ∈ t.fields, ∃ d w, p.FindsField d f t x w
  shown : Nameable p.files → (fullNames p.files).Nodup →
    ∀ f ∈ p.files, ∀ t ∈ f.types, ∀ x ∈ t.fields, ∃ i, p.ShowsField f t x i
  compared : ∀ q : Project, q.parser.Reliable → ∀ {d d' f f' t t' x x' w w' i j},
    p.FindsField d f t x w → q.FindsField d' f' t' x' w' → p.ShowsField f t x i →
    q.ShowsField f' t' x' j → t.qualifiedName = t'.qualifiedName → x.name = x'.name → x.type = x'.type →
    ∀ ops, (Matching.ofGraphs p.graph q.graph ops).status2 j =
        (Matching.ofGraphs p.graph q.graph ops).status1 i ∧
      (Matching.ofGraphs p.graph q.graph ops).status1 i =
        if w.unannotated = w'.unannotated then .unchanged else .modified

theorem noticesEdits_project (p : Project) (hparser : p.parser.Reliable) : p.NoticesEdits where
  declared _ _ h _ _ hw := exists_findsField h hw
  told _ hf _ ht _ hx := findsField_of_mem hf ht hx
  shown hn hnames _ hf _ ht _ hx := exists_showsField hn hnames hf ht hx
  compared q hq _ _ _ _ _ _ _ _ _ _ _ _ h h' hshown hshown' howner hname htype ops := by
    simp only [← agree_iff (h.holds.formed hparser) (h'.holds.formed hq) h.read h'.read htype]
    exact hshown.status hshown' howner hname htype ops

def bareField : Project := ⟨Tree.ofSource?, "app", [("A.java", "class A \x7b int n; \x7d")]⟩

def setField : Project := ⟨Tree.ofSource?, "app", [("A.java", "class A \x7b int n = 1; \x7d")]⟩

def markedField : Project :=
  ⟨Tree.ofSource?, "app", [("A.java", "class A \x7b @Deprecated int n; \x7d")]⟩

/-- A variable of a project whose types all have one name and all fields one type. -/
theorem exists_shown {p : Project} (owner name type : String) {w : FieldText}
    (hn : Nameable p.files) (hnames : (fullNames p.files).Nodup)
    (hall : ∀ f ∈ p.files, ∀ t ∈ f.types, t.qualifiedName = owner ∧ ∀ x ∈ t.fields, x.type = type)
    (hdeclared : ∃ s ∈ p.sources, ∃ unit ∈ p.parser s.2, ∃ d ∈ unit.children, d.IsType ∧
      ∃ q ∈ d.members, q.tree.kind.isVariables ∧ ∃ u ∈ q.tree.child? .type,
        ∃ v ∈ q.tree.declarators, Extract.nameOf? v = some name ∧
          .ofVariable q.tree.annotationTexts q.tree.keywords u.text v.text = w) :
    ∃ d f t x i, p.FindsField d f t x w ∧ p.ShowsField f t x i ∧
      t.qualifiedName = owner ∧ x.name = name ∧ x.type = type := by
  obtain ⟨s, hs, unit, hunit, d, hd, hd', q, hq, hk, u, hu, v, hv, hname, rfl⟩ := hdeclared
  have hholds : p.Holds d _ := ⟨s, hs, unit, hunit, .here hd hd', rfl⟩
  obtain ⟨t, x, hfinds, hx⟩ := exists_findsField hholds (.ofVariable hq hk hu hv hname)
  obtain ⟨howner, htypes⟩ := hall _ hholds.mem_files t hfinds.type
  obtain ⟨i, hi⟩ := exists_showsField hn hnames hholds.mem_files hfinds.type hfinds.field
  exact ⟨d, _, t, x, i, hfinds, hi, howner, hx, htypes x hfinds.field⟩

theorem exists_shown_bareField : ∃ d f t x i,
    bareField.FindsField d f t x (.ofVariable [] [] "int" "n") ∧ bareField.ShowsField f t x i ∧
      t.qualifiedName = "A" ∧ x.name = "n" ∧ x.type = "int" :=
  exists_shown "A" "n" "int" ⟨by decide +kernel, by decide +kernel,
    separate_of_hashless (by decide +kernel), by decide +kernel, by decide +kernel⟩
    (by decide +kernel) (by decide +kernel) (by decide +kernel)

theorem noticesEdits_setField : bareField.parser.Reliable ∧ setField.parser.Reliable ∧
    bareField.NoticesEdits ∧ ∃ d f t x i d' f' t' x' j,
      bareField.FindsField d f t x (.ofVariable [] [] "int" "n") ∧ bareField.ShowsField f t x i ∧
        setField.FindsField d' f' t' x' (.ofVariable [] [] "int" "n = 1") ∧
          setField.ShowsField f' t' x' j ∧
            ∀ ops, (Matching.ofGraphs bareField.graph setField.graph ops).status1 i = .modified := by
  have hnotices := noticesEdits_project bareField reliable_ofSource
  obtain ⟨d, f, t, x, i, hfinds, hi, howner, hname, htype⟩ := exists_shown_bareField
  obtain ⟨d', f', t', x', j, hfinds', hj, howner', hname', htype'⟩ :=
    exists_shown (p := setField) "A" "n" "int" (w := .ofVariable [] [] "int" "n = 1")
      ⟨by decide +kernel, by decide +kernel, separate_of_hashless (by decide +kernel),
        by decide +kernel, by decide +kernel⟩
      (by decide +kernel) (by decide +kernel) (by decide +kernel)
  refine ⟨reliable_ofSource, reliable_ofSource, hnotices, d, f, t, x, i, d', f', t', x', j, hfinds,
    hi, hfinds', hj, fun ops => ?_⟩
  rw [(hnotices.compared setField reliable_ofSource hfinds hfinds' hi hj
    (howner.trans howner'.symm) (hname.trans hname'.symm) (htype.trans htype'.symm) ops).2]
  exact if_neg (by decide)

def NoticesAll (p q : Project) : Prop :=
  ∀ {d d' f f' t t' x x' w w' i j}, p.FindsField d f t x w → q.FindsField d' f' t' x' w' →
    p.ShowsField f t x i → q.ShowsField f' t' x' j → t.qualifiedName = t'.qualifiedName →
    x.name = x'.name → x.type = x'.type → w ≠ w' →
      ∀ ops, (Matching.ofGraphs p.graph q.graph ops).status1 i = .modified

theorem not_noticesAll_markedField : ¬NoticesAll bareField markedField := by
  intro h
  obtain ⟨d, f, t, x, i, hfinds, hi, howner, hname, htype⟩ := exists_shown_bareField
  obtain ⟨d', f', t', x', j, hfinds', hj, howner', hname', htype'⟩ :=
    exists_shown (p := markedField) "A" "n" "int" (w := .ofVariable ["@Deprecated"] [] "int" "n")
      ⟨by decide +kernel, by decide +kernel, separate_of_hashless (by decide +kernel),
        by decide +kernel, by decide +kernel⟩
      (by decide +kernel) (by decide +kernel) (by decide +kernel)
  rw [← howner'] at howner
  rw [← hname'] at hname
  rw [← htype'] at htype
  have hmodified := h hfinds hfinds' hi hj howner hname htype (by decide) []
  have hagree := (agree_iff (hfinds.holds.formed reliable_ofSource)
    (hfinds'.holds.formed reliable_ofSource) hfinds.read hfinds'.read htype).mpr rfl
  rw [(hi.status hj howner hname htype []).2, if_pos hagree] at hmodified
  cases hmodified

end Project

end Lineage.Java
