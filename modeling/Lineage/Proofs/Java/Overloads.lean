import Lineage.Proofs.Java.Kept
import Lineage.Proofs.Java.Records
/-! # Overloads

The methods and constructors of a type go by a name and by the types of their parameters, as they are
written before the parameters' names. Each of them has a node if no two go by the same. Dimensions
after a name, and what is a constructor, do not count. Main statement: `tellsOverloads_project`.
-/
namespace Lineage.Java

open Lineage.Java.TypeName

/-! ## Tails -/

/-- A name and types that can be read back from the tail. -/
structure MethodFacts.Legible (m : MethodFacts) : Prop where
  name : '(' ∉ m.name.toList
  types : ∀ s ∈ m.paramTypes, Solid s ∧ s ≠ ""

def MethodFacts.call (m : MethodFacts) : String × List String := (m.name, m.paramTypes)

theorem MethodFacts.Legible.tail_eq_iff {m m' : MethodFacts} (h : m.Legible) (h' : m'.Legible) :
    m.tail = m'.tail ↔ m.call = m'.call := by
  have htail : ∀ m : MethodFacts, m.tail.toList =
      m.name.toList ++ '(' :: ((Text.join "," m.paramTypes).toList ++ [')']) := by
    intro m
    simp [MethodFacts.tail, String.toList_append]
  constructor
  · intro heq
    have hlist := congrArg String.toList heq
    -- the first bracket of a tail ends the name
    rw [htail, htail] at hlist
    obtain ⟨hname, htypes⟩ := eq_of_append_cons h.name h'.name hlist
    exact Prod.ext (String.toList_inj.mp hname) (join_injective h.types h'.types
      (String.toList_inj.mp (List.append_cancel_right htypes)))
  · intro heq
    rw [← String.toList_inj, htail, htail]
    obtain ⟨hname, htypes⟩ := Prod.ext_iff.mp heq
    exact congrArg₂ _ (congrArg String.toList hname) (congrArg _
      (congrArg (fun types => (Text.join "," types).toList ++ [')']) htypes))

theorem nodup_tails_iff {ms : List MethodFacts} (h : ∀ m ∈ ms, m.Legible) :
    (ms.map (·.tail)).Nodup ↔ (ms.map (·.call)).Nodup := by
  rw [List.Nodup, List.Nodup, List.pairwise_map, List.pairwise_map]
  exact List.Pairwise.iff_of_mem fun hm hm' => ((h _ hm).tail_eq_iff (h _ hm')).not

/-! ## Types that are written plainly -/

theorem solid_of_isSpelling {s : String} (h : ∀ c ∈ s.toList, isSpelling c = true) : Solid s := by
  refine Mode.spans_code fun c hc => ?_
  have hspelling := h c hc
  constructor <;> rintro rfl <;> revert hspelling <;> decide

namespace Tree

theorem TypeLike.erase_text {c : Tree} (h : c.TypeLike) (hu : c.Unadorned) :
    TypeName.erase c.text = c.erased := by
  rw [erase_of_erases (h.spelled hu).1, String.ofList_toList]

theorem TypeLike.solid_erased {c : Tree} (h : c.TypeLike) (hu : c.Unadorned) :
    Solid c.erased ∧ c.erased ≠ "" := ⟨solid_of_isSpelling (h.spelled hu).2, h.nonempty⟩

theorem typeLike_of_mem_typesOf {p c : Tree} (hp : p.Formed) (hc : c ∈ p.typesOf)
    (hu : c.Unadorned) : c.TypeLike := by
  unfold typesOf at hc
  split at hc
  · rename_i hk
    exact hp.typeLike (by rw [hk]; rfl) (Option.mem_toList.mp hc)
  · rename_i hk
    obtain ⟨hnamed, hkind⟩ := List.mem_filter.mp hc
    obtain ⟨hmem, hword⟩ := List.mem_filter.mp hnamed
    refine hp.spread hk c hmem ?_
    have hcomment := hu.self.comment
    have hannotation := hu.self.annotation
    revert hkind hword hcomment hannotation
    cases c.kind <;> simp [Kind.isBeside, Kind.isComment, Extract.isAnnotationKind]
  · cases hc

/-- No comments and no annotations stand inside of the parameters' types. -/
def TakesPlain (u : Tree) : Prop := ∀ p ∈ u.parameters, ∀ c ∈ p.typesOf, c.Unadorned

/-- The types of the parameters, as they are written before the names. -/
def writtenTypes (u : Tree) : List String :=
  u.parameters.flatMap fun p => p.typesOf.map fun c => c.erased ++ p.dots

section Written
variable {u : Tree} (hf : u.All Formed) (hu : u.TakesPlain)
include hf hu

theorem typeLike_of_mem_parameters {p c : Tree} (hp : p ∈ u.parameters) (hc : c ∈ p.typesOf) :
    c.TypeLike := typeLike_of_mem_typesOf (hf.parameters p hp).self hc (hu p hp c hc)

theorem flatMap_paramTypes : u.parameters.flatMap Extract.paramTypes = u.writtenTypes := by
  refine List.flatMap_congr fun p hp => ?_
  rw [paramTypes_eq]
  refine List.map_congr_left fun c hc => ?_
  rw [(typeLike_of_mem_parameters hf hu hp hc).erase_text (hu p hp c hc)]

theorem solid_of_mem_writtenTypes : ∀ s ∈ u.writtenTypes, Solid s ∧ s ≠ "" := by
  intro s hs
  obtain ⟨p, hp, hs⟩ := List.mem_flatMap.mp hs
  obtain ⟨c, hc, rfl⟩ := List.mem_map.mp hs
  obtain ⟨hsolid, hne⟩ := (typeLike_of_mem_parameters hf hu hp hc).solid_erased (hu p hp c hc)
  have hdots : Solid p.dots := by
    unfold dots
    split
    · exact ⟨by decide, by decide⟩
    · exact .nil _
  exact ⟨hsolid.append hdots, fun he => hne (String.append_eq_empty_iff.mp he).1⟩

end Written

/-- No comments and no annotations stand inside of the types of parameters and fields. -/
structure Plain (d : Tree) : Prop where
  header : d.TakesPlain
  methods : ∀ q ∈ d.members, q.tree.kind.isCallable → q.tree.TakesPlain
  fields : ∀ q ∈ d.members, q.tree.kind.isVariables → ∀ c, q.tree.child? .type = some c →
    c.Unadorned

end Tree

/-! ## What members go by -/

section Fields
variable {d : Tree}

theorem solid_of_toldBy {x : FieldFacts} {u : Tree} (hu : u.Formed)
    (hk : u.kind.isDeclaration = true) (hx : x.ToldBy u)
    (hplain : ∀ c, u.child? .type = some c → c.Unadorned) :
    Solid (TypeName.erase x.type) ∧ TypeName.erase x.type ≠ "" := by
  obtain ⟨c, hc, htype⟩ := hx.exists_type
  have hlike := hu.typeLike hk hc
  rw [htype, erase_withoutBlanks, hlike.erase_text (hplain c hc)]
  exact hlike.solid_erased (hplain c hc)

theorem solid_components (hf : d.All Tree.Formed) (hplain : d.TakesPlain) :
    ∀ x ∈ d.components, Solid (TypeName.erase x.type) ∧ TypeName.erase x.type ≠ "" := by
  intro x hx
  obtain ⟨p, hp, hk, htold⟩ := exists_parameter_of_mem_components hx
  refine solid_of_toldBy (hf.parameters p hp).self (by rw [hk]; rfl) htold fun c hc =>
    hplain p hp c ?_
  rw [Tree.typesOf, hk]
  exact Option.mem_toList.mpr hc

theorem solid_fieldsOf {ms : List Placed} (hf : ∀ q ∈ ms, q.tree.Formed)
    (hplain : ∀ q ∈ ms, q.tree.kind.isVariables → ∀ c, q.tree.child? .type = some c →
      c.Unadorned) : ∀ x ∈ Extract.fieldsOf ms,
      Solid (TypeName.erase x.type) ∧ TypeName.erase x.type ≠ "" := by
  intro x hx
  obtain ⟨q, hq, hk, htold⟩ := exists_member_of_mem_fieldsOf hx
  exact solid_of_toldBy (hf q hq) (isDeclaration_of_isVariables hk) htold (hplain q hq hk)

end Fields

namespace Extract

theorem paramTypes_method {t : Tree} (hk : t.kind ≠ .compactConstructorDeclaration)
    (before : List Tree) (ownerName : String) (found : List FieldFacts) :
    (method before ownerName found t).paramTypes = t.parameters.flatMap paramTypes := if_neg hk

theorem paramTypes_compact {t : Tree} (hk : t.kind = .compactConstructorDeclaration)
    (before : List Tree) (ownerName : String) (found : List FieldFacts) :
    (method before ownerName found t).paramTypes = found.map fun x => TypeName.erase x.type :=
  if_pos hk

end Extract

section Methods
variable {d : Tree} {t : TypeFacts} (h : t.Reflects d) (hf : d.All Tree.Formed)
include h hf

theorem legible_of_plain (hplain : d.Plain) : ∀ m ∈ t.methods, m.Legible := by
  have hd : d.kind.isDeclaration = true := isDeclaration_of_ofKind? (by rw [h.kind]; rfl)
  intro m hm
  rw [h.methods] at hm
  obtain ⟨init, q, rest, hsplit, hc, rfl⟩ := Extract.mem_methodsOf_iff.mp hm
  have hinit : ∀ q' ∈ init, q' ∈ d.members := fun q' hq' => hsplit ▸ List.mem_append_left _ hq'
  have hq : q ∈ d.members := hsplit ▸ List.mem_append_cons_self
  refine ⟨not_mem_of_isWord ?_ (by decide), ?_⟩
  · change IsWord ((Extract.nameOf? q.tree).getD t.name)
    cases hname : Extract.nameOf? q.tree with
    | none => exact isWord_of_nameOf? hf.self hd h.name
    | some name =>
      exact isWord_of_nameOf? (hf.members q hq).self (isDeclaration_of_isCallable hc) hname
  · by_cases hk : q.tree.kind = .compactConstructorDeclaration
    · rw [Extract.paramTypes_compact hk]
      intro s hs
      obtain ⟨x, hx, rfl⟩ := List.mem_map.mp hs
      rcases List.mem_append.mp hx with hx | hx
      · exact solid_components hf hplain.header x hx
      · exact solid_fieldsOf (fun q' hq' => (hf.members q' (hinit q' hq')).self)
          (fun q' hq' => hplain.fields q' (hinit q' hq')) x hx
    · rw [Extract.paramTypes_method hk, Tree.flatMap_paramTypes (hf.members q hq)
        (hplain.methods q hq hc)]
      exact Tree.solid_of_mem_writtenTypes (hf.members q hq) (hplain.methods q hq hc)

theorem distinctTails_iff_of_plain (hplain : d.Plain) :
    Assembly.distinctTails t.methods = t.methods ↔ (t.methods.map (·.call)).Nodup :=
  (distinctTails_eq_self_iff t.methods).trans (nodup_tails_iff (legible_of_plain h hf hplain))

end Methods

/-! ## Members side by side -/

/-- What tells the members of a type apart in the language. -/
@[ext]
structure Signature where
  isConstructor : Bool
  name : String
  types : List String
  deriving DecidableEq

def MethodFacts.signature (m : MethodFacts) : Signature := ⟨m.isConstructor, m.name, m.paramTypes⟩

namespace Tree

/-- The dimensions after a parameter's name. -/
def dimensionsAfter (p : Tree) : String :=
  ((p.children.find? (·.kind = .dimensions)).map erased).getD ""

def fullTypes (u : Tree) : List String :=
  u.parameters.flatMap fun p => p.typesOf.map fun c => c.erased ++ p.dimensionsAfter ++ p.dots

/-- A constructor without parameters of its own has those of its record. Types go by their names,
also where these are variables. -/
def signature (d q : Tree) : Signature where
  isConstructor := q.kind ≠ .methodDeclaration
  name := (Extract.nameOf? q).getD ((Extract.nameOf? d).getD "")
  types :=
    if q.kind = .compactConstructorDeclaration then d.headerOf.map Component.erased
    else q.fullTypes

/-- No two methods, and no two constructors, have one name and the same types. -/
def SideBySide (d : Tree) : Prop := (d.callables.map fun q => d.signature q.tree).Nodup

instance (d : Tree) : Decidable d.SideBySide := inferInstanceAs (Decidable (List.Nodup _))

/-- No dimensions follow a parameter's name, no method has the name of a constructor, and every
constructor without parameters of its own finds the header of its record. -/
structure Ordinary (d : Tree) : Prop where
  plain : d.Plain
  dimensions : ∀ q ∈ d.callables, ∀ p ∈ q.tree.parameters, p.dimensionsAfter = ""
  names : ∀ q ∈ d.callables, ∀ q' ∈ d.callables,
    (d.signature q.tree).name = (d.signature q'.tree).name →
      (d.signature q.tree).isConstructor = (d.signature q'.tree).isConstructor
  header : ∀ q ∈ d.callables, q.tree.kind = .compactConstructorDeclaration →
    d.kind = .recordDeclaration ∧ d.IsSettled

theorem fullTypes_eq {u : Tree} (h : ∀ p ∈ u.parameters, p.dimensionsAfter = "") :
    u.fullTypes = u.writtenTypes := by
  refine List.flatMap_congr fun p hp => List.map_congr_left fun c _ => ?_
  rw [h p hp, String.append_empty]

end Tree

section SideBySide
variable {d : Tree} {t : TypeFacts} (h : t.Reflects d) (hf : d.All Tree.Formed)
include h hf

theorem map_signature_methods (hd : d.Ordinary) :
    t.methods.map (·.signature) = d.callables.map fun q => d.signature q.tree := by
  have hall : List.Forall₂ (fun q m => d.signature q.tree = m.signature) d.callables t.methods := by
    refine h.forall₂_methods_iff.mpr fun init q rest hsplit hc => ?_
    have hmem : q ∈ d.members := hsplit ▸ List.mem_append_cons_self
    have hq : q ∈ d.callables := List.mem_filter.mpr ⟨hmem, hc⟩
    have hname : (d.signature q.tree).name = (Extract.nameOf? q.tree).getD t.name := by
      rw [Tree.signature, h.name]
      rfl
    have htypes : (d.signature q.tree).types =
        (Extract.method q.before t.name (d.components ++ Extract.fieldsOf init)
          q.tree).paramTypes := by
      by_cases hk : q.tree.kind = .compactConstructorDeclaration
      · -- the fields found before it are those of the header alone
        obtain ⟨hrecord, hsettled⟩ := hd.header q hq hk
        have hconstructors := ((keepsHeader_iff h hrecord hf).mpr hsettled).constructors
        rw [h.forall₂_methods_iff] at hconstructors
        rw [hconstructors init q rest hsplit hc hk, Tree.signature, if_pos hk]
      · rw [Extract.paramTypes_method hk, Tree.flatMap_paramTypes (hf.members q hmem)
          (hd.plain.methods q hmem hc), ← Tree.fullTypes_eq (hd.dimensions q hq), Tree.signature,
          if_neg hk]
    exact congrArg₂ (Signature.mk _) hname htypes
  have heq : List.Forall₂ (· = ·) (d.callables.map fun q => d.signature q.tree)
      (t.methods.map (·.signature)) :=
    List.forall₂_map_left_iff.mpr (List.forall₂_map_right_iff.mpr hall)
  exact (List.forall₂_eq_eq_eq ▸ heq).symm

theorem nodup_calls_iff (hd : d.Ordinary) : (t.methods.map (·.call)).Nodup ↔ d.SideBySide := by
  have hsignatures := map_signature_methods h hf hd
  have hcalls : t.methods.map (·.call) =
      (d.callables.map fun q => d.signature q.tree).map fun s => (s.name, s.types) := by
    rw [← hsignatures, List.map_map]
    rfl
  rw [hcalls]
  constructor
  · exact List.Nodup.of_map _
  · intro hnodup
    refine List.Nodup.map_on ?_ hnodup
    intro s hs s' hs' heq
    obtain ⟨q, hq, rfl⟩ := List.mem_map.mp hs
    obtain ⟨q', hq', rfl⟩ := List.mem_map.mp hs'
    obtain ⟨hname, htypes⟩ := Prod.mk.inj heq
    exact Signature.ext (hd.names q hq q' hq' hname) hname htypes

end SideBySide

namespace Project

def methodNodes (p : Project) : List Node := (written p.graph.nodes).filter (·.kind = .method)

def distinctMethods (p : Project) : List Node :=
  p.files.flatMap fun f => f.types.flatMap fun t =>
    (Assembly.distinctTails t.methods).map (Assembly.methodNode f.path t)

/-- Methods and constructors that the language takes side by side all have nodes. -/
def KeepsOverloads (p : Project) : Prop :=
  ∀ d f t, p.Holds d f → t ∈ f.types → t.Reflects d → d.SideBySide →
    (t.methods.map (Assembly.methodNode f.path t)).Sublist p.methodNodes

/-- Which methods and constructors have nodes. -/
structure TellsOverloads (p : Project) : Prop where
  found : ∀ d f, p.Holds d f → ∃ t ∈ f.types, t.Reflects d
  methods : p.methodNodes = p.distinctMethods
  reads : ∀ d f t, p.Holds d f → t ∈ f.types → t.Reflects d → d.Plain →
    List.Forall₂ (fun q m => m.name = (d.signature q.tree).name ∧
        (q.tree.kind ≠ .compactConstructorDeclaration → m.paramTypes = q.tree.writtenTypes))
      d.callables t.methods
  distinct_iff : ∀ d f t, p.Holds d f → t ∈ f.types → t.Reflects d → d.Plain →
    (Assembly.distinctTails t.methods = t.methods ↔ (t.methods.map (·.call)).Nodup)
  ordinary : ∀ d f t, p.Holds d f → t ∈ f.types → t.Reflects d → d.Ordinary → d.SideBySide →
    (t.methods.map (Assembly.methodNode f.path t)).Sublist p.methodNodes

theorem methodNodes_eq {p : Project} (hnames : (fullNames p.files).Nodup) :
    p.methodNodes = p.distinctMethods := by
  rw [methodNodes, graph, written_graph p.name hnames p.outerFirst_files, filter_method_kept,
    distinctMethods]

theorem sublist_methodNodes {p : Project} (hnames : (fullNames p.files).Nodup) {f : FileFacts}
    {t : TypeFacts} (hf : f ∈ p.files) (ht : t ∈ f.types)
    (hkept : Assembly.distinctTails t.methods = t.methods) :
    (t.methods.map (Assembly.methodNode f.path t)).Sublist p.methodNodes := by
  have hfile : (f.types.flatMap fun t => (Assembly.distinctTails t.methods).map
      (Assembly.methodNode f.path t)) <:+: p.methodNodes := by
    rw [methodNodes_eq hnames]
    exact List.infix_of_mem_flatten (List.mem_map_of_mem hf)
  have htype : (Assembly.distinctTails t.methods).map (Assembly.methodNode f.path t) <:+:
      f.types.flatMap fun t => (Assembly.distinctTails t.methods).map
        (Assembly.methodNode f.path t) := List.infix_of_mem_flatten (List.mem_map_of_mem ht)
  rw [hkept] at htype
  exact (htype.trans hfile).sublist

theorem tellsOverloads_project (p : Project) (hparser : p.parser.Reliable)
    (hnames : (fullNames p.files).Nodup) : p.TellsOverloads where
  found _ _ h := h.exists_type
  methods := methodNodes_eq hnames
  reads d f t h _ htold hplain := by
    refine htold.forall₂_methods_iff.mpr fun init q rest hsplit hc => ⟨?_, fun hk => ?_⟩
    · rw [Tree.signature, htold.name]
      rfl
    · have hq : q ∈ d.members := hsplit ▸ List.mem_append_cons_self
      rw [Extract.paramTypes_method hk]
      exact Tree.flatMap_paramTypes ((h.formed hparser).members q hq) (hplain.methods q hq hc)
  distinct_iff _ _ _ h _ htold hplain :=
    distinctTails_iff_of_plain htold (h.formed hparser) hplain
  ordinary _ _ _ h ht htold hd hside :=
    have hformed := h.formed hparser
    sublist_methodNodes hnames h.mem_files ht ((distinctTails_iff_of_plain htold hformed
      hd.plain).mpr ((nodup_calls_iff htold hformed hd).mpr hside))

def sideBySide : Project :=
  ⟨Tree.ofSource?, "app", [("A.java", "class A \x7b A() \x7b\x7d A(int a) \x7b\x7d " ++
    "void f(int a) \x7b\x7d void f(int[] a) \x7b\x7d void f(String... a) \x7b\x7d \x7d")]⟩

theorem tellsOverloads_sideBySide :
    sideBySide.parser.Reliable ∧ (fullNames sideBySide.files).Nodup ∧
    sideBySide.TellsOverloads ∧ sideBySide.methodNodes.length = 5 := by
  have hread : (fullNames sideBySide.files).Nodup ∧ sideBySide.distinctMethods.length = 5 := by
    decide +kernel
  have htells := tellsOverloads_project sideBySide reliable_ofSource hread.1
  exact ⟨reliable_ofSource, hread.1, htells, (congrArg List.length htells.methods).trans hread.2⟩

/-- A class with a parameter whose dimensions follow its name. -/
def dimensionsLast : Project :=
  ⟨Tree.ofSource?, "app",
    [("A.java", "class A \x7b void f(int a) \x7b\x7d void f(int a[]) \x7b\x7d \x7d")]⟩

def methodNamedAsType : Project :=
  ⟨Tree.ofSource?, "app", [("A.java", "class A \x7b A() \x7b\x7d void A() \x7b\x7d \x7d")]⟩

theorem not_keepsOverloads_dimensionsLast :
    ¬dimensionsLast.KeepsOverloads ∧ ¬methodNamedAsType.KeepsOverloads := by
  have hmany : ∀ {p : Project} {s unit d}, s ∈ p.sources → p.parser s.2 = some unit →
      d ∈ unit.children → d.IsType → d.SideBySide → (fullNames p.files).Nodup →
        p.KeepsOverloads → d.callables.length ≤ p.distinctMethods.length := by
    intro p s unit d hs hunit hd htype hside hnames hkeeps
    have hholds : p.Holds d _ := ⟨s, hs, unit, hunit, .here hd htype, rfl⟩
    obtain ⟨t, ht, htold⟩ := hholds.exists_type
    have hlength : d.callables.length = t.methods.length :=
      (htold.forall₂_methods_iff (R := fun _ _ => True).mpr fun _ _ _ _ _ => trivial).length_eq
    rw [hlength, ← methodNodes_eq hnames, ← List.length_map]
    exact (hkeeps d _ t hholds ht htold hside).length_le
  constructor
  · intro h
    obtain ⟨s, hs, unit, hunit, d, hd, htype, hside, hnames, hlost⟩ :
        ∃ s ∈ dimensionsLast.sources, ∃ unit ∈ dimensionsLast.parser s.2, ∃ d ∈ unit.children,
          d.IsType ∧ d.SideBySide ∧ (fullNames dimensionsLast.files).Nodup ∧
            dimensionsLast.distinctMethods.length < d.callables.length := by
      decide +kernel
    exact absurd (hmany hs hunit hd htype hside hnames h) (Nat.not_le.mpr hlost)
  · intro h
    obtain ⟨s, hs, unit, hunit, d, hd, htype, hside, hnames, hlost⟩ :
        ∃ s ∈ methodNamedAsType.sources, ∃ unit ∈ methodNamedAsType.parser s.2, ∃ d ∈ unit.children,
          d.IsType ∧ d.SideBySide ∧ (fullNames methodNamedAsType.files).Nodup ∧
            methodNamedAsType.distinctMethods.length < d.callables.length := by
      decide +kernel
    exact absurd (hmany hs hunit hd htype hside hnames h) (Nat.not_le.mpr hlost)

end Project

end Lineage.Java
