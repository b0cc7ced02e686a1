import Lineage.Proofs.Java.Parameters
/-! # Headers of records

A record has a field for each component in its header whose number is fixed, before the fields of its
body. A constructor without parameters of its own takes the fields that are found before it, so it has
the header's types if no component varies in number and no field is declared before it. Main
statement: `readsHeaders_project`.
-/
namespace Lineage.Java

/-- A component in the header of a record. -/
structure Component where
  name : String
  type : String
  erased : String
  /-- Whether any number of values is taken. -/
  varies : Bool
  deriving DecidableEq

namespace Tree

def component? (p : Tree) : Option Component := do
  let name ← (Extract.paramNames p).head?
  let type ← p.typesOf.head?
  return ⟨name, TypeName.withoutBlanks type.text ++ p.dots, TypeName.erase type.text ++ p.dots,
    p.kind = .spreadParameter⟩

/-- The components that a record declares, those that vary in number included. -/
def headerOf (d : Tree) : List Component := d.parameters.filterMap component?

end Tree

namespace Tree

def fixedOf (d : Tree) : List Component := d.headerOf.filter (!·.varies)

/-- The types of all fields that are found in a record before what follows some of its members. -/
def typesBefore (d : Tree) (init : List Placed) : List String :=
  d.fixedOf.map Component.erased ++
    (Extract.fieldsOf init).map fun x => TypeName.erase x.type

end Tree

def FieldFacts.written (x : FieldFacts) : String × String := (x.name, x.type)

def Component.written (c : Component) : String × String := (c.name, c.type)

/-- The fields of a record begin with its header, and each constructor that has no parameters of its
own takes the header's types. -/
structure TypeFacts.KeepsHeader (t : TypeFacts) (d : Tree) : Prop where
  fields : d.headerOf.map Component.written <+: t.fields.map FieldFacts.written
  constructors : List.Forall₂ (fun q m => q.tree.kind = .compactConstructorDeclaration →
      m.paramTypes = d.headerOf.map Component.erased)
    d.callables t.methods

/-- No component varies in number, and no field stands before a constructor without parameters. -/
structure Tree.IsSettled (d : Tree) : Prop where
  fixed : ∀ c ∈ d.headerOf, c.varies = false
  first : d.members.Pairwise fun q q' =>
    q'.tree.kind = .compactConstructorDeclaration → Extract.fieldsIn q = []

/-! ## Components and fields -/

/-- A component of a fixed number is a field, and no other parameter is one. -/
theorem recordComponent?_eq (p : Tree) :
    (Extract.recordComponent? p).map (fun x => (x.written, TypeName.erase x.type)) =
      (p.component?.filter (!·.varies)).map fun c => (c.written, c.erased) := by
  by_cases hformal : p.kind = .formalParameter
  · have hnames : (Extract.paramNames p).head? = (p.child? .name).map Tree.text := by
      simp only [Extract.paramNames, hformal, Extract.nameOf?]
      cases p.child? .name <;> rfl
    have htypes : p.typesOf.head? = p.child? .type := by
      simp only [Tree.typesOf, hformal]
      cases p.child? .type <;> rfl
    rw [Tree.component?, hnames, htypes, Extract.recordComponent?]
    cases p.child? .name <;> cases p.child? .type <;>
      simp [hformal, Tree.dots, FieldFacts.written, Component.written,
        TypeName.erase_withoutBlanks]
  · have hnone : Extract.recordComponent? p = none := by simp [Extract.recordComponent?, hformal]
    rw [hnone]
    by_cases hspread : p.kind = .spreadParameter
    · cases hc : p.component? with
      | none => rfl
      | some c =>
        simp only [Tree.component?, hspread, Option.bind_eq_bind, Option.bind_eq_some_iff] at hc
        obtain ⟨name, -, type, -, hc⟩ := hc
        cases hc
        simp
    · have htypes : p.typesOf = [] := by
        unfold Tree.typesOf
        split <;> simp_all
      simp [Tree.component?, htypes]

section Header
variable {d : Tree}

theorem map_components (hd : d.kind = .recordDeclaration) :
    d.components.map (fun x => (x.written, TypeName.erase x.type)) =
      d.fixedOf.map fun c => (c.written, c.erased) := by
  rw [Tree.components, if_pos hd, Tree.fixedOf, Tree.headerOf, List.map_filterMap,
    List.filter_filterMap, List.map_filterMap]
  exact congrArg (fun f => d.parameters.filterMap f) (funext recordComponent?_eq)

theorem written_components (hd : d.kind = .recordDeclaration) :
    d.components.map FieldFacts.written =
      d.fixedOf.map Component.written := by
  have hmap := congrArg (List.map Prod.fst) (map_components hd)
  rw [List.map_map, List.map_map] at hmap
  exact hmap

theorem erased_components (hd : d.kind = .recordDeclaration) :
    d.components.map (fun x => TypeName.erase x.type) =
      d.fixedOf.map Component.erased := by
  have hmap := congrArg (List.map Prod.snd) (map_components hd)
  rw [List.map_map, List.map_map] at hmap
  exact hmap

theorem not_closed_of_varies {c : Component} (hc : c ∈ d.headerOf) (hv : c.varies = true) :
    ¬Closed c.type := by
  obtain ⟨p, -, hp⟩ := List.mem_filterMap.mp hc
  simp only [Tree.component?, Option.bind_eq_bind, Option.bind_eq_some_iff] at hp
  obtain ⟨name, -, type, -, hp⟩ := hp
  cases hp
  have hspread : p.kind = .spreadParameter := of_decide_eq_true hv
  rw [Tree.dots, if_pos hspread]
  exact not_closed_dots _

theorem FieldFacts.ToldBy.exists_type {x : FieldFacts} {u : Tree} (h : x.ToldBy u) :
    ∃ type, u.child? .type = some type ∧ x.type = TypeName.withoutBlanks type.text := by
  cases h with
  | component htype _ hx => exact ⟨_, htype, hx.1⟩
  | declarator htype _ _ _ hx => exact ⟨_, htype, hx.1⟩

theorem exists_parameter_of_mem_components {x : FieldFacts} (hx : x ∈ d.components) :
    ∃ p ∈ d.parameters, p.kind = .formalParameter ∧ x.ToldBy p := by
  unfold Tree.components at hx
  split at hx
  · obtain ⟨p, hp, hx⟩ := List.mem_filterMap.mp hx
    refine ⟨p, hp, ?_, Extract.toldBy_of_recordComponent? hx⟩
    obtain ⟨u, hformal, -⟩ := Option.bind_eq_some_iff.mp hx
    simpa using hformal
  · cases hx

theorem exists_member_of_mem_fieldsOf {ms : List Placed} {x : FieldFacts}
    (hx : x ∈ Extract.fieldsOf ms) : ∃ q ∈ ms, q.tree.kind.isVariables ∧ x.ToldBy q.tree := by
  obtain ⟨q, hq, hx⟩ := List.mem_flatMap.mp hx
  unfold Extract.fieldsIn at hx
  split at hx
  · rename_i hk
    exact ⟨q, hq, hk, Extract.toldBy_of_mem_fields hx⟩
  · cases hx

theorem closed_of_toldBy {x : FieldFacts} {u : Tree} (hu : u.Formed)
    (hk : u.kind.isDeclaration = true) (h : x.ToldBy u) : Closed x.type := by
  obtain ⟨type, htype, hx⟩ := h.exists_type
  rw [hx]
  exact (hu.typeLike hk htype).closed.withoutBlanks

theorem closed_components (h : d.All Tree.Formed) : ∀ x ∈ d.components, Closed x.type := by
  intro x hx
  obtain ⟨p, hp, hk, htold⟩ := exists_parameter_of_mem_components hx
  exact closed_of_toldBy (h.parameters p hp).self (by rw [hk]; rfl) htold

theorem closed_fieldsOf (h : d.All Tree.Formed) :
    ∀ x ∈ Extract.fieldsOf d.members, Closed x.type := by
  intro x hx
  obtain ⟨q, hq, hk, htold⟩ := exists_member_of_mem_fieldsOf hx
  exact closed_of_toldBy (h.members q hq).self (isDeclaration_of_isVariables hk) htold

end Header

/-! ## Records -/

theorem pairwise_fieldsIn_iff {P : Placed → Prop} {ms : List Placed} :
    (ms.Pairwise fun q q' => P q' → Extract.fieldsIn q = []) ↔
      ∀ init q rest, ms = init ++ q :: rest → P q → Extract.fieldsOf init = [] := by
  constructor
  · rintro h init q rest rfl hq
    refine List.flatMap_eq_nil_iff.mpr fun q' hq' => ?_
    exact (List.pairwise_append.mp h).2.2 q' hq' q List.mem_cons_self hq
  · intro h
    induction ms with
    | nil => exact .nil
    | cons q ms ih =>
      have hcons : ∀ {init q' rest}, ms = init ++ q' :: rest → P q' →
          Extract.fieldsIn q = [] ∧ Extract.fieldsOf init = [] := fun hsplit hq' =>
        List.append_eq_nil_iff.mp (h (q :: _) _ _ (congrArg _ hsplit) hq')
      refine List.pairwise_cons.mpr ⟨fun q' hmem hq' => ?_, ih fun _ _ _ hsplit hq' =>
        (hcons hsplit hq').2⟩
      obtain ⟨init, rest, hsplit⟩ := List.append_of_mem hmem
      exact (hcons hsplit hq').1

section Records
variable {d : Tree} {t : TypeFacts} (h : t.Reflects d) (hd : d.kind = .recordDeclaration)
include h hd

theorem written_fields : t.fields.map FieldFacts.written =
    d.fixedOf.map Component.written ++
      (Extract.fieldsOf d.members).map FieldFacts.written := by
  rw [h.fields, List.map_append, written_components hd]

theorem constructors_iff {R : Placed → List String → Prop} :
    List.Forall₂ (fun q m => q.tree.kind = .compactConstructorDeclaration → R q m.paramTypes)
        d.callables t.methods ↔
      ∀ init q rest, d.members = init ++ q :: rest →
        q.tree.kind = .compactConstructorDeclaration → R q (d.typesBefore init) := by
  rw [h.forall₂_methods_iff]
  refine forall_congr' fun init => forall_congr' fun q => forall_congr' fun rest =>
    forall_congr' fun _ => ?_
  constructor
  · intro hall hk
    have hparams := hall (by rw [hk]; rfl) hk
    rwa [Extract.method, if_pos hk, List.map_append, erased_components hd] at hparams
  · intro hall _ hk
    rw [Extract.method, if_pos hk, List.map_append, erased_components hd]
    exact hall hk

theorem keepsHeader_iff (hf : d.All Tree.Formed) : t.KeepsHeader d ↔ d.IsSettled := by
  constructor
  · intro hkeeps
    have hfixed : ∀ c ∈ d.headerOf, c.varies = false := by
      intro c hc
      by_contra hv
      rw [Bool.not_eq_false] at hv
      -- its type would be the type of a field, but it ends in dots
      obtain ⟨x, hx, he⟩ := List.mem_map.mp (hkeeps.fields.subset (List.mem_map_of_mem hc))
      have htype : x.type = c.type := congrArg Prod.snd he
      refine not_closed_of_varies hc hv (htype ▸ ?_)
      rw [h.fields] at hx
      exact (List.mem_append.mp hx).elim (closed_components hf x) (closed_fieldsOf hf x)
    refine ⟨hfixed, pairwise_fieldsIn_iff.mpr fun init q rest hsplit hk => ?_⟩
    have hfilter : d.fixedOf = d.headerOf :=
      List.filter_eq_self.mpr fun c hc => by simp [hfixed c hc]
    have hparams := (constructors_iff (R := fun _ types => types = d.headerOf.map Component.erased)
      h hd).mp hkeeps.constructors init q rest hsplit hk
    rw [Tree.typesBefore, hfilter, List.append_right_eq_self] at hparams
    simpa using hparams
  · rintro ⟨hfixed, hfirst⟩
    have hfilter : d.fixedOf = d.headerOf :=
      List.filter_eq_self.mpr fun c hc => by simp [hfixed c hc]
    refine ⟨?_, (constructors_iff (R := fun _ types => types = d.headerOf.map Component.erased)
      h hd).mpr fun init q rest hsplit hk => ?_⟩
    · rw [written_fields h hd, hfilter]
      exact List.prefix_append _ _
    · rw [Tree.typesBefore, hfilter, pairwise_fieldsIn_iff.mp hfirst init q rest hsplit hk,
        List.map_nil, List.append_nil]

end Records

namespace Project

def KeepsHeaders (p : Project) : Prop :=
  ∀ d f t, p.Holds d f → t ∈ f.types → t.Reflects d → d.kind = .recordDeclaration → t.KeepsHeader d

/-- What is read of the header of a record, and when that is the whole header. -/
structure ReadsHeaders (p : Project) : Prop where
  found : ∀ d f, p.Holds d f → ∃ t ∈ f.types, t.Reflects d
  fields : ∀ d f t, p.Holds d f → t ∈ f.types → t.Reflects d → d.kind = .recordDeclaration →
    t.fields.map FieldFacts.written =
      d.fixedOf.map Component.written ++ (Extract.fieldsOf d.members).map FieldFacts.written
  constructors : ∀ d f t, p.Holds d f → t ∈ f.types → t.Reflects d → d.kind = .recordDeclaration →
    List.Forall₂ (fun q m => q.tree.kind = .compactConstructorDeclaration →
        ∃ init rest, d.members = init ++ q :: rest ∧ m.paramTypes = d.typesBefore init)
      d.callables t.methods
  keeps_iff : ∀ d f t, p.Holds d f → t ∈ f.types → t.Reflects d → d.kind = .recordDeclaration →
    (t.KeepsHeader d ↔ d.IsSettled)

theorem readsHeaders_project (p : Project) (hparser : p.parser.Reliable) : p.ReadsHeaders where
  found _ _ h := h.exists_type
  fields _ _ _ _ _ htold hd := written_fields htold hd
  constructors d _ _ _ _ htold hd :=
    (constructors_iff (R := fun q types => ∃ init rest, d.members = init ++ q :: rest ∧
      types = d.typesBefore init) htold hd).mpr fun init _ rest hsplit _ => ⟨init, rest, hsplit, rfl⟩
  keeps_iff _ _ _ h _ htold hd := keepsHeader_iff htold hd (h.formed hparser)

def fieldLast : Project :=
  ⟨Tree.ofSource?, "app",
    [("P.java", "record P(int x, String y) \x7b P \x7b check(x); \x7d static int n; \x7d")]⟩

theorem readsHeaders_fieldLast : fieldLast.parser.Reliable ∧ fieldLast.ReadsHeaders ∧
    ∃ d f t, fieldLast.Holds d f ∧ t ∈ f.types ∧ t.Reflects d ∧ d.kind = .recordDeclaration ∧
      d.headerOf.length = 2 ∧ t.KeepsHeader d := by
  have hreads := readsHeaders_project fieldLast reliable_ofSource
  obtain ⟨s, hs, unit, hunit, d, hd, htype, hk, hlength, hfixed, hfirst⟩ :
      ∃ s ∈ fieldLast.sources, ∃ unit ∈ fieldLast.parser s.2, ∃ d ∈ unit.children,
        d.IsType ∧ d.kind = .recordDeclaration ∧ d.headerOf.length = 2 ∧
          (∀ c ∈ d.headerOf, c.varies = false) ∧ d.members.Pairwise fun q q' =>
            q'.tree.kind = .compactConstructorDeclaration → Extract.fieldsIn q = [] := by
    decide +kernel
  have hholds : fieldLast.Holds d _ := ⟨s, hs, unit, hunit, .here hd htype, rfl⟩
  obtain ⟨t, ht, htold⟩ := hreads.found d _ hholds
  exact ⟨reliable_ofSource, hreads, d, _, t, hholds, ht, htold, hk, hlength,
    (hreads.keeps_iff d _ t hholds ht htold hk).mpr ⟨hfixed, hfirst⟩⟩

def variableComponent : Project :=
  ⟨Tree.ofSource?, "app",
    [("P.java", "record P(int x, String... rest) \x7b P \x7b check(x); \x7d \x7d")]⟩

def fieldFirst : Project :=
  ⟨Tree.ofSource?, "app",
    [("P.java", "record P(int x) \x7b static int n; P \x7b check(x); \x7d \x7d")]⟩

theorem not_keepsHeaders_variableComponent :
    ¬variableComponent.KeepsHeaders ∧ ¬fieldFirst.KeepsHeaders := by
  have hsettled : ∀ {p : Project} {s unit d}, p.parser.Reliable → s ∈ p.sources →
      p.parser s.2 = some unit → d ∈ unit.children → d.IsType → d.kind = .recordDeclaration →
        p.KeepsHeaders → d.IsSettled := by
    intro p s unit d hparser hs hunit hd htype hk hkeeps
    have hholds : p.Holds d _ := ⟨s, hs, unit, hunit, .here hd htype, rfl⟩
    obtain ⟨t, ht, htold⟩ := hholds.exists_type
    exact (keepsHeader_iff htold hk (hholds.formed hparser)).mp (hkeeps d _ t hholds ht htold hk)
  constructor
  · intro h
    obtain ⟨s, hs, unit, hunit, d, hd, htype, hk, c, hc, hv⟩ :
        ∃ s ∈ variableComponent.sources, ∃ unit ∈ variableComponent.parser s.2, ∃ d ∈ unit.children,
          d.IsType ∧ d.kind = .recordDeclaration ∧ ∃ c ∈ d.headerOf, c.varies = true := by
      decide +kernel
    rw [(hsettled reliable_ofSource hs hunit hd htype hk h).fixed c hc] at hv
    cases hv
  · intro h
    obtain ⟨s, hs, unit, hunit, d, hd, htype, hk, hfirst⟩ :
        ∃ s ∈ fieldFirst.sources, ∃ unit ∈ fieldFirst.parser s.2, ∃ d ∈ unit.children,
          d.IsType ∧ d.kind = .recordDeclaration ∧ ¬d.members.Pairwise fun q q' =>
            q'.tree.kind = .compactConstructorDeclaration → Extract.fieldsIn q = [] := by
      decide +kernel
    exact hfirst (hsettled reliable_ofSource hs hunit hd htype hk h).first

end Project

end Lineage.Java
