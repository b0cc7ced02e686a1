import Lineage.Proofs.Java.Resolution
/-! # Packages and references

A reference with dots means the type of just this name, or the one of this name below the package
or a type around. Where there is none, its last name is looked for alone, so the name of a library's
type can mean a type of the project. A simple name finds a type of the declared package before what
is imported whole; a unit without a package has no such step. Main statements: `bound_ofEntries`,
`neighbourly_ofEntries`.
-/
namespace Lineage.Java.Symbols

/-! ## References with dots -/

section Dotted
variable {s : Symbols} {context : TypeContext} {name : String} {id : NodeId}

/-- Where a reference with dots is looked for after its own name: below the package, then below the
types around, the innermost first. -/
def starts (context : TypeContext) : List String := context.package.toList ++ context.enclosing

/-- Nothing is registered under a name, neither as it stands nor below the package or a type
around. -/
def Unbound (s : Symbols) (context : TypeContext) (name : String) : Prop :=
  name ∉ s.names ∧ ∀ start ∈ starts context, start ++ "." ++ name ∉ s.names

theorem resolveDotted?_eq_none_iff :
    s.resolveDotted? name context = none ↔ s.Unbound context name := by
  rw [resolveDotted?, Option.orElse_eq_orElse, Option.orElse_eq_or, Option.or_eq_none_iff,
    List.findSome?_eq_none_iff, type?_eq_none_iff]
  simp only [type?_eq_none_iff]
  rfl

theorem resolve?_of_dotted (h : TypeName.IsDotted name) (hdot : '.' ∈ name.toList)
    (dimensions dots : Nat) : s.resolve? (TypeName.written name dimensions dots) context =
      (s.resolveDotted? name context).or
        (s.resolveSimple? (TypeName.lastSegment name) context) := by
  rw [resolve?_written h, if_pos hdot]

theorem resolve?_lastSegment (h : TypeName.IsDotted name) :
    s.resolve? (TypeName.lastSegment name) context =
      s.resolveSimple? (TypeName.lastSegment name) context := by
  have hlast : s.resolve? (TypeName.written (TypeName.lastSegment name) 0 0) context = _ :=
    resolve?_of_isWord h.isWord_lastSegment 0 0
  rwa [TypeName.written_zero] at hlast

/-- Where nothing is registered under a reference, an import leads to any type of its last name. -/
theorem resolve?_importing (h : s.names.Nodup) (hname : TypeName.IsDotted name)
    (hfree : name ∉ s.names) {full : String} (hfull : (full, id) ∈ s.types)
    (hlast : TypeName.lastSegment full = TypeName.lastSegment name) (dimensions dots : Nat) :
    s.resolve? (TypeName.written name dimensions dots) { imports := [full] } = some id := by
  have htype : s.type? full = some id := (type?_eq_some_iff h).mpr hfull
  have hcandidate : full ∈ s.candidates (TypeName.lastSegment name) :=
    mem_candidates_iff.mpr ⟨List.mem_map_of_mem hfull, hlast⟩
  have hdotted : s.resolveDotted? name { imports := [full] } = none :=
    resolveDotted?_eq_none_iff.mpr ⟨hfree, List.forall_mem_nil _⟩
  rw [resolve?_written hname, hdotted, ite_self, Option.none_or]
  by_cases hsingle : ∃ only, s.candidates (TypeName.lastSegment name) = [only]
  · obtain ⟨only, honly⟩ := hsingle
    obtain rfl : full = only := by rwa [honly, List.mem_singleton] at hcandidate
    rw [resolveSimple?_of_single honly, htype]
  · rw [resolveSimple?_eq_findSome? (TypeName.lastSegment_not_mem name) (not_exists.mp hsingle),
      findSome?_meanings]
    simp [nested?, imported?, hlast, htype]

end Dotted

/-- A reference with dots leads to a type whose name ends in it, if none of the names before its
last dot is the simple name of a type. -/
def KeepsApart (s : Symbols) : Prop :=
  ∀ name, TypeName.IsDotted name → '.' ∈ name.toList →
    (∀ part ∈ (TypeName.segments name).dropLast, s.candidates part = []) →
    ∀ dimensions dots context id,
      s.resolve? (TypeName.written name dimensions dots) context = some id →
        ∃ full, (full, id) ∈ s.types ∧ TypeName.EndsIn full name

/-- What references with dots mean. -/
structure Bound (s : Symbols) : Prop where
  registered : ∀ name, TypeName.IsDotted name → '.' ∈ name.toList → ∀ id, (name, id) ∈ s.types →
    ∀ dimensions dots context,
      s.resolve? (TypeName.written name dimensions dots) context = some id
  relative : ∀ name, TypeName.IsDotted name → '.' ∈ name.toList → name ∉ s.names →
    ∀ context before start after id, starts context = before ++ start :: after →
      (∀ b ∈ before, b ++ "." ++ name ∉ s.names) → (start ++ "." ++ name, id) ∈ s.types →
      ∀ dimensions dots, s.resolve? (TypeName.written name dimensions dots) context = some id
  /-- What is bound nowhere means what its last name means. -/
  unbound : ∀ name, TypeName.IsDotted name → '.' ∈ name.toList → ∀ context,
    s.Unbound context name → ∀ dimensions dots,
      s.resolve? (TypeName.written name dimensions dots) context =
        s.resolve? (TypeName.lastSegment name) context
  ends : ∀ name, TypeName.IsDotted name → '.' ∈ name.toList → ∀ dimensions dots context id,
    s.resolve? (TypeName.written name dimensions dots) context = some id →
      (∃ full, (full, id) ∈ s.types ∧ TypeName.EndsIn full name) ∨
        s.Unbound context name ∧ s.resolve? (TypeName.lastSegment name) context = some id
  /-- No context leads away from a reference if it is a type's own name, or if all types of its last
  name end in it. -/
  kept_iff : (s.types.map (·.2)).Nodup → ∀ name, TypeName.IsDotted name → '.' ∈ name.toList →
    ((∀ dimensions dots context id,
      s.resolve? (TypeName.written name dimensions dots) context = some id →
        ∃ full, (full, id) ∈ s.types ∧ TypeName.EndsIn full name) ↔
      name ∈ s.names ∨
        ∀ full ∈ s.names, TypeName.lastSegment full = TypeName.lastSegment name →
          TypeName.EndsIn full name)

theorem bound_ofEntries (es : List Entry) : Bound (ofEntries es) where
  registered name hname hdot id hid dimensions dots context := by
    have htype := (type?_eq_some_iff (nodup_names_ofEntries es)).mpr hid
    rw [resolve?_of_dotted hname hdot, resolveDotted?, htype]
    rfl
  relative name hname hdot hfree context before start after id hstarts hbefore hid dimensions
      dots := by
    have hfound : (starts context).findSome? (fun p => (ofEntries es).type? (p ++ "." ++ name)) =
        some id :=
      List.findSome?_eq_some_iff.mpr ⟨before, start, after, hstarts,
        (type?_eq_some_iff (nodup_names_ofEntries es)).mpr hid,
        fun b hb => type?_eq_none_iff.mpr (hbefore b hb)⟩
    rw [starts] at hfound
    rw [resolve?_of_dotted hname hdot, resolveDotted?, type?_eq_none_iff.mpr hfree, hfound]
    rfl
  unbound name hname hdot context hunbound dimensions dots := by
    rw [resolve?_of_dotted hname hdot, resolveDotted?_eq_none_iff.mpr hunbound, Option.none_or,
      resolve?_lastSegment hname]
  ends name hname hdot dimensions dots context id hid := by
    rw [resolve?_of_dotted hname hdot] at hid
    rcases Option.or_eq_some_iff.mp hid with hid | ⟨hnone, hid⟩
    · exact .inl (exists_of_resolveDotted? hid)
    · refine .inr ⟨resolveDotted?_eq_none_iff.mp hnone, ?_⟩
      rw [resolve?_lastSegment hname, hid]
  kept_iff hids name hname hdot := by
    have hnames := nodup_names_ofEntries es
    constructor
    · intro hkept
      by_contra hnot
      obtain ⟨hfree, hall⟩ := not_or.mp hnot
      refine hall fun full hfull hlast => ?_
      obtain ⟨⟨full, id⟩, hmem, rfl⟩ := List.mem_map.mp hfull
      obtain ⟨full', hmem', hends⟩ :=
        hkept 0 0 _ id (resolve?_importing hnames hname hfree hmem hlast 0 0)
      cases List.inj_on_of_nodup_map hids hmem' hmem rfl
      exact hends
    · intro hkept dimensions dots context id hid
      rw [resolve?_of_dotted hname hdot] at hid
      rcases Option.or_eq_some_iff.mp hid with hid | ⟨hnone, hid⟩
      · exact exists_of_resolveDotted? hid
      · obtain ⟨hfree, -⟩ := resolveDotted?_eq_none_iff.mp hnone
        obtain ⟨full, hfull, hlast⟩ := exists_of_resolveSimple? hid
        exact ⟨full, hfull,
          hkept.resolve_left hfree full (List.mem_map_of_mem hfull) hlast⟩

/-- A library's list means the project's only list. -/
theorem not_keepsApart_listOfLibrary :
    ¬ KeepsApart (ofEntries [.type "app.List" ⟨1⟩]) := by
  intro h
  obtain ⟨full, hfull, hends⟩ :=
    h "java.util.List" (by decide) (by decide) (by decide) 0 0 { package := "app" } ⟨1⟩ (by decide)
  obtain ⟨rfl, -⟩ := Prod.mk.inj (List.mem_singleton.mp hfull)
  rcases hends with heq | ⟨start, heq⟩
  · exact absurd heq (by decide)
  · have hlength := congrArg String.length heq
    rw [String.length_append, String.length_append] at hlength
    have hshort : "app.List".length = 8 := by decide
    have hlong : "java.util.List".length = 14 := by decide
    omega

/-! ## Types of one's own package -/

def homeName (package : Option String) (simple : String) : String :=
  match package with
  | some p => p ++ "." ++ simple
  | none => simple

/-- A type of one's own package that nothing nearer hides. -/
structure Neighbour (s : Symbols) (context : TypeContext) (simple : String) (id : NodeId) :
    Prop where
  word : IsWord simple
  registered : (homeName context.package simple, id) ∈ s.types
  nested : NoneNested s.types context.enclosing simple
  imported : NoneImported s.types context.imports simple

def FindsNeighbours (s : Symbols) : Prop :=
  ∀ context simple id, s.Neighbour context simple id → ∀ dimensions dots,
    s.resolve? (TypeName.written simple dimensions dots) context = some id

structure Neighbourly (s : Symbols) : Prop where
  declared : ∀ context simple id, s.Neighbour context simple id → context.package.isSome →
    ∀ dimensions dots, s.resolve? (TypeName.written simple dimensions dots) context = some id
  alone : ∀ context simple id, s.Neighbour context simple id →
    (∀ full ∈ s.names, TypeName.lastSegment full = simple →
      full = homeName context.package simple) →
    ∀ dimensions dots, s.resolve? (TypeName.written simple dimensions dots) context = some id
  /-- Outside of packages, among several types of the name: only packages that are imported whole
  are searched. -/
  undeclared : ∀ context simple id, s.Neighbour context simple id → context.package = none →
    ∀ full ∈ s.names, TypeName.lastSegment full = simple → full ≠ simple →
    ∀ dimensions dots, s.resolve? (TypeName.written simple dimensions dots) context =
      s.wildcard? context.imports simple
  found_iff : (s.types.map (·.2)).Nodup → ∀ context simple id, s.Neighbour context simple id →
    ∀ dimensions dots, s.resolve? (TypeName.written simple dimensions dots) context = some id ↔
      context.package.isSome ∨
        ∀ full ∈ s.names, TypeName.lastSegment full = simple → full = simple

section Neighbours
variable {s : Symbols} {context : TypeContext} {simple : String} {id : NodeId}
  (h : s.names.Nodup) (hn : s.Neighbour context simple id)
include hn

theorem Neighbour.dotless : '.' ∉ simple.toList := not_mem_of_isWord hn.word (by decide)

theorem Neighbour.mem_candidates : homeName context.package simple ∈ s.candidates simple := by
  refine mem_candidates_iff.mpr ⟨List.mem_map_of_mem hn.registered, ?_⟩
  cases context.package with
  | none => exact TypeName.lastSegment_of_not_mem hn.dotless
  | some p => exact TypeName.lastSegment_below hn.dotless

theorem Neighbour.resolveSimple?_of_several (hseveral : ∀ only, s.candidates simple ≠ [only]) :
    s.resolveSimple? simple context =
      (s.sibling? context.package simple).or (s.wildcard? context.imports simple) := by
  rw [resolveSimple?_eq_findSome? hn.dotless hseveral, findSome?_meanings,
    nested?_eq_none_iff.mpr hn.nested, imported?_eq_none_iff.mpr hn.imported]
  rfl

include h

theorem Neighbour.resolveSimple?_of_single {only : String} (honly : s.candidates simple = [only]) :
    s.resolveSimple? simple context = some id := by
  have hmem := hn.mem_candidates
  rw [honly, List.mem_singleton] at hmem
  rw [Symbols.resolveSimple?_of_single honly, ← hmem, type?_eq_some_iff h]
  exact hn.registered

theorem Neighbour.resolveSimple?_of_declared (hp : context.package.isSome) :
    s.resolveSimple? simple context = some id := by
  by_cases hsingle : ∃ only, s.candidates simple = [only]
  · obtain ⟨only, honly⟩ := hsingle
    exact hn.resolveSimple?_of_single h honly
  · obtain ⟨p, hp⟩ := Option.isSome_iff_exists.mp hp
    have hregistered := hn.registered
    rw [hp] at hregistered
    have hsibling : s.sibling? context.package simple = some id := by
      rw [hp]
      exact (type?_eq_some_iff h).mpr hregistered
    rw [hn.resolveSimple?_of_several (not_exists.mp hsingle), hsibling]
    rfl

theorem Neighbour.resolveSimple?_of_alone (honly : ∀ full ∈ s.names,
    TypeName.lastSegment full = simple → full = homeName context.package simple) :
    s.resolveSimple? simple context = some id := by
  have hall : ∀ full ∈ s.candidates simple, full = homeName context.package simple :=
    fun full hfull => honly full (mem_candidates_iff.mp hfull).1 (mem_candidates_iff.mp hfull).2
  have hcopies := List.eq_replicate_of_mem hall
  have hone : (s.candidates simple).length ≤ 1 := by
    have hnodup : (s.candidates simple).Nodup := h.filter _
    rw [hcopies, List.nodup_replicate] at hnodup
    exact hnodup
  have hpos := List.length_pos_of_mem hn.mem_candidates
  rw [show (s.candidates simple).length = 1 by omega] at hcopies
  exact hn.resolveSimple?_of_single h hcopies

end Neighbours

theorem exists_of_wildcard? {s : Symbols} {imports : List String} {simple : String} {id : NodeId}
    (h : s.wildcard? imports simple = some id) : ∃ p, (p ++ "." ++ simple, id) ∈ s.types := by
  obtain ⟨i, -, h⟩ := List.exists_of_findSome?_eq_some h
  obtain ⟨p, -, h⟩ := Option.bind_eq_some_iff.mp h
  exact ⟨p, mem_of_lookup_eq_some h⟩

theorem several_of_mem {s : Symbols} {simple full full' : String}
    (hfull : full ∈ s.candidates simple) (hfull' : full' ∈ s.candidates simple)
    (hne : full ≠ full') : ∀ only, s.candidates simple ≠ [only] := by
  intro only honly
  rw [honly, List.mem_singleton] at hfull hfull'
  exact hne (hfull.trans hfull'.symm)

theorem neighbourly_ofEntries (es : List Entry) : Neighbourly (ofEntries es) where
  declared context simple id hn hp dimensions dots := by
    rw [resolve?_of_isWord hn.word]
    exact hn.resolveSimple?_of_declared (nodup_names_ofEntries es) hp
  alone context simple id hn honly dimensions dots := by
    rw [resolve?_of_isWord hn.word]
    exact hn.resolveSimple?_of_alone (nodup_names_ofEntries es) honly
  undeclared context simple id hn hp full hfull hlast hne dimensions dots := by
    have hmem := hn.mem_candidates
    rw [hp, homeName] at hmem
    have hseveral := several_of_mem hmem (mem_candidates_iff.mpr ⟨hfull, hlast⟩) hne.symm
    rw [resolve?_of_isWord hn.word, hn.resolveSimple?_of_several hseveral, hp]
    rfl
  found_iff hids context simple id hn dimensions dots := by
    have hnames := nodup_names_ofEntries es
    rw [resolve?_of_isWord hn.word]
    cases hp : context.package with
    | some p =>
      simp [hn.resolveSimple?_of_declared hnames (by simp [hp])]
    | none =>
      have hregistered : (simple, id) ∈ (ofEntries es).types := by
        simpa [hp, homeName] using hn.registered
      have hmem : simple ∈ (ofEntries es).candidates simple := by
        simpa [hp, homeName] using hn.mem_candidates
      constructor
      · refine fun hid => .inr fun full hfull hlast => ?_
        by_contra hne
        have hseveral := several_of_mem hmem (mem_candidates_iff.mpr ⟨hfull, hlast⟩) (Ne.symm hne)
        rw [hn.resolveSimple?_of_several hseveral, hp] at hid
        obtain ⟨p, hbelow⟩ := exists_of_wildcard? hid
        -- the type outside of packages and the one in a package have different ids
        have hname : p ++ "." ++ simple = simple :=
          congrArg Prod.fst (List.inj_on_of_nodup_map hids hbelow hregistered rfl)
        have hdot : '.' ∈ (p ++ "." ++ simple).toList := by simp
        exact hn.dotless (hname ▸ hdot)
      · rintro (hsome | honly)
        · cases hsome
        · exact hn.resolveSimple?_of_alone hnames (by rwa [hp])

/-- Another package's type of the same name hides a type outside of packages. -/
theorem not_findsNeighbours_undeclared :
    ¬ FindsNeighbours (ofEntries [.type "X" ⟨1⟩, .type "b.X" ⟨2⟩]) := by
  intro h
  have hn : Neighbour (ofEntries [.type "X" ⟨1⟩, .type "b.X" ⟨2⟩]) { enclosing := ["A"] } "X" ⟨1⟩ :=
    ⟨by decide, by decide, by unfold NoneNested; decide, List.forall_mem_nil _⟩
  exact absurd (h _ _ _ hn 0 0) (by decide)

end Lineage.Java.Symbols
