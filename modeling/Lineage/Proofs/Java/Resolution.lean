import Lineage.Proofs.Java.Registration
import Mathlib.Data.Option.Basic
/-! # What type references mean

A reference means a registered type of its last name, or nothing. Where one type has that name, an
unqualified reference means this type. Where several have it, the context decides: the types nested
in the types around come first, then explicit imports, the package, and imports of whole packages.
Main statements: `means_iff`, `resolves_ofEntries`.
-/
namespace Lineage.Java.Symbols

section Meaning
variable (types : List (String × NodeId))

/-- None of the types around has a type of the name nested in it. -/
def NoneNested (enclosing : List String) (simple : String) : Prop :=
  ∀ e ∈ enclosing, e ++ "." ++ simple ∉ types.map (·.1)

def NoneImported (imports : List String) (simple : String) : Prop :=
  ∀ i ∈ imports, TypeName.lastSegment i = simple → i ∉ types.map (·.1)

def NoneSibling (package : Option String) (simple : String) : Prop :=
  ∀ p ∈ package, p ++ "." ++ simple ∉ types.map (·.1)

def NoneInWildcards (imports : List String) (simple : String) : Prop :=
  ∀ p, p ++ ".*" ∈ imports → p ++ "." ++ simple ∉ types.map (·.1)

/-- What a simple name means where several types have it: the first type that is there, and nothing
if none is. -/
inductive Means (context : TypeContext) (simple : String) : Option NodeId → Prop
  | nested {inner outer : List String} {around : String} {id : NodeId}
      (h : context.enclosing = inner ++ around :: outer)
      (hid : (around ++ "." ++ simple, id) ∈ types)
      (hinner : NoneNested types inner simple) : Means context simple (some id)
  | imported {earlier later : List String} {name : String} {id : NodeId}
      (hnested : NoneNested types context.enclosing simple)
      (h : context.imports = earlier ++ name :: later)
      (hid : TypeName.lastSegment name = simple ∧ (name, id) ∈ types)
      (hearlier : NoneImported types earlier simple) : Means context simple (some id)
  | sibling {package : String} {id : NodeId}
      (hnested : NoneNested types context.enclosing simple)
      (himported : NoneImported types context.imports simple)
      (h : context.package = some package)
      (hid : (package ++ "." ++ simple, id) ∈ types) : Means context simple (some id)
  | wildcard {earlier later : List String} {package : String} {id : NodeId}
      (hnested : NoneNested types context.enclosing simple)
      (himported : NoneImported types context.imports simple)
      (hsibling : NoneSibling types context.package simple)
      (h : context.imports = earlier ++ (package ++ ".*") :: later)
      (hid : (package ++ "." ++ simple, id) ∈ types)
      (hearlier : NoneInWildcards types earlier simple) : Means context simple (some id)
  | nothing
      (hnested : NoneNested types context.enclosing simple)
      (himported : NoneImported types context.imports simple)
      (hsibling : NoneSibling types context.package simple)
      (hwildcards : NoneInWildcards types context.imports simple) : Means context simple none

end Meaning

/-! ## The first of several meanings -/

theorem find?_bind_eq_findSome? {α β : Type} {xs : List α} {p : α → Bool} {f : α → Option β}
    (h : ∀ x ∈ xs, p x = (f x).isSome) :
    (xs.find? p).bind f = xs.findSome? f := by
  induction xs with
  | nil => rfl
  | cons x xs ih =>
    obtain ⟨hx, hxs⟩ := List.forall_mem_cons.mp h
    rw [List.find?_cons, List.findSome?_cons, hx]
    cases hfx : f x with
    | none => exact ih hxs
    | some y => exact hfx

section Meanings
variable {s : Symbols} {context : TypeContext} {simple : String}

theorem lastSegment_of_mem_meanings (h : '.' ∉ simple.toList) :
    ∀ name ∈ meanings context simple, TypeName.lastSegment name = simple := by
  intro name hname
  simp only [meanings, List.mem_append, List.mem_map, List.mem_filter, List.mem_filterMap,
    decide_eq_true_eq, Option.map_eq_some_iff] at hname
  rcases hname with ((⟨e, -, rfl⟩ | ⟨-, hlast⟩) | ⟨p, -, rfl⟩) | ⟨i, -, p, -, rfl⟩
  · exact TypeName.lastSegment_below h
  · exact hlast
  · exact TypeName.lastSegment_below h
  · exact TypeName.lastSegment_below h

/-- Where several types have a simple name, the first of its meanings that is registered counts. -/
theorem resolveSimple?_eq_findSome? (hsimple : '.' ∉ simple.toList)
    (h : ∀ only, s.candidates simple ≠ [only]) :
    s.resolveSimple? simple context = (meanings context simple).findSome? s.type? := by
  rw [resolveSimple?_of_several h]
  refine find?_bind_eq_findSome? fun name hname => ?_
  have hlast := lastSegment_of_mem_meanings hsimple name hname
  rw [Bool.eq_iff_iff, List.contains_iff_mem, mem_candidates_iff, Option.isSome_iff_ne_none, ne_eq,
    type?_eq_none_iff, not_not, and_iff_left hlast]

/-! ## The searches of a context -/

def nested? (s : Symbols) (enclosing : List String) (simple : String) : Option NodeId :=
  enclosing.findSome? fun e => s.type? (e ++ "." ++ simple)

def imported? (s : Symbols) (imports : List String) (simple : String) : Option NodeId :=
  imports.findSome? fun i => if TypeName.lastSegment i = simple then s.type? i else none

def sibling? (s : Symbols) (package : Option String) (simple : String) : Option NodeId :=
  package.bind fun p => s.type? (p ++ "." ++ simple)

def wildcard? (s : Symbols) (imports : List String) (simple : String) : Option NodeId :=
  imports.findSome? fun i => (Text.before? ".*" i).bind fun p => s.type? (p ++ "." ++ simple)

theorem findSome?_meanings : (meanings context simple).findSome? s.type? =
    (((s.nested? context.enclosing simple).or (s.imported? context.imports simple)).or
      (s.sibling? context.package simple)).or (s.wildcard? context.imports simple) := by
  have hpackage : (context.package.toList.map (· ++ "." ++ simple)).findSome? s.type? =
      s.sibling? context.package simple := by
    cases context.package <;> simp [sibling?]
  rw [meanings, List.findSome?_append, List.findSome?_append, List.findSome?_append, hpackage,
    List.findSome?_map]
  simp only [← List.head?_filterMap, List.filterMap_filter, List.filterMap_filterMap,
    nested?, imported?, wildcard?, Option.bind_map, decide_eq_true_eq, Function.comp_def]

variable {enclosing imports : List String} {package : Option String}

theorem nested?_eq_none_iff : s.nested? enclosing simple = none ↔
    NoneNested s.types enclosing simple := by
  simp only [nested?, NoneNested, names, List.findSome?_eq_none_iff, type?_eq_none_iff]

theorem imported?_eq_none_iff : s.imported? imports simple = none ↔
    NoneImported s.types imports simple := by
  simp only [imported?, NoneImported, names, List.findSome?_eq_none_iff, ite_eq_right_iff,
    type?_eq_none_iff]

theorem sibling?_eq_none_iff : s.sibling? package simple = none ↔
    NoneSibling s.types package simple := by
  simp only [sibling?, NoneSibling, names, Option.bind_eq_none_iff, type?_eq_none_iff,
    Option.mem_def]

theorem wildcard?_eq_none_iff : s.wildcard? imports simple = none ↔
    NoneInWildcards s.types imports simple := by
  simp only [wildcard?, NoneInWildcards, names, List.findSome?_eq_none_iff,
    Option.bind_eq_none_iff, type?_eq_none_iff, Text.before?_eq_some_iff]
  exact ⟨fun h p hp => h _ hp p rfl, fun h i hi p hp => h p (hp ▸ hi)⟩

section Found
variable (h : s.names.Nodup) {id : NodeId}
include h

theorem nested?_eq_some_iff : s.nested? enclosing simple = some id ↔
    ∃ inner around outer, enclosing = inner ++ around :: outer ∧
      (around ++ "." ++ simple, id) ∈ s.types ∧ NoneNested s.types inner simple := by
  simp only [nested?, List.findSome?_eq_some_iff, type?_eq_some_iff h, type?_eq_none_iff,
    NoneNested, names]

theorem imported?_eq_some_iff : s.imported? imports simple = some id ↔
    ∃ earlier name later, imports = earlier ++ name :: later ∧
      (TypeName.lastSegment name = simple ∧ (name, id) ∈ s.types) ∧
      NoneImported s.types earlier simple := by
  simp only [imported?, List.findSome?_eq_some_iff, Option.ite_none_right_eq_some,
    type?_eq_some_iff h, ite_eq_right_iff, type?_eq_none_iff, NoneImported, names]

theorem sibling?_eq_some_iff : s.sibling? package simple = some id ↔
    ∃ p, package = some p ∧ (p ++ "." ++ simple, id) ∈ s.types := by
  simp only [sibling?, Option.bind_eq_some_iff, type?_eq_some_iff h]

theorem wildcard?_eq_some_iff : s.wildcard? imports simple = some id ↔
    ∃ earlier p later, imports = earlier ++ (p ++ ".*") :: later ∧
      (p ++ "." ++ simple, id) ∈ s.types ∧ NoneInWildcards s.types earlier simple := by
  rw [wildcard?, List.findSome?_eq_some_iff]
  simp only [Option.bind_eq_some_iff, Text.before?_eq_some_iff, type?_eq_some_iff h]
  constructor
  · rintro ⟨earlier, i, later, hi, ⟨p, rfl, hid⟩, hearlier⟩
    exact ⟨earlier, p, later, hi, hid,
      wildcard?_eq_none_iff.mp (List.findSome?_eq_none_iff.mpr hearlier)⟩
  · rintro ⟨earlier, p, later, hi, hid, hearlier⟩
    exact ⟨earlier, _, later, hi, ⟨p, rfl, hid⟩,
      List.findSome?_eq_none_iff.mp (wildcard?_eq_none_iff.mpr hearlier)⟩

end Found

/-- The first of the meanings in a context is told by where it stands and by what does not stand
before it. -/
theorem means_iff (h : s.names.Nodup) {answer : Option NodeId} :
    Means s.types context simple answer ↔ (meanings context simple).findSome? s.type? = answer := by
  rw [findSome?_meanings]
  constructor
  · intro hmeans
    cases hmeans with
    | nested henclosing hid hinner =>
      rw [(nested?_eq_some_iff h).mpr ⟨_, _, _, henclosing, hid, hinner⟩]
      rfl
    | imported hnested himports hid hearlier =>
      rw [nested?_eq_none_iff.mpr hnested,
        (imported?_eq_some_iff h).mpr ⟨_, _, _, himports, hid, hearlier⟩]
      rfl
    | sibling hnested himports hpackage hid =>
      rw [nested?_eq_none_iff.mpr hnested, imported?_eq_none_iff.mpr himports,
        (sibling?_eq_some_iff h).mpr ⟨_, hpackage, hid⟩]
      rfl
    | wildcard hnested himports hpackage hwildcard hid hearlier =>
      rw [nested?_eq_none_iff.mpr hnested, imported?_eq_none_iff.mpr himports,
        sibling?_eq_none_iff.mpr hpackage,
        (wildcard?_eq_some_iff h).mpr ⟨_, _, _, hwildcard, hid, hearlier⟩]
      rfl
    | nothing hnested himports hpackage hwildcards =>
      rw [nested?_eq_none_iff.mpr hnested, imported?_eq_none_iff.mpr himports,
        sibling?_eq_none_iff.mpr hpackage, wildcard?_eq_none_iff.mpr hwildcards]
      rfl
  · -- Each search is looked at only where those before it find nothing.
    rintro rfl
    cases hnested : s.nested? context.enclosing simple with
    | some id =>
      obtain ⟨_, _, _, henclosing, hid, hinner⟩ := (nested?_eq_some_iff h).mp hnested
      exact .nested henclosing hid hinner
    | none =>
    rw [nested?_eq_none_iff] at hnested
    cases himports : s.imported? context.imports simple with
    | some id =>
      obtain ⟨_, _, _, himports, hid, hearlier⟩ := (imported?_eq_some_iff h).mp himports
      exact .imported hnested himports hid hearlier
    | none =>
    rw [imported?_eq_none_iff] at himports
    cases hpackage : s.sibling? context.package simple with
    | some id =>
      obtain ⟨_, hpackage, hid⟩ := (sibling?_eq_some_iff h).mp hpackage
      exact .sibling hnested himports hpackage hid
    | none =>
    rw [sibling?_eq_none_iff] at hpackage
    cases hwildcards : s.wildcard? context.imports simple with
    | some id =>
      obtain ⟨_, _, _, hwildcard, hid, hearlier⟩ := (wildcard?_eq_some_iff h).mp hwildcards
      exact .wildcard hnested himports hpackage hwildcard hid hearlier
    | none => exact .nothing hnested himports hpackage (wildcard?_eq_none_iff.mp hwildcards)

end Meanings

/-! ## References -/

section References
variable {s : Symbols} {context : TypeContext} {name : String} {id : NodeId}

/-- Brackets and dots at its end make no difference to a reference. -/
theorem resolve?_written (h : TypeName.IsDotted name) (dimensions dots : Nat) :
    s.resolve? (TypeName.written name dimensions dots) context =
      (if '.' ∈ name.toList then s.resolveDotted? name context else none).or
        (s.resolveSimple? (TypeName.lastSegment name) context) := by
  have hcontains : Text.contains "." name = true ↔ '.' ∈ name.toList :=
    Text.contains_singleton_iff (c := '.')
  rw [resolve?, TypeName.element_written h, TypeName.simple_of_isDotted h]
  simp only [hcontains, Option.orElse_eq_orElse, Option.orElse_eq_or]

theorem exists_of_resolveDotted? (h : s.resolveDotted? name context = some id) :
    ∃ full, (full, id) ∈ s.types ∧ TypeName.EndsIn full name := by
  rcases (Option.orElse_eq_some _ _ _).mp h with h | ⟨-, h⟩
  · exact ⟨name, mem_of_lookup_eq_some h, .inl rfl⟩
  · obtain ⟨start, -, h⟩ := List.exists_of_findSome?_eq_some h
    exact ⟨_, mem_of_lookup_eq_some h, .inr ⟨start, rfl⟩⟩

theorem exists_of_resolveSimple? {simple : String}
    (h : s.resolveSimple? simple context = some id) :
    ∃ full, (full, id) ∈ s.types ∧ TypeName.lastSegment full = simple := by
  by_cases hsingle : ∃ only, s.candidates simple = [only]
  · obtain ⟨only, honly⟩ := hsingle
    rw [resolveSimple?_of_single honly] at h
    have hmem : only ∈ s.candidates simple := honly ▸ List.mem_singleton_self only
    exact ⟨only, mem_of_lookup_eq_some h, (mem_candidates_iff.mp hmem).2⟩
  · rw [resolveSimple?_of_several (not_exists.mp hsingle)] at h
    obtain ⟨full, hfull, h⟩ := Option.bind_eq_some_iff.mp h
    have hmem : full ∈ s.candidates simple := by simpa using List.find?_some hfull
    exact ⟨full, mem_of_lookup_eq_some h, (mem_candidates_iff.mp hmem).2⟩

/-- What a reference means is a type of its last name. -/
theorem exists_of_resolve? (hname : TypeName.IsDotted name) {dimensions dots : Nat}
    (h : s.resolve? (TypeName.written name dimensions dots) context = some id) :
    ∃ full, (full, id) ∈ s.types ∧ TypeName.lastSegment full = TypeName.lastSegment name := by
  rw [resolve?_written hname] at h
  rcases Option.or_eq_some_iff.mp h with h | ⟨-, h⟩
  · obtain ⟨-, h⟩ := Option.ite_none_right_eq_some.mp h
    obtain ⟨full, hfull, hends⟩ := exists_of_resolveDotted? h
    exact ⟨full, hfull, hends.lastSegment_eq⟩
  · exact exists_of_resolveSimple? h

theorem resolve?_of_isWord {simple : String} (h : IsWord simple) (dimensions dots : Nat) :
    s.resolve? (TypeName.written simple dimensions dots) context =
      s.resolveSimple? simple context := by
  have hdot : '.' ∉ simple.toList := not_mem_of_isWord h (by decide)
  rw [resolve?_written (.of_isWord h), if_neg hdot, Option.none_or,
    TypeName.lastSegment_of_not_mem hdot]

end References

/-! ## Tables of types with distinct names -/

structure Resolves (es : List Entry) : Prop where
  unordered : ∀ es' : List Entry, es'.Perm es → ∀ raw context,
    (ofEntries es').resolve? raw context = (ofEntries es).resolve? raw context
  sound : ∀ name, TypeName.IsDotted name → ∀ dimensions dots context id,
    (ofEntries es).resolve? (TypeName.written name dimensions dots) context = some id →
      ∃ full, (full, id) ∈ typesOf es ∧ TypeName.lastSegment full = TypeName.lastSegment name
  /-- The only type with a simple name. -/
  only : ∀ simple, IsWord simple → ∀ full id,
    ((typesOf es).filter fun t => TypeName.lastSegment t.1 = simple) = [(full, id)] →
      ∀ dimensions dots context,
        (ofEntries es).resolve? (TypeName.written simple dimensions dots) context = some id
  nearest : ∀ simple, IsWord simple →
    2 ≤ ((typesOf es).filter fun t => TypeName.lastSegment t.1 = simple).length →
      ∀ dimensions dots context answer,
        (ofEntries es).resolve? (TypeName.written simple dimensions dots) context = answer ↔
          Means (typesOf es) context simple answer

theorem candidates_eq_map (s : Symbols) (simple : String) : s.candidates simple =
    (s.types.filter fun t => TypeName.lastSegment t.1 = simple).map (·.1) := by
  rw [candidates, List.filter_map]
  rfl

/-- Types with distinct names are found by their last names, in whatever order they were
registered. -/
theorem resolves_ofEntries {es : List Entry} (h : ((typesOf es).map (·.1)).Nodup) :
    Resolves es where
  unordered es' hperm raw context := by
    have htypes : (typesOf es').Perm (typesOf es) := hperm.filterMap _
    have h' : ((typesOf es').map (·.1)).Nodup := (htypes.map _).nodup_iff.mpr h
    refine resolve?_eq_of_perm (nodup_names_ofEntries es') ?_ raw context
    rwa [types_ofEntries h, types_ofEntries h']
  sound name hname dimensions dots context id hid := by
    rw [← types_ofEntries h]
    exact exists_of_resolve? hname hid
  only simple hsimple full id hfull dimensions dots context := by
    have hcandidates : (ofEntries es).candidates simple = [full] := by
      rw [candidates_eq_map, types_ofEntries h, hfull]
      rfl
    have hmem : (full, id) ∈ (ofEntries es).types := by
      rw [types_ofEntries h]
      exact (List.mem_filter.mp (hfull ▸ List.mem_singleton_self (full, id))).1
    rw [resolve?_of_isWord hsimple, resolveSimple?_of_single hcandidates]
    exact (type?_eq_some_iff (nodup_names_ofEntries es)).mpr hmem
  nearest simple hsimple hseveral dimensions dots context answer := by
    have hcandidates : ∀ only, (ofEntries es).candidates simple ≠ [only] := by
      intro only honly
      rw [← types_ofEntries h, ← List.length_map (·.1), ← candidates_eq_map, honly] at hseveral
      exact absurd hseveral (Nat.not_succ_le_self 1)
    rw [resolve?_of_isWord hsimple, resolveSimple?_eq_findSome?
      (not_mem_of_isWord hsimple (by decide)) hcandidates, ← types_ofEntries h]
    exact (means_iff (nodup_names_ofEntries es)).symm

theorem resolves_twoNodes :
    ((typesOf [.type "a.Util" ⟨1⟩, .type "a.Node" ⟨2⟩, .type "b.Node" ⟨3⟩]).map (·.1)).Nodup ∧
      Resolves [.type "a.Util" ⟨1⟩, .type "a.Node" ⟨2⟩, .type "b.Node" ⟨3⟩] :=
  ⟨by decide, resolves_ofEntries (by decide)⟩

end Lineage.Java.Symbols
