import Lineage.Java.Grammar
import Lineage.Proofs.Java.Entries
import Lineage.Proofs.Java.Resolution
/-! # Calls through fields

The receiver of a call is looked for among the fields in the scope of the method: those of its type,
of the types around, and of the types above. What the type of the field means is asked where the
method stands, not where the field is declared. Where the two places read a name differently, the
call is searched in another type than the one that the field was declared with. Main statements:
`resolve?_eq_of_settled`, `resolve?_eq_of_noneNested`, `receiving_project`.
-/
namespace Lineage.Java

namespace Symbols

section Places
variable {s : Symbols} {raw : String} {context context' : TypeContext}

/-- A reference that is a full name, or a simple name that at most one type has. -/
inductive Settled (s : Symbols) (raw : String) : Prop
  | full (hdot : Text.contains "." (TypeName.element raw) = true)
    (h : s.type? (TypeName.element raw) ≠ none)
  | only (hdot : Text.contains "." (TypeName.element raw) = false)
    (h : (s.candidates (TypeName.simple (TypeName.element raw))).length ≤ 1)

theorem resolveSimple?_eq_of_length {simple : String} (h : (s.candidates simple).length ≤ 1) :
    s.resolveSimple? simple context = s.resolveSimple? simple context' := by
  rcases hc : s.candidates simple with - | ⟨only, rest⟩
  · have hseveral : ∀ only, s.candidates simple ≠ [only] := by simp [hc]
    have hnone : ∀ names : List String, names.find? (List.contains []) = none := fun _ =>
      List.find?_eq_none.mpr (by simp)
    rw [resolveSimple?_of_several hseveral, resolveSimple?_of_several hseveral, hc, hnone, hnone]
  · rw [hc, List.length_cons] at h
    obtain rfl : rest = [] := List.length_eq_zero_iff.mp (by omega)
    rw [resolveSimple?_of_single hc, resolveSimple?_of_single hc]

/-- A settled reference means the same wherever it stands. -/
theorem resolve?_eq_of_settled (h : s.Settled raw) :
    s.resolve? raw context = s.resolve? raw context' := by
  unfold resolve?
  cases h with
  | full hdot h =>
    obtain ⟨id, hid⟩ := Option.ne_none_iff_exists'.mp h
    simp [hdot, resolveDotted?, hid]
  | only hdot h =>
    simp only [hdot, Bool.false_eq_true, if_false]
    rw [resolveSimple?_eq_of_length h]

section Nested
variable {package : Option String} {imports inner outer : List String}

/-- Below types that have no type of the name nested in them, a simple name means the same. -/
theorem resolveSimple?_eq_of_noneNested {simple : String} (h : NoneNested s.types inner simple) :
    s.resolveSimple? simple ⟨package, imports, inner ++ outer⟩ =
      s.resolveSimple? simple ⟨package, imports, outer⟩ := by
  by_cases hsingle : ∃ only, s.candidates simple = [only]
  · obtain ⟨only, honly⟩ := hsingle
    rw [resolveSimple?_of_single honly, resolveSimple?_of_single honly]
  · -- candidates are registered, and no name below the inner types is
    have hinner : (inner.map (· ++ "." ++ simple)).find? (s.candidates simple).contains = none := by
      refine List.find?_eq_none.mpr fun name hname => ?_
      obtain ⟨e, he, rfl⟩ := List.mem_map.mp hname
      rw [List.contains_iff_mem, mem_candidates_iff]
      exact fun hmem => h e he hmem.1
    rw [resolveSimple?_of_several (not_exists.mp hsingle),
      resolveSimple?_of_several (not_exists.mp hsingle)]
    simp only [meanings, List.map_append, List.append_assoc, List.find?_append, hinner,
      Option.none_or]

theorem resolve?_eq_of_noneNested (h : NoneNested s.types inner (TypeName.element raw))
    (hsimple : NoneNested s.types inner (TypeName.simple (TypeName.element raw))) :
    s.resolve? raw ⟨package, imports, inner ++ outer⟩ =
      s.resolve? raw ⟨package, imports, outer⟩ := by
  have hinner : (inner.findSome? fun start => s.type? (start ++ "." ++ TypeName.element raw)) =
      none := nested?_eq_none_iff.mpr h
  have hdotted : s.resolveDotted? (TypeName.element raw) ⟨package, imports, inner ++ outer⟩ =
      s.resolveDotted? (TypeName.element raw) ⟨package, imports, outer⟩ := by
    simp only [resolveDotted?, List.findSome?_append, hinner, Option.none_or]
  rw [resolve?, resolve?, hdotted, resolveSimple?_eq_of_noneNested hsimple]

end Nested

end Places

end Symbols

namespace Assembly

/-- The nearest field of a name in the scope of a method, and the type that declares it. -/
structure FieldInScope (a : Assembly) (m : MethodEntry) (name : String) (o : TypeEntry)
    (x : FieldFacts) : Prop where
  mem : o ∈ a.types
  field : o.facts.fields.find? (·.name = name) = some x
  first : ∃ nearer farther, m.scope a.symbols = nearer ++ o.id :: farther ∧
    ∀ t ∈ a.types, t.id ∈ nearer → ∀ y ∈ t.facts.fields, y.name ≠ name

section Scope
variable {files : List FileFacts} {a : Assembly} (hlisted : Listed files a)
  (hids : (a.types.map (·.id)).Nodup) {m : MethodEntry} {name : String}
include hlisted hids

theorem map_type_field?_iff {i : NodeId} {type : String} :
    (a.symbols.field? i name).map (·.type) = some type ↔ ∃ o ∈ a.types, o.id = i ∧
      ∃ x, o.facts.fields.find? (·.name = name) = some x ∧ x.type = type := by
  rw [hlisted.field?_eq hids, Option.bind_eq_some_iff]
  simp only [find?_key_eq_some_iff hids, Option.map_eq_some_iff, and_assoc]

theorem field?_eq_none_iff {i : NodeId} : a.symbols.field? i name = none ↔
    ∀ t ∈ a.types, t.id = i → ∀ y ∈ t.facts.fields, y.name ≠ name := by
  rw [← Option.map_eq_none_iff (f := FieldSymbol.type), hlisted.field?_eq hids,
    Option.bind_eq_none_iff]
  simp only [find?_key_eq_some_iff hids, Option.map_eq_none_iff, List.find?_eq_none,
    decide_eq_true_eq, and_imp]

theorem exists_fieldInScope_iff {type : String} :
    (∃ o x, a.FieldInScope m name o x ∧ x.type = type) ↔
      ((m.scope a.symbols).findSome? (a.symbols.field? · name)).map (·.type) = some type := by
  rw [List.map_findSome?, List.findSome?_eq_some_iff]
  simp only [Function.comp_apply, Option.map_eq_none_iff, map_type_field?_iff hlisted hids,
    field?_eq_none_iff hlisted hids]
  constructor
  · rintro ⟨o, x, ⟨ho, hx, nearer, farther, heq, hnearer⟩, rfl⟩
    exact ⟨nearer, o.id, farther, heq, ⟨o, ho, rfl, x, hx, rfl⟩, fun i hi t ht hid =>
      hnearer t ht (hid ▸ hi)⟩
  · rintro ⟨nearer, -, farther, heq, ⟨o, ho, rfl, x, hx, rfl⟩, hnearer⟩
    exact ⟨o, x, ⟨ho, hx, nearer, farther, heq, fun t ht hid => hnearer _ hid t ht rfl⟩, rfl⟩

theorem FieldInScope.receiverType?_eq {o : TypeEntry} {x : FieldFacts}
    (h : a.FieldInScope m name o x) : m.receiverType? a.symbols name =
      (a.symbols.resolve? (TypeName.erase x.type) m.owner.context).or
        (if (name.toList.head?).any Text.isUppercase then
          a.symbols.resolve? name m.owner.context else none) := by
  have htype := (exists_fieldInScope_iff hlisted hids).mp ⟨o, x, h, rfl⟩
  obtain ⟨field, hfield, hx⟩ := Option.map_eq_some_iff.mp htype
  simp only [MethodEntry.receiverType?, hfield, hx, Option.bind_eq_bind, Option.bind_some,
    Option.orElse_eq_orElse, Option.orElse_eq_or]

theorem exists_fieldInScope : (∃ o x, a.FieldInScope m name o x) ↔
    ∃ t ∈ a.types, t.id ∈ m.scope a.symbols ∧ ∃ y ∈ t.facts.fields, y.name = name := by
  have hfound : (∃ o x, a.FieldInScope m name o x) ↔
      (m.scope a.symbols).findSome? (a.symbols.field? · name) ≠ none := by
    rw [← Option.isSome_iff_ne_none, ← Option.isSome_map (f := FieldSymbol.type),
      Option.isSome_iff_exists]
    simp only [← exists_fieldInScope_iff hlisted hids]
    grind
  rw [hfound, ne_eq, List.findSome?_eq_none_iff]
  simp only [field?_eq_none_iff hlisted hids]
  grind

end Scope

end Assembly

namespace Project

/-- A call through a field is searched in the type that the field's type means where the field is
declared. -/
def BindsFields (p : Project) : Prop :=
  ∀ m ∈ p.assembly.methods, ∀ c ∈ m.facts.body.calls, ∀ text, c.receiver = .other text →
    ∀ o x, p.assembly.FieldInScope m ((Text.after? "this." text).getD text) o x →
      m.receiverType? p.assembly.symbols ((Text.after? "this." text).getD text) =
        p.assembly.symbols.resolve? (TypeName.erase x.type) o.context

structure Receiving (p : Project) : Prop where
  /-- The names in a type are read in its file, below the types around it. -/
  contexts : ∀ t ∈ p.assembly.types, ∃ f ∈ p.files, ∃ around ⊆ p.assembly.types,
    t.Inside f around ∧ t.outerIds = around.map (·.id) ∧
      t.context = { package := f.package
                    imports := f.imports
                    enclosing := (t :: around).map (·.facts.qualifiedName) }
  found : ∀ m name, (∃ o x, p.assembly.FieldInScope m name o x) ↔ ∃ t ∈ p.assembly.types,
    t.id ∈ m.scope p.assembly.symbols ∧ ∃ y ∈ t.facts.fields, y.name = name
  receiver : ∀ m name o x, p.assembly.FieldInScope m name o x →
    m.receiverType? p.assembly.symbols name =
      (p.assembly.symbols.resolve? (TypeName.erase x.type) m.owner.context).or
        (if (name.toList.head?).any Text.isUppercase then
          p.assembly.symbols.resolve? name m.owner.context else none)
  /-- A field that is named like a field binds where its type means the same in both places. -/
  binds_iff : ∀ m name o x, p.assembly.FieldInScope m name o x →
    (name.toList.head?).any Text.isUppercase = false →
      (m.receiverType? p.assembly.symbols name =
        p.assembly.symbols.resolve? (TypeName.erase x.type) o.context ↔
          p.assembly.symbols.resolve? (TypeName.erase x.type) m.owner.context =
            p.assembly.symbols.resolve? (TypeName.erase x.type) o.context)
  settled : ∀ raw, p.assembly.symbols.Settled raw → ∀ context context',
    p.assembly.symbols.resolve? raw context = p.assembly.symbols.resolve? raw context'
  around : ∀ f (t o : TypeEntry) inner outer, t.Inside f (inner ++ o :: outer) → ∀ raw,
    (∀ name ∈ [TypeName.element raw, TypeName.simple (TypeName.element raw)],
      Symbols.NoneNested p.assembly.symbols.types ((t :: inner).map (·.facts.qualifiedName)) name) →
    p.assembly.symbols.resolve? raw t.context = p.assembly.symbols.resolve? raw o.context
  calls : ∀ m ∈ p.assembly.methods, ∀ c ∈ m.facts.body.calls, ∀ text, c.receiver = .other text →
    ∀ t, m.receiverType? p.assembly.symbols ((Text.after? "this." text).getD text) = some t →
      ∀ j, MethodEntry.firstNamed? p.assembly.symbols (t :: p.assembly.symbols.ancestors t) c =
        some j → ⟨m.id, .calls, j⟩ ∈ p.graph.triples

theorem receiving_project (p : Project) : p.Receiving where
  contexts t ht := by
    obtain ⟨f, hf, -, around, hinside, hsub⟩ := p.listed_assembly.entries t ht
    exact ⟨f, hf, around, hsub, hinside, hinside.outerIds_eq, hinside.context_eq⟩
  found m name := Assembly.exists_fieldInScope p.listed_assembly p.nodup_typeIds_assembly
  receiver m name o x h := h.receiverType?_eq p.listed_assembly p.nodup_typeIds_assembly
  binds_iff m name o x h hname := by
    rw [h.receiverType?_eq p.listed_assembly p.nodup_typeIds_assembly, hname]
    simp
  settled raw h _ _ := Symbols.resolve?_eq_of_settled h
  around f t o inner outer h raw hnone := by
    rw [h.context_eq, h.of_append.context_eq, ← List.cons_append, List.map_append]
    exact Symbols.resolve?_eq_of_noneNested (hnone _ List.mem_cons_self) (hnone _ (by simp))
  calls m hm c hc text htext t ht j hj := by
    have hcalled : m.called? p.assembly.symbols c = some j := by
      simp [MethodEntry.called?, htext, ht, hj]
    refine (Assembly.mem_triples_iff_of_leaves p.name p.files rfl).mpr ⟨m, hm, ?_⟩
    refine MethodEntry.mem_edges_iff.mpr (.inl (.inl (.inl (.inl (.inl ?_)))))
    exact List.mem_map_of_mem (List.mem_filterMap.mpr ⟨c, hc, hcalled⟩)

/-- A method whose own type has no fields finds those of the other type in scope. -/
theorem fieldInScope_of_scope {p : Project} {m : MethodEntry} {name : String} {o : TypeEntry}
    {x : FieldFacts} (hm : m ∈ p.assembly.methods) (hnone : m.owner.facts.fields = [])
    (ho : o ∈ p.assembly.types) (hx : o.facts.fields.find? (·.name = name) = some x)
    (hscope : m.scope p.assembly.symbols = [m.owner.id, o.id]) :
    p.assembly.FieldInScope m name o x := by
  refine ⟨ho, hx, [m.owner.id], [], hscope, fun t ht hid => ?_⟩
  have howner : t = m.owner := List.inj_on_of_nodup_map p.nodup_typeIds_assembly ht
    (p.listed_assembly.owner_mem hm) (List.mem_singleton.mp hid)
  rw [howner, hnone]
  exact List.forall_mem_nil _

def inheritedHelper : Project :=
  ⟨Tree.ofSource?, "app", [("A.java", "class A \x7b Helper h; \x7d " ++
    "class B extends A \x7b void go() \x7b h.run(); \x7d \x7d " ++
    "class Helper \x7b void run() \x7b\x7d \x7d")]⟩

theorem receiving_inheritedHelper : inheritedHelper.Receiving ∧
    ∃ m ∈ inheritedHelper.assembly.methods, ∃ o x t j,
      inheritedHelper.assembly.FieldInScope m "h" o x ∧
        inheritedHelper.assembly.symbols.resolve? (TypeName.erase x.type) o.context = some t ∧
          m.receiverType? inheritedHelper.assembly.symbols "h" = some t ∧
            ⟨m.id, .calls, j⟩ ∈ inheritedHelper.graph.triples := by
  have hreceiving := receiving_project inheritedHelper
  obtain ⟨m, hm, c, hc, hcall, hnone, o, ho, x, hx, hscope, t, ht, hsame, j, hj, -⟩ :
      ∃ m ∈ inheritedHelper.assembly.methods, ∃ c ∈ m.facts.body.calls,
        c.receiver = .other "h" ∧ m.owner.facts.fields = [] ∧
          ∃ o ∈ inheritedHelper.assembly.types, ∃ x ∈ o.facts.fields.find? (·.name = "h"),
            m.scope inheritedHelper.assembly.symbols = [m.owner.id, o.id] ∧
              ∃ t ∈ m.receiverType? inheritedHelper.assembly.symbols "h",
                inheritedHelper.assembly.symbols.resolve? (TypeName.erase x.type) m.owner.context =
                    inheritedHelper.assembly.symbols.resolve? (TypeName.erase x.type) o.context ∧
                  ∃ j ∈ MethodEntry.firstNamed? inheritedHelper.assembly.symbols
                    (t :: inheritedHelper.assembly.symbols.ancestors t) c, True := by
    decide +kernel
  have hfield := fieldInScope_of_scope hm hnone ho hx hscope
  have hbinds := (hreceiving.binds_iff m "h" o x hfield (by decide)).mpr hsame
  exact ⟨hreceiving, m, hm, o, x, t, j, hfield, hbinds.symm.trans ht, ht,
    hreceiving.calls m hm c hc "h" hcall t ht j hj⟩

/-- A field of another package, and a type with the name of its type next to the calling method. -/
def twoHelpers : Project :=
  ⟨Tree.ofSource?, "app", [
    ("a/Base.java", "package a; public class Base \x7b protected Helper h; \x7d"),
    ("a/Helper.java", "package a; public class Helper \x7b public void run() \x7b\x7d \x7d"),
    ("b/Sub.java", "package b; class Helper \x7b void run() \x7b\x7d \x7d " ++
      "class Sub extends a.Base \x7b void go() \x7b h.run(); \x7d \x7d")]⟩

theorem not_bindsFields_twoHelpers : ¬ twoHelpers.BindsFields := by
  intro h
  obtain ⟨m, hm, c, hc, hcall, hnone, o, ho, x, hx, hscope, hother⟩ :
      ∃ m ∈ twoHelpers.assembly.methods, ∃ c ∈ m.facts.body.calls, c.receiver = .other "h" ∧
        m.owner.facts.fields = [] ∧ ∃ o ∈ twoHelpers.assembly.types,
          ∃ x ∈ o.facts.fields.find? (·.name = "h"),
            m.scope twoHelpers.assembly.symbols = [m.owner.id, o.id] ∧
              m.receiverType? twoHelpers.assembly.symbols "h" ≠
                twoHelpers.assembly.symbols.resolve? (TypeName.erase x.type) o.context := by
    decide +kernel
  exact hother (h m hm c hc "h" hcall o x (fieldInScope_of_scope hm hnone ho hx hscope))

end Project

end Lineage.Java
