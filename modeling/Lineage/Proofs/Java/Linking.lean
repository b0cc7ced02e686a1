import Lineage.Proofs.Java.Filing
import Mathlib.Data.Option.Basic
/-! # Linking declarations

Names are resolved to what is registered: type references to types, calls to methods, uses to fields.
So what is linked joins declarations of the right kinds. Main statements: `leaves_edges`,
`Sound.linkTypes`, `Sound.linkMethods`.
-/
namespace Lineage.Java

namespace Symbols

/-! ## What names resolve to -/

def IsType (s : Symbols) (i : NodeId) : Prop := ∃ e ∈ s.types, e.2 = i

def IsMethod (s : Symbols) (i : NodeId) : Prop := ∃ e ∈ s.methods, e.2.id = i

def IsField (s : Symbols) (i : NodeId) : Prop := ∃ e ∈ s.fields, e.2.id = i

variable {s : Symbols} {i owner : NodeId}

theorem isType_of_type? {q : String} (h : s.type? q = some i) : s.IsType i :=
  ⟨(q, i), mem_of_lookup_eq_some h, rfl⟩

theorem isType_of_resolveDotted? {name : String} {c : TypeContext}
    (h : s.resolveDotted? name c = some i) : s.IsType i := by
  rcases (Option.orElse_eq_some _ _ _).mp h with h | ⟨-, h⟩
  · exact isType_of_type? h
  · obtain ⟨start, -, h⟩ := List.exists_of_findSome?_eq_some h
    exact isType_of_type? h

theorem isType_of_resolveSimple? {simple : String} {c : TypeContext}
    (h : s.resolveSimple? simple c = some i) : s.IsType i := by
  unfold resolveSimple? at h
  split at h
  · exact isType_of_type? h
  · obtain ⟨q, -, h⟩ := Option.bind_eq_some_iff.mp h
    exact isType_of_type? h

theorem isType_of_resolve? {raw : String} {c : TypeContext} (h : s.resolve? raw c = some i) :
    s.IsType i := by
  rcases (Option.orElse_eq_some _ _ _).mp h with h | ⟨-, h⟩
  · split at h
    · exact isType_of_resolveDotted? h
    · cases h
  · exact isType_of_resolveSimple? h

theorem isMethod_of_mem_methodsOf {m : MethodSymbol} (h : m ∈ s.methodsOf owner) :
    s.IsMethod m.id := by
  obtain ⟨e, he, rfl⟩ := List.mem_map.mp h
  exact ⟨e, (List.mem_filter.mp he).1, rfl⟩

theorem isMethod_of_mem_filter {p : MethodSymbol → Bool}
    (h : i ∈ ((s.methodsOf owner).filter p).map (·.id)) : s.IsMethod i := by
  obtain ⟨m, hm, rfl⟩ := List.mem_map.mp h
  exact isMethod_of_mem_methodsOf (List.mem_filter.mp hm).1

theorem isMethod_of_methodWithTail? {tail : String} (h : s.methodWithTail? owner tail = some i) :
    s.IsMethod i := by
  obtain ⟨m, hm, rfl⟩ := Option.map_eq_some_iff.mp h
  exact isMethod_of_mem_methodsOf (List.mem_of_find?_eq_some hm)

theorem isMethod_of_uniqueMethod? {name : String} {params : Nat}
    (h : s.uniqueMethod? name params = some i) : s.IsMethod i := by
  unfold uniqueMethod? at h
  split at h
  · rename_i only honly
    cases h
    have hmem : only ∈ (s.methods.map (·.2)).filter fun m =>
        !m.isConstructor && m.name = name && m.params = params := by
      rw [honly]
      exact List.mem_cons_self
    obtain ⟨e, he, rfl⟩ := List.mem_map.mp (List.mem_filter.mp hmem).1
    exact ⟨e, he, rfl⟩
  · cases h

theorem isField_of_field? {name : String} {f : FieldSymbol} (h : s.field? owner name = some f) :
    s.IsField f.id := by
  obtain ⟨e, he, rfl⟩ := Option.map_eq_some_iff.mp h
  exact ⟨e, List.mem_of_find?_eq_some he, rfl⟩

end Symbols

namespace MethodEntry

/-- An edge from a method to a method, a field or a type, of a kind that leads there. -/
inductive Leaves (s : Symbols) (m : MethodEntry) : Triple → Prop
  | toMethod {k : EdgeKind} {i : NodeId} (hk : k ∈ [.calls, .overrides, .tests])
    (hi : s.IsMethod i) : Leaves s m ⟨m.id, k, i⟩
  | toField {k : EdgeKind} {i : NodeId} (hk : k ∈ [.reads, .writes]) (hi : s.IsField i) :
    Leaves s m ⟨m.id, k, i⟩
  | toType {k : EdgeKind} {i : NodeId} (hk : k ∈ [.hasParam, .returnType, .throws])
    (hi : s.IsType i) : Leaves s m ⟨m.id, k, i⟩

variable {s : Symbols} {m : MethodEntry} {t : Triple} {i : NodeId}

theorem isMethod_of_firstNamed? {types : List NodeId} {c : Call}
    (h : firstNamed? s types c = some i) : s.IsMethod i := by
  obtain ⟨t, -, h⟩ := List.exists_of_findSome?_eq_some h
  exact Symbols.isMethod_of_mem_filter (List.mem_of_mem_head? h)

theorem isMethod_of_called? {c : Call} (h : m.called? s c = some i) : s.IsMethod i := by
  unfold called? at h
  split at h
  · exact isMethod_of_firstNamed? h
  · exact isMethod_of_firstNamed? h
  · rcases (Option.orElse_eq_some _ _ _).mp h with h | ⟨-, h⟩
    · obtain ⟨t, -, h⟩ := Option.bind_eq_some_iff.mp h
      exact isMethod_of_firstNamed? h
    · exact Symbols.isMethod_of_uniqueMethod? h

theorem leaves_callEdges (h : t ∈ m.callEdges s) : Leaves s m t := by
  obtain ⟨i, hi, rfl⟩ := List.mem_map.mp h
  obtain ⟨c, -, hc⟩ := List.mem_filterMap.mp hi
  exact .toMethod (by simp) (isMethod_of_called? hc)

theorem leaves_creationEdges (h : t ∈ m.creationEdges s) : Leaves s m t := by
  obtain ⟨c, -, hc⟩ := List.mem_filterMap.mp h
  obtain ⟨type, -, hc⟩ := Option.bind_eq_some_iff.mp hc
  obtain ⟨i, hi, hc⟩ := Option.bind_eq_some_iff.mp hc
  cases hc
  exact .toMethod (by simp) (Symbols.isMethod_of_mem_filter (List.mem_of_mem_head? hi))

theorem leaves_fieldEdges (h : t ∈ m.fieldEdges s) : Leaves s m t := by
  obtain ⟨u, -, hu⟩ := List.mem_filterMap.mp h
  obtain ⟨field, hfield, hu⟩ := Option.bind_eq_some_iff.mp hu
  obtain ⟨owner, -, hfield⟩ := List.exists_of_findSome?_eq_some hfield
  cases hu
  refine .toField ?_ (Symbols.isField_of_field? hfield)
  cases u.write <;> simp

theorem leaves_signatureEdges (h : t ∈ m.signatureEdges s) : Leaves s m t := by
  obtain ⟨⟨k, type⟩, hk, ht⟩ := List.mem_filterMap.mp h
  obtain ⟨i, hi, rfl⟩ := Option.map_eq_some_iff.mp ht
  refine .toType ?_ (Symbols.isType_of_resolve? hi)
  simp only [signatureTypes, List.mem_append, List.mem_map, Prod.mk.injEq] at hk
  rcases hk with (⟨-, -, rfl, -⟩ | ⟨-, -, rfl, -⟩) | ⟨-, -, rfl, -⟩ <;> simp

theorem leaves_overrideEdges (h : t ∈ m.overrideEdges s) : Leaves s m t := by
  unfold overrideEdges at h
  split at h
  · obtain ⟨i, hi, rfl⟩ := Option.map_eq_some_iff.mp (Option.mem_toList.mp h)
    obtain ⟨owner, -, hi⟩ := List.exists_of_findSome?_eq_some hi
    exact .toMethod (by simp) (Symbols.isMethod_of_methodWithTail? hi)
  · cases h

theorem isMethod_of_tested? (h : m.tested? s = some i) : s.IsMethod i := by
  obtain ⟨-, -, h⟩ := Option.bind_eq_some_iff.mp h
  obtain ⟨subject, -, h⟩ := Option.bind_eq_some_iff.mp h
  obtain ⟨-, -, h⟩ := Option.bind_eq_some_iff.mp h
  obtain ⟨type, -, h⟩ := Option.bind_eq_some_iff.mp h
  obtain ⟨name, -, h⟩ := List.exists_of_findSome?_eq_some h
  exact Symbols.isMethod_of_mem_filter (List.mem_of_mem_head? h)

theorem leaves_edges (h : t ∈ m.edges s) : Leaves s m t := by
  simp only [edges, List.mem_append] at h
  rcases h with ((((h | h) | h) | h) | h) | h
  · exact leaves_callEdges h
  · exact leaves_creationEdges h
  · exact leaves_fieldEdges h
  · exact leaves_signatureEdges h
  · exact leaves_overrideEdges h
  · obtain ⟨i, hi, rfl⟩ := Option.map_eq_some_iff.mp (Option.mem_toList.mp h)
    exact .toMethod (by simp) (isMethod_of_tested? hi)

end MethodEntry

namespace Assembly

/-! ## Linked assemblies -/

theorem adds_linkSupertype (t : TypeEntry) (a : Assembly) (named : EdgeKind × String) :
    Adds a (linkSupertype t a named) [] [] [] := by
  unfold linkSupertype
  split
  · dsimp only
    split
    · exact .refl a
    · have hlink := adds_link a ⟨t.id, named.1, ‹NodeId›⟩
      exact ⟨hlink.nodes, hlink.names, hlink.packages⟩
  · exact .refl a

theorem adds_linkSupertypes (a : Assembly) (t : TypeEntry) :
    Adds a (linkSupertypes a t) [] [] [] := adds_foldl_nil (adds_linkSupertype t) a _

theorem isSupertype_of_mem_declaredSupertypes {t : TypeFacts} {named : EdgeKind × String}
    (hn : named ∈ declaredSupertypes t) : named.1.isSupertype = true := by
  rcases List.mem_append.mp hn with hn | hn
  all_goals
    obtain ⟨name, -, rfl⟩ := List.mem_map.mp hn
    rfl

variable {a : Assembly} (h : a.Sound)
include h

theorem Sound.kindAt?_of_isType {i : NodeId} (hi : a.symbols.IsType i) :
    kindAt? a.graph.nodes i = some .type := by
  obtain ⟨e, he, rfl⟩ := hi
  exact h.types e he

theorem Sound.joins_of_leaves {m : MethodEntry} (hm : m ∈ a.methods) {t : Triple}
    (ht : m.Leaves a.symbols t) : Joins a.graph.nodes t ∧ t.kind.isContainment = false ∧
      (t.kind.isSupertype → t.source ≠ t.target) := by
  have hsource := h.methodEntries m hm
  cases ht with
  | toMethod hk hi =>
    obtain ⟨e, he, rfl⟩ := hi
    simp only [List.mem_cons, List.not_mem_nil, or_false] at hk
    rcases hk with rfl | rfl | rfl
    all_goals exact ⟨⟨_, _, hsource, h.methods e he, by simp [EdgeKind.ends]⟩, rfl,
      fun hs => by cases hs⟩
  | toField hk hi =>
    obtain ⟨e, he, rfl⟩ := hi
    simp only [List.mem_cons, List.not_mem_nil, or_false] at hk
    rcases hk with rfl | rfl
    all_goals exact ⟨⟨_, _, hsource, h.fields e he, by simp [EdgeKind.ends]⟩, rfl,
      fun hs => by cases hs⟩
  | toType hk hi =>
    have htarget := h.kindAt?_of_isType hi
    simp only [List.mem_cons, List.not_mem_nil, or_false] at hk
    rcases hk with rfl | rfl | rfl
    all_goals exact ⟨⟨_, _, hsource, htarget, by simp [EdgeKind.ends]⟩, rfl, fun hs => by cases hs⟩

theorem Sound.linkMethods :
    (a.linkAll (a.methods.flatMap (MethodEntry.edges a.symbols))).Sound := by
  refine h.linkAll fun t ht => ?_
  obtain ⟨m, hm, ht⟩ := List.mem_flatMap.mp ht
  exact h.joins_of_leaves hm (MethodEntry.leaves_edges ht)

/-- A type's supertype is another type. -/
theorem Sound.linkSupertype {t : TypeEntry} (ht : kindAt? a.graph.nodes t.id = some .type)
    {named : EdgeKind × String} (hk : named.1.isSupertype = true) :
    (Assembly.linkSupertype t a named).Sound := by
  unfold Assembly.linkSupertype
  split
  · rename_i target htarget
    dsimp only
    split
    · exact h
    · rename_i hne
      have hkind := h.kindAt?_of_isType (Symbols.isType_of_resolve? htarget)
      obtain ⟨k, name⟩ := named
      have hends : (NodeKind.type, NodeKind.type) ∈ k.ends ∧ k.isContainment = false := by
        simp only [EdgeKind.isSupertype, Bool.or_eq_true, decide_eq_true_eq] at hk
        rcases hk with rfl | rfl
        all_goals exact ⟨List.mem_cons_self, rfl⟩
      have hlinked := h.link (t := ⟨t.id, k, target⟩) ⟨.type, .type, ht, hkind, hends.1⟩ hends.2
        fun _ he => hne he.symm
      exact hlinked.withSymbols hlinked.types hlinked.methods hlinked.fields
  · exact h

theorem Sound.linkSupertypes {t : TypeEntry} (ht : kindAt? a.graph.nodes t.id = some .type) :
    (Assembly.linkSupertypes a t).Sound :=
  h.foldl (o := fun _ => t.id) (fun a x _ _ hi => (adds_linkSupertype t a x).kindAt? hi)
    (fun _ _ hn h ht => h.linkSupertype ht (isSupertype_of_mem_declaredSupertypes hn)) fun _ _ => ht

theorem Sound.linkTypes : (a.types.foldl Assembly.linkSupertypes a).Sound :=
  h.foldl (o := TypeEntry.id) (fun a t _ _ hi => (adds_linkSupertypes a t).kindAt? hi)
    (fun _ _ _ h ht => h.linkSupertypes ht) h.typeEntries

end Assembly

end Lineage.Java
