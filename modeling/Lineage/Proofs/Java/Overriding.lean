import Lineage.Java.Grammar
import Lineage.Proofs.Java.Ancestors
import Lineage.Proofs.Java.Entries
import Mathlib.Logic.Relation
/-! # What methods override

A method of objects that subtypes see is linked to the nearest method above its type with the same
name and parameter types. Whether that one can be overridden is not asked: a private or static
method receives the edge and hides an overridable one that is farther away. Main statements:
`mem_overrideEdges_iff`, `overriding_project`.
-/
namespace Lineage.Java

/-- Methods of objects that subtypes see. -/
def MethodFacts.Overridable (m : MethodFacts) : Prop :=
  m.isConstructor = false ∧ "static" ∉ Text.words m.modifiers ∧ "private" ∉ Text.words m.modifiers

instance (m : MethodFacts) : Decidable m.Overridable := inferInstanceAs (Decidable (_ ∧ _))

theorem MethodEntry.canOverride_iff (m : MethodFacts) : canOverride m = true ↔ m.Overridable := by
  simp only [canOverride, MethodFacts.Overridable, Bool.and_eq_true, Bool.not_eq_true',
    List.any_eq_false, Bool.or_eq_true, decide_eq_true_eq, not_or]
  grind

namespace Assembly

/-- A type declares a method with a tail that fits. -/
structure Declares (a : Assembly) (fits : MethodFacts → Prop) (tail : String) (i : NodeId)
    (m : MethodEntry) : Prop where
  mem : m ∈ a.methods
  owner : m.owner.id = i
  tail : m.facts.tail = tail
  fits : fits m.facts

/-- The nearest type above a method's type that declares a method with its tail that fits. -/
def NearestAbove (a : Assembly) (fits : MethodFacts → Prop) (m m' : MethodEntry) : Prop :=
  ∃ nearer i farther, a.symbols.ancestors m.owner.id = nearer ++ i :: farther ∧
    a.Declares fits m.facts.tail i m' ∧ ∀ j ∈ nearer, ∀ x, ¬ a.Declares fits m.facts.tail j x

section Nearest
variable {files : List FileFacts} {a : Assembly} {fits fits' : MethodFacts → Prop}
  {m m' m'' : MethodEntry}

theorem NearestAbove.mono (h : a.NearestAbove fits m m') (hfits : ∀ x, fits' x → fits x)
    (hm' : fits' m'.facts) : a.NearestAbove fits' m m' := by
  obtain ⟨nearer, i, farther, heq, hdeclares, hnearer⟩ := h
  exact ⟨nearer, i, farther, heq, { hdeclares with fits := hm' }, fun j hj x hx =>
    hnearer j hj x { hx with fits := hfits _ hx.fits }⟩

theorem NearestAbove.declares (h : a.NearestAbove fits m m') :
    a.Declares fits m.facts.tail m'.owner.id m' := by
  obtain ⟨_, _, _, _, hdeclares, _⟩ := h
  exact hdeclares.owner ▸ hdeclares

theorem NearestAbove.mem_ancestors (h : a.NearestAbove fits m m') :
    m'.owner.id ∈ a.symbols.ancestors m.owner.id := by
  obtain ⟨_, _, _, heq, hdeclares, _⟩ := h
  rw [heq, hdeclares.owner]
  exact List.mem_append_cons_self

open Classical in
theorem NearestAbove.find?_eq (h : a.NearestAbove fits m m') :
    (a.symbols.ancestors m.owner.id).find? (fun i => ∃ x, a.Declares fits m.facts.tail i x) =
      some m'.owner.id := by
  obtain ⟨nearer, i, farther, heq, hdeclares, hnearer⟩ := h
  refine List.find?_eq_some_iff_append.mpr ⟨by simpa using ⟨m', hdeclares.owner ▸ hdeclares⟩,
    nearer, farther, by rw [heq, hdeclares.owner], fun j hj => ?_⟩
  simpa using hnearer j hj

theorem exists_nearestAbove {i : NodeId} (hi : i ∈ a.symbols.ancestors m.owner.id)
    (h : a.Declares fits m.facts.tail i m') : ∃ x, a.NearestAbove fits m x := by
  classical
  have hsome : ((a.symbols.ancestors m.owner.id).find? fun i =>
      ∃ x, a.Declares fits m.facts.tail i x).isSome :=
    List.find?_isSome.mpr ⟨i, hi, by simpa using ⟨m', h⟩⟩
  obtain ⟨j, hj⟩ := Option.isSome_iff_exists.mp hsome
  obtain ⟨hdeclares, nearer, farther, heq, hnearer⟩ := List.find?_eq_some_iff_append.mp hj
  obtain ⟨x, hx⟩ := of_decide_eq_true hdeclares
  exact ⟨x, nearer, j, farther, heq, hx, by simpa using hnearer⟩

variable (hlisted : Listed files a) (hids : (a.types.map (·.id)).Nodup)
include hlisted hids

theorem NearestAbove.unique (h : a.NearestAbove fits m m') (h' : a.NearestAbove fits m m'') :
    m' = m'' := by
  have howner : m'.owner.id = m''.owner.id := by
    classical
    exact Option.some.inj (h.find?_eq.symm.trans h'.find?_eq)
  exact List.inj_on_of_nodup_map (hlisted.nodup_tails hids) h.declares.mem h'.declares.mem
    (Prod.ext howner (h.declares.tail.trans h'.declares.tail.symm))

/-- A method that can override leads to the nearest method above that is no constructor. -/
theorem mem_overrideEdges_iff {t : Triple} : t ∈ m.overrideEdges a.symbols ↔ m.facts.Overridable ∧
    ∃ m', a.NearestAbove (·.isConstructor = false) m m' ∧ t = ⟨m.id, .overrides, m'.id⟩ := by
  have hsome : ∀ {i j}, a.symbols.methodWithTail? i m.facts.tail = some j ↔
      ∃ m', a.Declares (·.isConstructor = false) m.facts.tail i m' ∧ m'.id = j := by
    intro i j
    rw [hlisted.methodWithTail?_eq_some_iff hids]
    exact exists_congr fun x => ⟨fun ⟨hmem, ho, ht, hc, hid⟩ => ⟨⟨hmem, ho, ht, hc⟩, hid⟩,
      fun ⟨hx, hid⟩ => ⟨hx.mem, hx.owner, hx.tail, hx.fits, hid⟩⟩
  have hnone : ∀ {i}, a.symbols.methodWithTail? i m.facts.tail = none ↔
      ∀ x, ¬ a.Declares (·.isConstructor = false) m.facts.tail i x := by
    intro i
    rw [Option.eq_none_iff_forall_ne_some]
    simp only [ne_eq, hsome, not_exists, not_and]
    exact ⟨fun h x hx => h _ x hx rfl, fun h _ x hx _ => h x hx⟩
  unfold MethodEntry.overrideEdges
  by_cases hcan : m.facts.Overridable
  · rw [if_pos ((MethodEntry.canOverride_iff _).mpr hcan), Option.mem_toList,
      Option.map_eq_some_iff, and_iff_right hcan]
    simp only [List.findSome?_eq_some_iff, hsome, hnone, NearestAbove]
    constructor
    · rintro ⟨-, ⟨nearer, i, farther, heq, ⟨m', hm', rfl⟩, hnearer⟩, rfl⟩
      exact ⟨m', ⟨nearer, i, farther, heq, hm', hnearer⟩, rfl⟩
    · rintro ⟨m', ⟨nearer, i, farther, heq, hm', hnearer⟩, rfl⟩
      exact ⟨m'.id, ⟨nearer, i, farther, heq, ⟨m', hm', rfl⟩, hnearer⟩, rfl⟩
  · rw [if_neg (fun h => hcan ((MethodEntry.canOverride_iff _).mp h))]
    simp [hcan]

end Nearest

end Assembly

namespace Project

def Extends (p : Project) (i j : NodeId) : Prop :=
  ∃ k : EdgeKind, k.isSupertype = true ∧ ⟨i, k, j⟩ ∈ p.graph.triples

/-- Edges lead from what can override to the nearest method above that can be overridden. -/
def OverridesOverridable (p : Project) : Prop :=
  ∀ t : Triple, t.kind = .overrides → (t ∈ p.graph.triples ↔ ∃ m ∈ p.assembly.methods,
    m.facts.Overridable ∧ ∃ m', p.assembly.NearestAbove MethodFacts.Overridable m m' ∧
      t = ⟨m.id, .overrides, m'.id⟩)

/-- Where edges between methods and the methods they override lead. -/
structure Overriding (p : Project) : Prop where
  types : ∀ t ∈ p.assembly.types, ∃ f ∈ p.files, t.facts ∈ f.types ∧
    StandsFor p.graph.nodes t.id (Assembly.typeNode f t.facts)
  methods : ∀ m ∈ p.assembly.methods, m.owner ∈ p.assembly.types ∧
    m.facts ∈ m.owner.facts.methods ∧ ∃ f ∈ p.files, m.owner.facts ∈ f.types ∧
      StandsFor p.graph.nodes m.id (Assembly.methodNode f.path m.owner.facts m.facts)
  above : ∀ i j, j ∈ p.assembly.symbols.ancestors i ↔ j ≠ i ∧ Relation.TransGen p.Extends i j
  edges : ∀ t : Triple, t.kind = .overrides → (t ∈ p.graph.triples ↔ ∃ m ∈ p.assembly.methods,
    m.facts.Overridable ∧ ∃ m', p.assembly.NearestAbove (·.isConstructor = false) m m' ∧
      t = ⟨m.id, .overrides, m'.id⟩)
  one : ∀ i j k, ⟨i, .overrides, j⟩ ∈ p.graph.triples → ⟨i, .overrides, k⟩ ∈ p.graph.triples → j = k
  /-- Nothing is hidden if and only if the nearest method can always be overridden. -/
  all_iff : p.OverridesOverridable ↔ ∀ m ∈ p.assembly.methods, m.facts.Overridable → ∀ m',
    p.assembly.NearestAbove (·.isConstructor = false) m m' → m'.facts.Overridable

section Overriding
variable (p : Project)

theorem mem_supertypes_iff {i j : NodeId} :
    (i, j) ∈ p.assembly.symbols.supertypes ↔ p.Extends i j := by
  rw [p.listed_assembly.supertypes]
  exact exists_congr fun k => and_congr_right fun hk =>
    (Assembly.mem_triples_iff_of_not_leaves p.name p.files
      (EdgeKind.leavesMethods_of_isSupertype hk)).symm

theorem climbs_iff_transGen {i j : NodeId} :
    (∃ n, p.assembly.symbols.Climbs i (n + 1) j) ↔ Relation.TransGen p.Extends i j := by
  constructor
  · rintro ⟨n, h⟩
    induction n generalizing j with
    | zero =>
      cases h with
      | up h hu =>
        obtain rfl := Symbols.climbs_zero_iff.mp h
        exact .single (p.mem_supertypes_iff.mp hu)
    | succ n ih =>
      cases h with
      | up h hu => exact (ih h).tail (p.mem_supertypes_iff.mp hu)
  · intro h
    induction h with
    | single h => exact ⟨0, .up .here (p.mem_supertypes_iff.mpr h)⟩
    | tail _ h ih =>
      obtain ⟨n, hn⟩ := ih
      exact ⟨n + 1, hn.up (p.mem_supertypes_iff.mpr h)⟩

theorem mem_overrides_iff {t : Triple} (hk : t.kind = .overrides) :
    t ∈ p.graph.triples ↔ ∃ m ∈ p.assembly.methods, t ∈ m.overrideEdges p.assembly.symbols := by
  have hleaves : t.kind.leavesMethods = true := by rw [hk]; rfl
  refine (Assembly.mem_triples_iff_of_leaves p.name p.files hleaves).trans ?_
  refine exists_congr fun m => and_congr_right fun _ => ⟨fun h => ?_, fun h => ?_⟩
  · exact MethodEntry.mem_overrideEdges h hk
  · exact MethodEntry.mem_edges_iff.mpr (.inl (.inr h))

theorem mem_overrides_iff_nearest {t : Triple} (hk : t.kind = .overrides) :
    t ∈ p.graph.triples ↔ ∃ m ∈ p.assembly.methods, m.facts.Overridable ∧
      ∃ m', p.assembly.NearestAbove (·.isConstructor = false) m m' ∧
        t = ⟨m.id, .overrides, m'.id⟩ := by
  rw [p.mem_overrides_iff hk]
  simp only [Assembly.mem_overrideEdges_iff p.listed_assembly p.nodup_typeIds_assembly]

/-- From one method at most one edge leads to a method that it overrides. -/
theorem eq_of_mem_overrides {i j k : NodeId} (hj : ⟨i, .overrides, j⟩ ∈ p.graph.triples)
    (hk : ⟨i, .overrides, k⟩ ∈ p.graph.triples) : j = k := by
  have hlisted := p.listed_assembly
  obtain ⟨m, hm, -, x, hx, hmx⟩ := (p.mem_overrides_iff_nearest rfl).mp hj
  obtain ⟨n, hn, -, y, hy, hny⟩ := (p.mem_overrides_iff_nearest rfl).mp hk
  obtain ⟨hi, -, rfl⟩ := Triple.mk.inj hmx
  obtain ⟨hi', -, rfl⟩ := Triple.mk.inj hny
  obtain rfl := List.inj_on_of_nodup_map hlisted.nodup_methodIds hm hn (hi.symm.trans hi')
  rw [hx.unique hlisted p.nodup_typeIds_assembly hy]

theorem overridesOverridable_iff : p.OverridesOverridable ↔ ∀ m ∈ p.assembly.methods,
    m.facts.Overridable → ∀ m', p.assembly.NearestAbove (·.isConstructor = false) m m' →
      m'.facts.Overridable := by
  have hlisted := p.listed_assembly
  have hsome : ∀ x : MethodFacts, x.Overridable → x.isConstructor = false := fun _ hx => hx.1
  constructor
  · intro h m hm hover m' hm'
    have hedge := (p.mem_overrides_iff_nearest rfl).mpr ⟨m, hm, hover, m', hm', rfl⟩
    obtain ⟨n, hn, -, n', hn', heq⟩ := (h _ rfl).mp hedge
    obtain ⟨-, -, hid⟩ := Triple.mk.inj heq
    rw [List.inj_on_of_nodup_map hlisted.nodup_methodIds hm'.declares.mem hn'.declares.mem hid]
    exact hn'.declares.fits
  · intro h t hk
    rw [p.mem_overrides_iff_nearest hk]
    refine exists_congr fun m => and_congr_right fun hm => and_congr_right fun hover =>
      exists_congr fun m' => and_congr_left fun _ => ⟨fun hm' => ?_, fun hm' => ?_⟩
    · exact hm'.mono hsome (h m hm hover m' hm')
    · -- the nearest method of all can be overridden, so it is the nearest one of these
      have hdeclares : p.assembly.Declares (·.isConstructor = false) m.facts.tail m'.owner.id m' :=
        { hm'.declares with fits := hsome _ hm'.declares.fits }
      obtain ⟨x, hx⟩ := Assembly.exists_nearestAbove hm'.mem_ancestors hdeclares
      have hnearest := hx.mono hsome (h m hm hover x hx)
      rwa [hm'.unique hlisted p.nodup_typeIds_assembly hnearest]

theorem overriding_project : p.Overriding where
  types t ht := by
    obtain ⟨f, hf, hnode, _, hinside, _⟩ := p.listed_assembly.entries t ht
    refine ⟨f, hf, hinside.mem_types, ?_⟩
    rwa [graph, Assembly.nodes_graph]
  methods m hm := by
    obtain ⟨f, hf, ht, hfacts, hnode⟩ :=
      (Assembly.registered_linked p.name p.files).methods m hm
    refine ⟨p.listed_assembly.owner_mem hm, hfacts, f, hf, ht, ?_⟩
    rwa [graph, Assembly.nodes_graph]
  above i j := by
    rw [Symbols.mem_ancestors_iff, p.climbs_iff_transGen]
  edges _ hk := p.mem_overrides_iff_nearest hk
  one _ _ _ hj hk := p.eq_of_mem_overrides hj hk
  all_iff := p.overridesOverridable_iff

end Overriding

def overridden : Project :=
  ⟨Tree.ofSource?, "app", [("A.java", "class A \x7b void f() \x7b\x7d \x7d " ++
    "class B extends A \x7b void f() \x7b\x7d void g() \x7b\x7d \x7d")]⟩

theorem overriding_overridden : overridden.Overriding ∧ overridden.OverridesOverridable ∧
    ∃ m ∈ overridden.assembly.methods, m.facts.Overridable ∧
      ∃ m', overridden.assembly.NearestAbove (·.isConstructor = false) m m' ∧
        ⟨m.id, .overrides, m'.id⟩ ∈ overridden.graph.triples := by
  have hoverriding := overriding_project overridden
  obtain ⟨hall, n, hn, e, he, hk⟩ : (∀ m ∈ overridden.assembly.methods, m.facts.Overridable) ∧
      ∃ n ∈ overridden.assembly.methods, ∃ e ∈ n.overrideEdges overridden.assembly.symbols,
        e.kind = .overrides := by
    decide +kernel
  have hedge : e ∈ overridden.graph.triples := (overridden.mem_overrides_iff hk).mpr ⟨n, hn, he⟩
  obtain ⟨m, hm, hover, m', hm', rfl⟩ := (hoverriding.edges e hk).mp hedge
  exact ⟨hoverriding, hoverriding.all_iff.mpr fun _ _ _ m' hm' => hall m' hm'.declares.mem,
    m, hm, hover, m', hm', hedge⟩

def privateAbove : Project :=
  ⟨Tree.ofSource?, "app", [("A.java", "interface I \x7b void f(); \x7d " ++
    "class A \x7b private void f() \x7b\x7d \x7d " ++
    "class B extends A implements I \x7b public void f() \x7b\x7d \x7d")]⟩

theorem not_overridesOverridable_privateAbove : ¬ privateAbove.OverridesOverridable := by
  intro h
  obtain ⟨m, hm, m', hm', hedge, hover⟩ : ∃ m ∈ privateAbove.assembly.methods,
      ∃ m' ∈ privateAbove.assembly.methods,
        ⟨m.id, .overrides, m'.id⟩ ∈ m.overrideEdges privateAbove.assembly.symbols ∧
          ¬ m'.facts.Overridable := by
    decide +kernel
  obtain ⟨n, -, -, n', hn', heq⟩ :=
    (h _ rfl).mp ((privateAbove.mem_overrides_iff rfl).mpr ⟨m, hm, hedge⟩)
  obtain ⟨-, -, hid⟩ := Triple.mk.inj heq
  have hsame := List.inj_on_of_nodup_map privateAbove.listed_assembly.nodup_methodIds hm'
    hn'.declares.mem hid
  exact hover (hsame ▸ hn'.declares.fits)

end Project

end Lineage.Java
