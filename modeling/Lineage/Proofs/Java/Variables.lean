import Lineage.Java.Grammar
import Lineage.Proofs.Java.FieldEdges
import Lineage.Proofs.Java.Members
import Lineage.Proofs.Java.Mentions
/-! # Variables and fields of one name

A parameter, a local variable, and a variable of a loop, a handler or a lambda hides the field of its
name: only accesses to the object's own field count as uses of the name then. Resources, variables of
patterns and the parameters that a compact constructor takes over from its record hide nothing. Main
statement: `tellsApart_project`.
-/
namespace Lineage.Java

namespace Spot

/-- A resource or a variable of a pattern is declared here. -/
def IsBinding (s : Spot) : Prop :=
  s.tree.kind = .identifier ∧
    (s.parent = .resource ∧ s.tree.role = some .name ∨ s.parent = .typePattern ∨
      s.parent = .recordPatternComponent ∨
      s.parent = .instanceofExpression ∧ s.before.isEmpty = false)

instance (s : Spot) : Decidable s.IsBinding := inferInstanceAs (Decidable (_ ∧ _))

/-- The name of such a variable is taken for a value. -/
theorem IsBinding.bare? {s : Spot} (h : s.IsBinding) : s.bare? = some s.tree.text := by
  obtain ⟨hk, h⟩ := h
  have hvalue : Extract.isValue s.parent s.tree.role = true := by
    rcases h with ⟨h, -⟩ | h | h | ⟨h, -⟩ <;> rw [h] <;> rfl
  simp [Spot.bare?, hk, hvalue]

end Spot

namespace Tree

/-- A variable of the method `u` of the type `d`. -/
inductive HasVariable (u d : Tree) (x : String) : Prop
  | introduced (h : u.Introduces x)
  | component (hk : u.kind = .compactConstructorDeclaration) (hx : x ∈ d.parameterNames)
  | bound {s : Spot} (hs : s ∈ u.spots) (hb : s.IsBinding) (hx : s.tree.text = x)

def OwnOnly (u : Tree) (x : String) (us : List FieldUse) : Prop :=
  usesOf x us = u.spots.flatMap fun s => usesOf x s.ownUses

/-- Some other declaration of a variable's name hides the field where the variable's own does not. -/
structure Veiled (u d : Tree) : Prop where
  bindings : ∀ s ∈ u.spots, s.IsBinding → u.Introduces s.tree.text ∨ u.Encloses s.tree.text
  components : u.kind = .compactConstructorDeclaration → ∀ x ∈ d.parameterNames,
    u.Introduces x ∨ u.Encloses x ∨ ∀ s ∈ u.spots, s.bare? ≠ some x

/-- Neither resources nor variables of patterns, and no parameters taken over from a record. -/
structure Explicit (u : Tree) : Prop where
  kind : u.kind ≠ .compactConstructorDeclaration
  bindings : ∀ s ∈ u.spots, ¬s.IsBinding

instance (u : Tree) : Decidable u.Explicit :=
  decidable_of_iff (u.kind ≠ .compactConstructorDeclaration ∧ ∀ s ∈ u.spots, ¬s.IsBinding)
    ⟨fun h => ⟨h.1, h.2⟩, fun h => ⟨h.kind, h.bindings⟩⟩

theorem Explicit.introduces {u d : Tree} {x : String} (h : u.Explicit) (hx : u.HasVariable d x) :
    u.Introduces x := by
  cases hx with
  | introduced hx => exact hx
  | component hk _ => exact absurd hk h.kind
  | bound hs hb _ => exact absurd hb (h.bindings _ hs)

theorem Explicit.veiled {u : Tree} (h : u.Explicit) (d : Tree) : u.Veiled d where
  bindings s hs hb := absurd hb (h.bindings s hs)
  components hk := absurd hk h.kind

end Tree

section Uses
variable {d u : Tree} {x : String}

theorem usesOf_bareUses_eq_nil_iff (s : Spot) (x : String) :
    usesOf x s.bareUses = [] ↔ s.bare? ≠ some x := by
  unfold usesOf Spot.bareUses
  cases s.bare? <;> simp

/-- What is said twice at one place makes the whole longer. -/
theorem length_flatMap_lt {α β : Type} {f g : α → List β} {xs : List α} {a : α} (ha : a ∈ xs)
    (hg : g a ≠ []) : (xs.flatMap f).length < (xs.flatMap fun x => f x ++ g x).length := by
  have hle : ∀ ys : List α,
      (ys.flatMap f).length ≤ (ys.flatMap fun x => f x ++ g x).length := by
    intro ys
    induction ys with
    | nil => simp
    | cons y ys ih =>
      simp only [List.flatMap_cons, List.length_append]
      omega
  induction xs with
  | nil => cases ha
  | cons y ys ih =>
    simp only [List.flatMap_cons, List.length_append]
    rcases List.mem_cons.mp ha with rfl | ha
    · have hpos := List.length_pos_iff.mpr hg
      have hrest := hle ys
      omega
    · have hrest := ih ha
      omega

variable {before : List Tree} {ownerName : String} {found : List FieldFacts}

theorem ownOnly_iff : u.OwnOnly x (Extract.method before ownerName found u).body.fieldUses ↔
    u.Introduces x ∨ u.Encloses x ∨ ∀ s ∈ u.spots, s.bare? ≠ some x := by
  rw [Tree.OwnOnly, usesOf_method, ← or_assoc, ← Tree.mem_hidden_iff]
  by_cases hx : x ∈ u.hidden
  · simp [hx]
  · simp only [hx, if_false, false_or]
    constructor
    · intro h s hs hbare
      have hlt := length_flatMap_lt (f := fun s => usesOf x s.ownUses) (g := fun s =>
        usesOf x s.bareUses) hs fun he => (usesOf_bareUses_eq_nil_iff s x).mp he hbare
      rw [h] at hlt
      exact absurd hlt (Nat.lt_irrefl _)
    · intro h
      refine (List.flatMap_congr fun s hs => ?_).symm
      rw [(usesOf_bareUses_eq_nil_iff s x).mpr (h s hs), List.append_nil]

theorem ownOnly_of_introduces (h : u.Introduces x) :
    u.OwnOnly x (Extract.method before ownerName found u).body.fieldUses :=
  ownOnly_iff.mpr (.inl h)

/-- All variables of a method are told from fields if and only if those of patterns, resources and
record headers are hidden by others. -/
theorem forall_ownOnly_iff (d : Tree) : (∀ x, u.HasVariable d x →
    u.OwnOnly x (Extract.method before ownerName found u).body.fieldUses) ↔ u.Veiled d := by
  simp only [ownOnly_iff]
  constructor
  · intro h
    refine ⟨fun s hs hb => ?_, fun hk x hx => h x (.component hk hx)⟩
    rcases h _ (.bound hs hb rfl) with hx | hx | hx
    · exact .inl hx
    · exact .inr hx
    · -- the declaring name itself is a mention, so the name cannot be without any
      exact absurd hb.bare? (hx s hs)
  · intro h x hx
    cases hx with
    | introduced hx => exact .inl hx
    | component hk hx => exact h.components hk x hx
    | bound hs hb hx =>
      subst hx
      exact (h.bindings _ hs hb).imp_right .inl

end Uses

/-! ## Projects -/

namespace Spot

/-- The name is used here: as a field of the object itself, or bare and for no variable. -/
def Uses (u : Tree) (s : Spot) (x : String) : Prop :=
  s.own? = some x ∨ s.bare? = some x ∧ ¬ u.Introduces x

end Spot

theorem exists_uses_of_mem {before : List Tree} {ownerName : String} {found : List FieldFacts}
    {u : Tree} {y : FieldUse} (h : y ∈ (Extract.method before ownerName found u).body.fieldUses) :
    ∃ s ∈ u.spots, s.Uses u y.name ∧ (y.write ↔ s.IsTarget) := by
  have hmem : y ∈ usesOf y.name (Extract.method before ownerName found u).body.fieldUses :=
    List.mem_filter.mpr ⟨h, by simp⟩
  rw [usesOf_method] at hmem
  obtain ⟨s, hs, hmem⟩ := List.mem_flatMap.mp hmem
  refine ⟨s, hs, ?_⟩
  rcases List.mem_append.mp hmem with hown | hbare
  · obtain ⟨x, hx, rfl⟩ := List.mem_map.mp (List.mem_filter.mp hown).1
    exact ⟨.inl (Option.mem_toList.mp hx), by simp⟩
  · split at hbare
    · cases hbare
    · rename_i hhidden
      obtain ⟨x, hx, rfl⟩ := List.mem_map.mp (List.mem_filter.mp hbare).1
      refine ⟨.inr ⟨Option.mem_toList.mp hx, fun hi => hhidden ?_⟩, by simp⟩
      exact Tree.mem_hidden_iff.mpr (.inl hi)

namespace Project

/-- No variable of a method is taken for a field. -/
def VariablesHide (p : Project) : Prop :=
  ∀ d q f t m, p.Finds d q f t m → ∀ x, q.tree.HasVariable d x → q.tree.OwnOnly x m.body.fieldUses

/-- What hides the fields of its name, and what is read and written then. -/
structure TellsApart (p : Project) : Prop where
  found : ∀ d f, p.Holds d f → ∀ q ∈ d.members, q.tree.kind.isCallable → ∃ t m, p.Finds d q f t m
  introduced : ∀ d q f t m, p.Finds d q f t m → ∀ x, q.tree.Introduces x →
    q.tree.OwnOnly x m.body.fieldUses
  all_iff : ∀ d q f t m, p.Finds d q f t m →
    ((∀ x, q.tree.HasVariable d x → q.tree.OwnOnly x m.body.fieldUses) ↔ q.tree.Veiled d)
  edges : ∀ e ∈ p.graph.edges, e.kind.isUse → ∃ d q f t m, p.Finds d q f t m ∧
    (∃ n ∈ p.graph.nodes, n.id = e.source ∧ n.renumber ⟨0⟩ = Assembly.methodNode f.path t m) ∧
    ∃ n ∈ p.graph.nodes, n.id = e.target ∧ n.kind = .field ∧
      ∃ s ∈ q.tree.spots, s.Uses q.tree n.name ∧ (e.kind = .writes ↔ s.IsTarget)

theorem tellsApart_project (p : Project) : p.TellsApart where
  found d f h q hq hc := exists_finds h hq hc
  introduced d q f t m h x hx := by
    obtain ⟨-, found, rfl⟩ := h.reflects
    exact ownOnly_of_introduces hx
  all_iff d q f t m h := by
    obtain ⟨-, found, rfl⟩ := h.reflects
    exact forall_ownOnly_iff d
  edges e he hk := by
    obtain ⟨f, t, m, y, huse⟩ := exists_use p.name p.files he hk
    obtain ⟨d, q, hfinds⟩ := finds_of_mem huse.file huse.type huse.method
    obtain ⟨n, hn, hid, hkind, hname⟩ := huse.target
    refine ⟨d, q, f, t, m, hfinds, huse.source, n, hn, hid, hkind, ?_⟩
    obtain ⟨-, found, rfl⟩ := hfinds.reflects
    obtain ⟨s, hs, huses, htarget⟩ := exists_uses_of_mem huse.use
    refine ⟨s, hs, hname ▸ huses, ?_⟩
    rw [huse.kind, ← htarget]
    cases y.write <;> simp

def shadowed : Project :=
  ⟨Tree.ofSource?, "app", [("A.java",
    "class A \x7b int n, k; void f(int n) \x7b this.n = n; k = n; \x7d \x7d")]⟩

theorem tellsApart_shadowed : shadowed.TellsApart ∧
    (∃ d q f t m, shadowed.Finds d q f t m ∧ q.tree.Introduces "n" ∧ q.tree.Veiled d ∧
      m.body.fieldUses = [⟨"n", true⟩, ⟨"k", true⟩]) ∧
    ∃ e ∈ shadowed.graph.edges, e.kind.isUse := by
  have htells := tellsApart_project shadowed
  obtain ⟨source, hsource, unit, hunit, d, hd, htype, q, hq, hc, hn, hexplicit⟩ :
      ∃ source ∈ shadowed.sources, ∃ unit ∈ shadowed.parser source.2,
        ∃ d ∈ unit.children, d.IsType ∧ ∃ q ∈ d.members, q.tree.kind.isCallable ∧
          "n" ∈ q.tree.parameterNames ∧ q.tree.Explicit := by
    decide +kernel
  obtain ⟨t, m, hfinds⟩ :=
    htells.found d _ ⟨source, hsource, unit, hunit, .here hd htype, rfl⟩ q hq hc
  have huses : ∀ f ∈ shadowed.files, ∀ t ∈ f.types, ∀ m ∈ t.methods,
      m.body.fieldUses = [⟨"n", true⟩, ⟨"k", true⟩] := by
    decide +kernel
  exact ⟨htells, ⟨d, q, _, t, m, hfinds, .inl hn, hexplicit.veiled d,
    huses _ hfinds.holds.mem_files t hfinds.type m hfinds.method⟩, by decide +kernel⟩

def patternVariable : Project :=
  ⟨Tree.ofSource?, "app", [("A.java",
    "class A \x7b String s; int f(Object o) \x7b " ++
      "return o instanceof String s ? s.length() : 0; \x7d \x7d")]⟩

theorem not_variablesHide_patternVariable : ¬ patternVariable.VariablesHide := by
  intro h
  obtain ⟨source, hsource, unit, hunit, d, hd, htype, q, hq, hc, s, hs, hb, hname⟩ :
      ∃ source ∈ patternVariable.sources, ∃ unit ∈ patternVariable.parser source.2,
        ∃ d ∈ unit.children, d.IsType ∧ ∃ q ∈ d.members, q.tree.kind.isCallable ∧
          ∃ s ∈ q.tree.spots, s.IsBinding ∧ s.tree.text ∉ q.tree.hidden := by
    decide +kernel
  obtain ⟨t, m, hfinds⟩ :=
    exists_finds ⟨source, hsource, unit, hunit, .here hd htype, rfl⟩ hq hc
  have hall := h d q _ t m hfinds
  obtain ⟨-, found, rfl⟩ := hfinds.reflects
  have hveiled := ((forall_ownOnly_iff d).mp hall).bindings s hs hb
  exact hname (Tree.mem_hidden_iff.mpr hveiled)

end Project

end Lineage.Java
