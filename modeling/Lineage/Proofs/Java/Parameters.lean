import Lineage.Proofs.Java.Members
/-! # Parameters of declarations

The types that a parameter gives to a signature are erased from the trees of its types, with dots
after them where the number of arguments varies. In the declarations that the sources of a project
hold, these trees are types, and members go by words. Main statement: `Holds.formed`.
-/
namespace Lineage.Java

namespace Tree

variable {P : Tree → Prop}

mutual

theorem All.membersIn {before : List Tree} : ∀ {t : Tree}, t.All P →
    ∀ q ∈ Tree.membersIn before t, q.tree.All P
  | .node k r text a b cs, h => by
    rw [Tree.membersIn]
    split
    · exact all_membersOf cs fun c hc => h.child hc
    · intro q hq
      rw [List.mem_singleton.mp hq]
      exact h

theorem all_membersOf {before : List Tree} : ∀ ts : List Tree, (∀ t ∈ ts, t.All P) →
    ∀ q ∈ membersOf before ts, q.tree.All P
  | [], _ => nofun
  | t :: ts, h => by
    obtain ⟨ht, hts⟩ := List.forall_mem_cons.mp h
    intro q hq
    rcases List.mem_append.mp hq with hq | hq
    · exact ht.membersIn q hq
    · exact all_membersOf ts hts q hq

end

theorem All.members {d : Tree} (h : d.All P) : ∀ q ∈ d.members, q.tree.All P := by
  intro q hq
  obtain ⟨c, hc, hq⟩ := List.mem_flatMap.mp hq
  unfold bodyMembers at hq
  split at hq
  · exact all_membersOf c.children (fun c' hc' => (h.child hc).child hc') q hq
  · cases hq

theorem All.child? {t c : Tree} {x : Role} (h : t.All P) (hc : t.child? x = some c) : c.All P :=
  h.child (List.mem_of_find?_eq_some hc)

theorem All.parameters {t : Tree} (h : t.All P) : ∀ p ∈ t.parameters, p.All P := by
  intro p hp
  unfold Tree.parameters at hp
  cases hc : t.child? .parameters with
  | none => simp [hc] at hp
  | some c =>
    simp only [hc, Option.map_some, Option.getD_some] at hp
    exact (h.child? hc).child (List.mem_filter.mp hp).1

end Tree

theorem Nested.all {P : Tree → Prop} {ts : List Tree} {d : Tree} (h : Nested ts d)
    (hts : ∀ t ∈ ts, t.All P) : d.All P := by
  induction h with
  | here ht _ => exact hts _ ht
  | inner ht _ _ ih =>
    refine ih fun c hc => ?_
    obtain ⟨q, hq, rfl⟩ := List.mem_map.mp hc
    exact (hts _ ht).members q hq

theorem Project.Holds.formed {p : Project} (hparser : p.parser.Reliable) {d : Tree}
    {f : FileFacts} (h : p.Holds d f) : d.All Tree.Formed := by
  obtain ⟨s, -, unit, hunit, hd, -⟩ := h
  exact hd.all (hparser s.2 unit hunit)

theorem Tree.Formed.typeLike {t c : Tree} (h : t.Formed) (hk : t.kind.isDeclaration = true)
    (hc : t.child? .type = some c) : c.TypeLike :=
  (h.declared hk c (List.mem_of_find?_eq_some hc)).type (by simpa using List.find?_some hc)

theorem isDeclaration_of_isCallable {k : Kind} (h : k.isCallable) : k.isDeclaration = true := by
  revert h
  cases k <;> simp [Kind.isCallable, Kind.isDeclaration]

theorem isDeclaration_of_isVariables {k : Kind} (h : k.isVariables) : k.isDeclaration = true := by
  revert h
  cases k <;> simp [Kind.isVariables, Kind.isDeclaration]

theorem isWord_of_nameOf? {u : Tree} (hu : u.Formed) (hk : u.kind.isDeclaration = true)
    {name : String} (h : Extract.nameOf? u = some name) : IsWord name := by
  obtain ⟨c, hc, rfl⟩ := Option.map_eq_some_iff.mp h
  exact (hu.declared hk c (List.mem_of_find?_eq_some hc)).name (by simpa using List.find?_some hc)

/-! ## Types of parameters -/

namespace Tree

def typesOf (p : Tree) : List Tree :=
  match p.kind with
  | .formalParameter => (p.child? .type).toList
  | .spreadParameter => p.named.filter fun q => q.kind ≠ .modifiers ∧ q.kind ≠ .variableDeclarator
  | _ => []

/-- What is written after the type where the number of arguments varies. -/
def dots (p : Tree) : String := if p.kind = .spreadParameter then "..." else ""

theorem paramTypes_eq (p : Tree) :
    Extract.paramTypes p = p.typesOf.map fun t => TypeName.erase t.text ++ p.dots := by
  unfold Extract.paramTypes typesOf dots
  split
  · rename_i hk
    cases p.child? .type <;> simp [hk]
  · rename_i hk
    simp [hk]
  · split <;> simp_all

end Tree

end Lineage.Java
