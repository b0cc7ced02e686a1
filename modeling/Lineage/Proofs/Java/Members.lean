import Lineage.Proofs.Java.Contents
import Lineage.Proofs.Java.Isolation
/-! # Methods of a project

Every method and constructor that the sources of a project declare is found in its type, and nothing
else is. Main statements: `exists_finds`, `finds_of_mem`.
-/
namespace Lineage.Java.Project

/-- A type declaration stands in the source of a file. -/
def Holds (p : Project) (d : Tree) (f : FileFacts) : Prop :=
  ∃ s ∈ p.sources, ∃ unit, p.parser s.2 = some unit ∧ Nested unit.children d ∧
    f = .ofSource p.parser s.1 s.2

/-- The facts of a method and of its type, with the declarations that tell them. -/
structure Finds (p : Project) (d : Tree) (q : Placed) (f : FileFacts) (t : TypeFacts)
    (m : MethodFacts) : Prop where
  holds : p.Holds d f
  type : t ∈ f.types
  told : t.Reflects d
  member : q ∈ d.members
  method : m ∈ t.methods
  reflects : m.Reflects t q

variable {p : Project} {d : Tree} {f : FileFacts}

theorem Holds.mem_files (h : p.Holds d f) : f ∈ p.files := by
  obtain ⟨s, hs, -, -, -, rfl⟩ := h
  exact List.mem_map_of_mem hs

theorem Holds.exists_type (h : p.Holds d f) : ∃ t ∈ f.types, t.Reflects d := by
  obtain ⟨s, -, unit, hunit, hd, rfl⟩ := h
  exact (reflecting_ofSource hunit s.1).complete d hd

theorem exists_finds (h : p.Holds d f) {q : Placed} (hq : q ∈ d.members)
    (hc : q.tree.kind.isCallable) : ∃ t m, p.Finds d q f t m := by
  obtain ⟨t, ht, htold⟩ := h.exists_type
  obtain ⟨m, hm, hreflects⟩ := htold.exists_method hq hc
  exact ⟨t, m, h, ht, htold, hq, hm, hreflects⟩

theorem exists_holds (hf : f ∈ p.files) {t : TypeFacts} (ht : t ∈ f.types) :
    ∃ d, p.Holds d f ∧ t.Reflects d := by
  obtain ⟨s, hs, rfl⟩ := List.mem_map.mp hf
  cases hunit : p.parser s.2 with
  | none =>
    rw [FileFacts.ofSource, hunit] at ht
    cases ht
  | some unit =>
    obtain ⟨d, hd, htold⟩ := (reflecting_ofSource hunit s.1).sound t ht
    exact ⟨d, ⟨s, hs, unit, hunit, hd, rfl⟩, htold⟩

theorem finds_of_mem (hf : f ∈ p.files) {t : TypeFacts} (ht : t ∈ f.types) {m : MethodFacts}
    (hm : m ∈ t.methods) : ∃ d q, p.Finds d q f t m := by
  obtain ⟨d, hd, htold⟩ := exists_holds hf ht
  obtain ⟨q, hq, hreflects⟩ := htold.exists_member hm
  exact ⟨d, q, hd, ht, htold, hq, hm, hreflects⟩

theorem outerFirst_files (p : Project) : ∀ f ∈ p.files, OuterFirst 0 f.types := by
  intro f hf
  obtain ⟨s, -, rfl⟩ := List.mem_map.mp hf
  exact outerFirst_ofSource p.parser s.1 s.2

end Lineage.Java.Project
