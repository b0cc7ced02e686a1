import Lineage.Java.Symbols
import Mathlib.Data.List.Induction
import Mathlib.Data.List.Nodup
import Mathlib.Data.List.Perm.Subperm
import Mathlib.Data.Nat.Find
/-! # Types above a type

The types above a type are searched breadth first along supertype links. No type is looked at twice,
so the search ends whatever cycles the links have, and it finds every type that links lead to, the
nearest first. Main statements: `Searching.step`, `searching_climb`, `ranked_ancestors`.
-/
namespace Lineage.Java.Symbols

section Search
variable (s : Symbols)

/-- So many links in a row lead from a type up to another one. -/
inductive Climbs (owner : NodeId) : Nat → NodeId → Prop
  | here : Climbs owner 0 owner
  | up {n : Nat} {t u : NodeId} (h : Climbs owner n t) (hu : (t, u) ∈ s.supertypes) :
    Climbs owner (n + 1) u

/-- The fewest links that lead from a type to another one. -/
structure IsDistance (owner t : NodeId) (n : Nat) : Prop where
  climbs : Climbs s owner n t
  le : ∀ k, Climbs s owner k t → n ≤ k

/-- The first type is no farther away than the second one. -/
def NoFarther (owner t u : NodeId) : Prop :=
  ∀ n, Climbs s owner n u → ∃ k ≤ n, Climbs s owner k t

/-- The search with no bound on its steps: it goes on until its queue is empty. -/
inductive Searches : List NodeId → List NodeId → List NodeId → Prop
  | finished (done : List NodeId) : Searches done [] done
  | visit {done queue found : List NodeId} {t : NodeId}
      (h : Searches (done ++ [t]) (enqueue (done ++ [t]) queue (s.directSupertypes t)) found) :
    Searches done (t :: queue) found

/-- What holds between two steps of the search: `done` is closed under links but for what is in the
queue, and the queue spans at most two distances. -/
structure Searching (owner : NodeId) (done queue : List NodeId) : Prop where
  nodup : (done ++ queue).Nodup
  first : ∃ rest, done ++ queue = owner :: rest
  reached : ∀ t ∈ done ++ queue, ∃ n, Climbs s owner n t
  closed : ∀ t ∈ done, ∀ u, (t, u) ∈ s.supertypes → u ∈ done ++ queue
  sorted : (done ++ queue).Pairwise (NoFarther s owner)
  window : ∀ t rest, queue = t :: rest → ∀ u ∈ queue, ∀ n, Climbs s owner n t →
    ∃ k ≤ n + 1, Climbs s owner k u

end Search

variable {s : Symbols} {owner t u : NodeId} {done queue : List NodeId}

theorem mem_directSupertypes_iff : u ∈ s.directSupertypes t ↔ (t, u) ∈ s.supertypes := by
  simp [directSupertypes]

theorem climbs_zero_iff : Climbs s owner 0 t ↔ t = owner := by
  constructor
  · rintro ⟨⟩
    rfl
  · rintro rfl
    exact .here

theorem exists_isDistance {n : Nat} (h : Climbs s owner n t) : ∃ k, IsDistance s owner t k := by
  classical
  have hex : ∃ n, Climbs s owner n t := ⟨n, h⟩
  exact ⟨Nat.find hex, Nat.find_spec hex, fun k hk => Nat.find_min' hex hk⟩

theorem Climbs.eq_or_mem {n : Nat} (h : Climbs s owner n t) :
    t = owner ∨ t ∈ s.supertypes.map (·.2) := by
  cases h with
  | here => exact .inl rfl
  | up _ hu => exact .inr (List.mem_map_of_mem hu)

/-- What is found is put at the end of the queue, each type once, unless it was seen before. -/
theorem exists_enqueue (done queue found : List NodeId) : ∃ new,
    enqueue done queue found = queue ++ new ∧ new.Nodup ∧
      ∀ u, u ∈ new ↔ u ∈ found ∧ u ∉ done ++ queue := by
  induction found using List.reverseRecOn with
  | nil => exact ⟨[], (List.append_nil _).symm, .nil, by simp⟩
  | append_singleton found t ih =>
    obtain ⟨new, heq, hnodup, hmem⟩ := ih
    have hstep : enqueue done queue (found ++ [t]) =
        if t ∈ done ∨ t ∈ queue ++ new then queue ++ new else queue ++ new ++ [t] := by
      rw [← heq, enqueue, List.foldl_append]
      rfl
    rw [hstep]
    split
    · rename_i hseen
      refine ⟨new, rfl, hnodup, fun u => ?_⟩
      rw [hmem]
      simp only [List.mem_append, List.mem_singleton] at hseen ⊢
      grind
    · rename_i hfresh
      simp only [List.mem_append, not_or] at hfresh
      refine ⟨new ++ [t], List.append_assoc _ _ _, ?_, fun u => ?_⟩
      · exact hnodup.append (List.nodup_singleton t) (by simpa using hfresh.2.2)
      · simp only [List.mem_append, List.mem_singleton, hmem]
        grind

namespace Searching

theorem start (s : Symbols) (owner : NodeId) : Searching s owner [] [owner] where
  nodup := List.nodup_singleton owner
  first := ⟨[], rfl⟩
  reached t ht := by
    obtain rfl := List.mem_singleton.mp ht
    exact ⟨0, .here⟩
  closed := List.forall_mem_nil _
  sorted := List.pairwise_singleton _ _
  window t rest _ u hu n _ := by
    obtain rfl := List.mem_singleton.mp hu
    exact ⟨0, Nat.zero_le _, .here⟩

/-- Every way to a type that was not seen yet leads through the queue. -/
theorem exists_before (h : Searching s owner done queue) {n : Nat} (hn : Climbs s owner n u)
    (hu : u ∉ done ++ queue) : ∃ t ∈ queue, ∃ k < n, Climbs s owner k t := by
  induction hn with
  | here =>
    obtain ⟨rest, hrest⟩ := h.first
    rw [hrest] at hu
    exact absurd List.mem_cons_self hu
  | @up n b c hb hc ih =>
    by_cases hseen : b ∈ done ++ queue
    · rcases List.mem_append.mp hseen with hdone | hqueue
      · exact absurd (h.closed b hdone c hc) hu
      · exact ⟨b, hqueue, n, Nat.lt_succ_self n, hb⟩
    · obtain ⟨t, ht, k, hk, hclimb⟩ := ih hseen
      exact ⟨t, ht, k, Nat.lt_succ_of_lt hk, hclimb⟩

section Step
variable (h : Searching s owner done (t :: queue))
include h

theorem nearer {n : Nat} (hn : Climbs s owner n u) (hu : u ∉ done ++ t :: queue) :
    ∃ k < n, Climbs s owner k t := by
  obtain ⟨x, hx, k, hk, hclimb⟩ := h.exists_before hn hu
  rcases List.mem_cons.mp hx with rfl | hx
  · exact ⟨k, hk, hclimb⟩
  · have hsorted := (List.pairwise_append.mp h.sorted).2.1
    obtain ⟨j, hj, hclimb⟩ := List.rel_of_pairwise_cons hsorted hx k hclimb
    exact ⟨j, Nat.lt_of_le_of_lt hj hk, hclimb⟩

theorem noFarther_of_not_mem {x : NodeId} (hx : x ∈ done ++ t :: queue)
    (hu : u ∉ done ++ t :: queue) : NoFarther s owner x u := by
  intro n hn
  obtain ⟨k, hk, hclimb⟩ := h.nearer hn hu
  rcases List.mem_append.mp hx with hx | hx
  · have hsorted := (List.pairwise_append.mp h.sorted).2.2
    obtain ⟨j, hj, hclimb⟩ := hsorted x hx t List.mem_cons_self k hclimb
    exact ⟨j, by omega, hclimb⟩
  · obtain ⟨j, hj, hclimb⟩ := h.window t queue rfl x hx k hclimb
    exact ⟨j, by omega, hclimb⟩

theorem step : Searching s owner (done ++ [t])
    (enqueue (done ++ [t]) queue (s.directSupertypes t)) := by
  obtain ⟨new, heq, hnodup, hmem⟩ := exists_enqueue (done ++ [t]) queue (s.directSupertypes t)
  have hold : done ++ [t] ++ queue = done ++ t :: queue := by simp
  have hall : done ++ [t] ++ (queue ++ new) = done ++ t :: queue ++ new := by simp
  have hnew : ∀ u, u ∈ new ↔ (t, u) ∈ s.supertypes ∧ u ∉ done ++ t :: queue := by
    intro u
    rw [hmem, mem_directSupertypes_iff, hold]
  have hsorted : (done ++ t :: queue ++ new).Pairwise (NoFarther s owner) := by
    refine List.pairwise_append.mpr ⟨h.sorted, ?_, ?_⟩
    · -- all that is new is one link away from the type looked at
      refine List.Pairwise.imp_of_mem (R := fun _ _ => True) ?_ (List.pairwise_of_forall (by simp))
      intro x y hx hy _ n hn
      obtain ⟨k, hk, hclimb⟩ := h.nearer hn ((hnew y).mp hy).2
      exact ⟨k + 1, hk, hclimb.up ((hnew x).mp hx).1⟩
    · exact fun x hx y hy => h.noFarther_of_not_mem hx ((hnew y).mp hy).2
  rw [heq]
  refine ⟨?_, ?_, ?_, ?_, ?_, ?_⟩
  · rw [hall]
    exact h.nodup.append hnodup fun x hx hy => ((hnew x).mp hy).2 hx
  · obtain ⟨rest, hrest⟩ := h.first
    rw [hall, hrest]
    exact ⟨rest ++ new, rfl⟩
  · intro x hx
    rw [hall] at hx
    rcases List.mem_append.mp hx with hx | hx
    · exact h.reached x hx
    · obtain ⟨n, hn⟩ := h.reached t (by simp)
      exact ⟨n + 1, hn.up ((hnew x).mp hx).1⟩
  · intro x hx y hy
    rw [hall]
    rcases List.mem_append.mp hx with hx | hx
    · exact List.mem_append_left _ (h.closed x hx y hy)
    · obtain rfl := List.mem_singleton.mp hx
      by_cases hseen : y ∈ done ++ x :: queue
      · exact List.mem_append_left _ hseen
      · exact List.mem_append_right _ ((hnew y).mpr ⟨hy, hseen⟩)
  · rwa [hall]
  · intro x rest hx y hy n hn
    have hnext : NoFarther s owner t x := by
      rw [← hall] at hsorted
      refine (List.pairwise_append.mp hsorted).2.2 t (by simp) x ?_
      rw [hx]
      exact List.mem_cons_self
    obtain ⟨k, hk, hclimb⟩ := hnext n hn
    rcases List.mem_append.mp hy with hy | hy
    · obtain ⟨j, hj, hy⟩ := h.window t queue rfl y (List.mem_cons_of_mem _ hy) k hclimb
      exact ⟨j, by omega, hy⟩
    · exact ⟨k + 1, by omega, hclimb.up ((hnew y).mp hy).1⟩

end Step

/-- No more types are seen than there are links, apart from the one that the search starts from. -/
theorem length_le (h : Searching s owner done queue) :
    (done ++ queue).length ≤ s.supertypes.length + 1 := by
  have hsub : done ++ queue ⊆ owner :: s.supertypes.map (·.2) := by
    intro t ht
    obtain ⟨n, hn⟩ := h.reached t ht
    exact List.mem_cons.mpr hn.eq_or_mem
  have hle := (List.subperm_of_subset h.nodup hsub).length_le
  rwa [List.length_cons, List.length_map] at hle

end Searching

theorem searching_climb (h : Searching s owner done queue) {steps : Nat}
    (hsteps : s.supertypes.length + 1 ≤ done.length + steps) :
    Searching s owner (s.climb steps done queue) [] ∧
      Searches s done queue (s.climb steps done queue) := by
  induction steps generalizing done queue with
  | zero =>
    have hle := h.length_le
    rw [List.length_append] at hle
    obtain rfl : queue = [] := List.length_eq_zero_iff.mp (by omega)
    rw [climb, List.append_nil]
    exact ⟨h, .finished done⟩
  | succ steps ih =>
    cases queue with
    | nil => exact ⟨h, .finished done⟩
    | cons t queue =>
      have hlength : s.supertypes.length + 1 ≤ (done ++ [t]).length + steps := by
        rw [List.length_append, List.length_singleton]
        omega
      obtain ⟨hend, hsearch⟩ := ih h.step hlength
      exact ⟨hend, .visit hsearch⟩

theorem searching_ancestors (s : Symbols) (owner : NodeId) :
    Searching s owner (owner :: s.ancestors owner) [] ∧
      Searches s [] [owner] (owner :: s.ancestors owner) := by
  have hsteps : s.supertypes.length + 1 ≤
      ([] : List NodeId).length + (s.supertypes.length + 1) := Nat.le_add_left _ _
  obtain ⟨hend, hsearch⟩ := searching_climb (.start s owner) hsteps
  obtain ⟨rest, hrest⟩ := hend.first
  rw [List.append_nil] at hrest
  have hancestors : s.ancestors owner = rest := by
    rw [ancestors, hrest]
    rfl
  rw [hancestors, ← hrest]
  exact ⟨hend, hsearch⟩

theorem nodup_ancestors (s : Symbols) (owner : NodeId) : (owner :: s.ancestors owner).Nodup := by
  have hnodup := (searching_ancestors s owner).1.nodup
  rwa [List.append_nil] at hnodup

theorem mem_ancestors_iff :
    t ∈ s.ancestors owner ↔ t ≠ owner ∧ ∃ n, Climbs s owner (n + 1) t := by
  have hend := (searching_ancestors s owner).1
  constructor
  · intro ht
    have hne : t ≠ owner := by
      rintro rfl
      exact (List.nodup_cons.mp (nodup_ancestors s t)).1 ht
    obtain ⟨n, hn⟩ := hend.reached t (by simp [ht])
    cases n with
    | zero => exact absurd (climbs_zero_iff.mp hn) hne
    | succ n => exact ⟨hne, n, hn⟩
  · rintro ⟨hne, n, hn⟩
    by_contra ht
    obtain ⟨x, hx, -⟩ := hend.exists_before hn (by simp [hne, ht])
    cases hx

structure Ranked (s : Symbols) (owner : NodeId) : Prop where
  finishes : Searches s [] [owner] (owner :: s.ancestors owner)
  nodup : (s.ancestors owner).Nodup
  others : owner ∉ s.ancestors owner
  mem_iff : ∀ t, t ∈ s.ancestors owner ↔ t ≠ owner ∧ ∃ n, Climbs s owner (n + 1) t
  measured : ∀ t ∈ s.ancestors owner, ∃ n, IsDistance s owner t n
  sorted : (s.ancestors owner).Pairwise fun t u =>
    ∀ n k, IsDistance s owner t n → IsDistance s owner u k → n ≤ k

theorem ranked_ancestors (s : Symbols) (owner : NodeId) : Ranked s owner where
  finishes := (searching_ancestors s owner).2
  nodup := (List.nodup_cons.mp (nodup_ancestors s owner)).2
  others := (List.nodup_cons.mp (nodup_ancestors s owner)).1
  mem_iff _ := mem_ancestors_iff
  measured t ht := by
    obtain ⟨-, n, hn⟩ := mem_ancestors_iff.mp ht
    exact exists_isDistance hn
  sorted := by
    have hsorted := (searching_ancestors s owner).1.sorted
    rw [List.append_nil, List.pairwise_cons] at hsorted
    refine hsorted.2.imp fun h n k hn hk => ?_
    obtain ⟨j, hj, hclimb⟩ := h k hk.climbs
    exact Nat.le_trans (hn.le j hclimb) hj

/-- Two ways up to one type, and a way back down. -/
example : ancestors ⟨[], [], [], [(⟨1⟩, ⟨2⟩), (⟨1⟩, ⟨3⟩), (⟨2⟩, ⟨4⟩), (⟨3⟩, ⟨4⟩), (⟨4⟩, ⟨1⟩)]⟩ ⟨1⟩ =
    [⟨2⟩, ⟨3⟩, ⟨4⟩] := by decide

end Lineage.Java.Symbols
