import Lineage.Proofs.Keyed
import Lineage.Sorted
import Mathlib.Data.List.Sort
import Mathlib.Data.String.Basic
import Mathlib.Tactic.Tauto
/-! # Maps and sets of texts

Filling a map changes nothing if all keys are bound already, a map is told by what its keys are bound
to, and a set by its members. Main statements: `TextMap.fillFrom_of_contains`, `TextMap.ext`,
`TextSet.ext`, `TextSet.union_of_subset`.
-/
namespace Lineage

namespace TextMap

variable {α : Type} {m other : TextMap α} {k : String}

theorem insertNew_of_contains (h : m.contains k) (v : α) : m.insertNew k v = m := if_pos h

theorem fillFrom_of_contains (h : ∀ e ∈ other.entries, m.contains e.1) : m.fillFrom other = m := by
  unfold fillFrom
  generalize other.entries = es at h
  induction es with
  | nil => rfl
  | cons e es ih =>
    rw [List.foldl_cons, insertNew_of_contains (h e List.mem_cons_self)]
    exact ih fun d hd => h d (List.mem_cons_of_mem _ hd)

theorem fillFrom_fillFrom (m other : TextMap α) :
    (m.fillFrom other).fillFrom other = m.fillFrom other := by
  refine fillFrom_of_contains fun e he => ?_
  have hother : (other.get? e.1).isSome :=
    List.lookup_isSome_iff.mpr ⟨e, he, beq_self_eq_true e.1⟩
  rw [contains, get?_fillFrom, Option.isSome_or, hother, Bool.or_true]

theorem nodup_keys (m : TextMap α) : m.keys.Nodup :=
  List.Pairwise.imp String.ne_of_lt (List.pairwise_map.mpr m.sorted)

theorem mem_entries_iff {v : α} : (k, v) ∈ m.entries ↔ m.get? k = some v :=
  ⟨lookup_of_mem m.nodup_keys, mem_of_lookup_eq_some⟩

theorem get?_eq_none (h : k ∉ m.keys) : m.get? k = none := by
  by_contra hsome
  obtain ⟨v, hv⟩ := Option.ne_none_iff_exists'.mp hsome
  exact h (List.mem_map.mpr ⟨(k, v), mem_entries_iff.mpr hv, rfl⟩)

/-- Maps that bind the same keys to the same values are equal. -/
theorem ext {m n : TextMap α} (h : ∀ k, m.get? k = n.get? k) : m = n := by
  have hirrefl : Std.Irrefl fun a b : String × α => a.1 < b.1 := ⟨fun a => String.lt_irrefl a.1⟩
  refine ext' (m.sorted.eq_of_mem_iff n.sorted fun e => ?_)
  rw [mem_entries_iff, mem_entries_iff, h]

end TextMap

namespace TextSet

@[simp] theorem mem_erase (s : TextSet) (x y : String) : y ∈ s.erase x ↔ y ∈ s ∧ y ≠ x := by
  simp only [← mem_toList, toList, TextMap.keys, erase, TextMap.erase, List.mem_map,
    List.mem_filter, decide_eq_true_eq]
  exact ⟨fun ⟨e, ⟨he, hne⟩, hy⟩ => ⟨⟨e, he, hy⟩, hy ▸ hne⟩,
    fun ⟨⟨e, he, hy⟩, hne⟩ => ⟨e, ⟨he, hy ▸ hne⟩, hy⟩⟩

theorem mem_foldl_insert (xs : List String) (s : TextSet) (y : String) :
    y ∈ xs.foldl insert s ↔ y ∈ s ∨ y ∈ xs := by
  induction xs generalizing s with
  | nil => simp
  | cons x xs ih =>
    rw [List.foldl_cons, ih, mem_insert, List.mem_cons]
    tauto

@[simp] theorem mem_ofList {xs : List String} {y : String} : y ∈ ofList xs ↔ y ∈ xs := by
  rw [ofList, mem_foldl_insert]
  exact or_iff_right (not_mem_empty y)

theorem mem_foldl_erase (xs : List String) (s : TextSet) (y : String) :
    y ∈ xs.foldl erase s ↔ y ∈ s ∧ y ∉ xs := by
  induction xs generalizing s with
  | nil => simp
  | cons x xs ih =>
    rw [List.foldl_cons, ih, mem_erase, List.mem_cons]
    tauto

/-- Sets with the same members are equal. -/
theorem ext {s t : TextSet} (h : ∀ x, x ∈ s ↔ x ∈ t) : s = t := by
  have hsorted : ∀ u : TextSet, u.toList.Pairwise (· < ·) := fun u =>
    List.pairwise_map.mpr u.marks.sorted
  have hkeys : s.toList = t.toList :=
    (hsorted s).eq_of_mem_iff (hsorted t) fun x => by rw [mem_toList, mem_toList, h]
  have hfst : Function.Injective (Prod.fst : String × Unit → String) := fun _ _ he =>
    Prod.ext he rfl
  obtain ⟨⟨es, hs⟩⟩ := s
  obtain ⟨⟨ds, ht⟩⟩ := t
  obtain rfl := List.map_injective_iff.mpr hfst hkeys
  rfl

theorem union_of_subset {s t : TextSet} (h : ∀ x ∈ t, x ∈ s) : s.union t = s :=
  ext fun x => by
    rw [mem_union]
    exact ⟨fun hx => hx.elim id (h x), .inl⟩

theorem union_union (s t : TextSet) : (s.union t).union t = s.union t :=
  union_of_subset fun x hx => (mem_union s t x).mpr (.inr hx)

end TextSet

end Lineage
