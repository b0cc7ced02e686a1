import Mathlib.Data.List.Induction
import Mathlib.Data.List.Nodup
/-! # Lists searched by key

Searching a list whose members have distinct keys, tables given as lists of keys and values,
splitting a list without repetition by some of its members, and the first occurrences in a list.
-/
namespace Lineage

section Search
variable {α κ : Type} [DecidableEq κ] {f : α → κ} {xs : List α}

/-- With distinct keys, a search by key finds the one member that has it. -/
theorem find?_key_eq_some_iff (h : (xs.map f).Nodup) {k : κ} {x : α} :
    xs.find? (fun y => f y = k) = some x ↔ x ∈ xs ∧ f x = k := by
  constructor
  · intro hx
    exact ⟨List.mem_of_find?_eq_some hx, by simpa using List.find?_some hx⟩
  · rintro ⟨hx, hk⟩
    have hs : (xs.find? fun y => f y = k).isSome := List.find?_isSome.mpr ⟨x, hx, by simpa using hk⟩
    obtain ⟨y, hy⟩ := Option.isSome_iff_exists.mp hs
    have hky : f y = k := by simpa using List.find?_some hy
    have hxy : y = x :=
      List.inj_on_of_nodup_map h (List.mem_of_find?_eq_some hy) hx (hky.trans hk.symm)
    rw [hy, hxy]

theorem find?_key_eq_none_iff {k : κ} : xs.find? (fun y => f y = k) = none ↔ k ∉ xs.map f := by
  simp

theorem filter_key_eq_singleton (h : (xs.map f).Nodup) {x : α} (hx : x ∈ xs) :
    xs.filter (fun y => f y = f x) = [x] := by
  obtain ⟨init, rest, rfl⟩ := List.append_of_mem hx
  rw [List.map_append, List.map_cons, List.nodup_middle, List.nodup_cons] at h
  have hne : ∀ y ∈ init ++ rest, f y ≠ f x := fun y hy he =>
    h.1 (by rw [← List.map_append, ← he]; exact List.mem_map_of_mem hy)
  have hinit : init.filter (fun y => f y = f x) = [] := by
    simpa using fun y hy => hne y (List.mem_append_left _ hy)
  have hrest : rest.filter (fun y => f y = f x) = [] := by
    simpa using fun y hy => hne y (List.mem_append_right _ hy)
  simp [List.filter_append, hinit, hrest]

/-- With distinct keys, only the member that has the key can answer. -/
theorem findSome?_key_eq {β : Type} (h : (xs.map f).Nodup) (k : κ) (g : α → Option β) :
    (xs.findSome? fun x => if f x = k then g x else none) =
      (xs.find? fun x => f x = k).bind g := by
  induction xs with
  | nil => rfl
  | cons x xs ih =>
    rw [List.map_cons, List.nodup_cons] at h
    rw [List.findSome?_cons, List.find?_cons]
    by_cases hx : f x = k
    · have hrest : xs.find? (fun x => f x = k) = none :=
        find?_key_eq_none_iff.mpr (hx ▸ h.1)
      have hnone := ih h.2
      rw [hrest, Option.bind_none] at hnone
      simp only [hx, if_true, decide_true, Option.bind_some, hnone]
      cases g x <;> rfl
    · simp only [hx, if_false, decide_false]
      exact ih h.2

end Search

/-- What is selected from a list comes with keys in the order of the list. -/
theorem map_filterMap_sublist {α β κ : Type} {g : α → Option β} {f : α → κ} {f' : β → κ}
    (h : ∀ x y, g x = some y → f' y = f x) (xs : List α) :
    ((xs.filterMap g).map f').Sublist (xs.map f) := by
  induction xs with
  | nil => exact .slnil
  | cons x xs ih =>
    rw [List.filterMap_cons]
    cases hx : g x with
    | none => exact ih.cons (f x)
    | some y =>
      rw [List.map_cons, List.map_cons, h x y hx]
      exact ih.cons_cons (f x)

theorem filterMap_eq_mapIdx {α β : Type} {f : α → Option β} {g : Nat → α → β} {xs : List α}
    (h : ∀ (i : Nat) (hi : i < xs.length), f xs[i] = some (g i xs[i])) :
    xs.filterMap f = xs.mapIdx g := by
  induction xs generalizing g with
  | nil => rfl
  | cons x xs ih =>
    have hx : f x = some (g 0 x) := h 0 (Nat.succ_pos _)
    rw [List.filterMap_cons_some hx, List.mapIdx_cons]
    congr 1
    apply ih
    intro i hi
    exact h (i + 1) (Nat.succ_lt_succ hi)

theorem mem_modify {α : Type} {f : α → α} {i : Nat} {xs : List α} {x : α} (h : x ∈ xs.modify i f) :
    x ∈ xs ∨ ∃ y ∈ xs, x = f y := by
  obtain ⟨p, hp, rfl⟩ := List.getElem_of_mem h
  have hp' : p < xs.length := by simpa using hp
  rw [List.getElem_modify]
  split
  · exact .inr ⟨xs[p], List.getElem_mem hp', rfl⟩
  · exact .inl (List.getElem_mem hp')

section Tables
variable {α κ ν : Type} [BEq κ] [LawfulBEq κ] [DecidableEq κ]

theorem lookup_cons_eq_ite (a k : κ) (v : ν) (es : List (κ × ν)) :
    ((k, v) :: es).lookup a = if a = k then some v else es.lookup a := by
  by_cases h : a = k
  · rw [h, List.lookup_cons_self, if_pos rfl]
  · rw [List.lookup_cons, beq_false_of_ne h, if_neg h]

omit [DecidableEq κ] in
theorem lookup_eq_none_iff_not_mem {es : List (κ × ν)} {a : κ} :
    es.lookup a = none ↔ a ∉ es.map (·.1) := by
  rw [List.lookup_eq_none_iff]
  constructor
  · intro h hmem
    obtain ⟨e, he, rfl⟩ := List.mem_map.mp hmem
    simpa using h e he
  · intro h e he
    simpa using fun heq : a = e.1 => h (heq ▸ List.mem_map_of_mem he)

theorem lookup_filter_key (q : κ → Bool) (es : List (κ × ν)) (a : κ) :
    (es.filter fun e => q e.1).lookup a = if q a then es.lookup a else none := by
  induction es with
  | nil => simp
  | cons e es ih =>
    obtain ⟨k, v⟩ := e
    rw [lookup_cons_eq_ite]
    by_cases hk : q k
    · rw [List.filter_cons_of_pos (by exact hk), lookup_cons_eq_ite, ih]
      by_cases ha : a = k
      · simp [ha, hk]
      · simp [ha]
    · rw [List.filter_cons_of_neg (by exact hk), ih]
      by_cases ha : a = k
      · simp [ha, hk]
      · simp [ha]

theorem lookup_map_key (f : α → κ) (g : α → ν) (xs : List α) (a : κ) :
    (xs.map fun x => (f x, g x)).lookup a = (xs.find? fun x => f x = a).map g := by
  induction xs with
  | nil => rfl
  | cons x xs ih =>
    rw [List.map_cons, lookup_cons_eq_ite, ih, List.find?_cons]
    by_cases h : f x = a
    · simp [h]
    · simp [h, Ne.symm h]

omit [DecidableEq κ] in
theorem mem_of_lookup_eq_some {es : List (κ × ν)} {k : κ} {v : ν} (h : es.lookup k = some v) :
    (k, v) ∈ es := by
  obtain ⟨l, r, rfl, -⟩ := List.lookup_eq_some_iff.mp h
  exact List.mem_append_right _ List.mem_cons_self

theorem lookup_of_mem {es : List (κ × ν)} (h : (es.map (·.1)).Nodup) {k : κ} {v : ν}
    (he : (k, v) ∈ es) : es.lookup k = some v := by
  have hfind := (find?_key_eq_some_iff h).mpr ⟨he, rfl⟩
  have hl := lookup_map_key (fun e : κ × ν => e.1) (fun e => e.2) es k
  rw [hfind, List.map_id'' fun _ => rfl] at hl
  exact hl

theorem lookup_filterMap_key {f : α → κ} (g : α → Option ν) {xs : List α} (h : (xs.map f).Nodup)
    {x : α} (hx : x ∈ xs) :
    (xs.filterMap fun y => (g y).map fun v => (f y, v)).lookup (f x) = g x := by
  induction xs with
  | nil => cases hx
  | cons y ys ih =>
    obtain ⟨hy, hys⟩ := List.nodup_cons.mp h
    have hkeys : ∀ z e, (g z).map (fun v => (f z, v)) = some e → e.1 = f z := by
      intro z e he
      obtain ⟨v, -, rfl⟩ := Option.map_eq_some_iff.mp he
      rfl
    have hrest : (ys.filterMap fun z => (g z).map fun v => (f z, v)).lookup (f y) = none := by
      refine lookup_eq_none_iff_not_mem.mpr fun hmem => ?_
      exact hy ((map_filterMap_sublist hkeys ys).subset hmem)
    rcases List.mem_cons.mp hx with rfl | hx
    · rw [List.filterMap_cons]
      cases hv : g x with
      | none => exact hrest
      | some v => exact List.lookup_cons_self
    · have hne : f x ≠ f y := fun he => hy (he ▸ List.mem_map_of_mem hx)
      rw [List.filterMap_cons, ← ih hys hx]
      cases hv : g y with
      | none => rfl
      | some v =>
        show List.lookup (f x) ((f y, v) :: _) = _
        rw [lookup_cons_eq_ite, if_neg hne]

end Tables

section Split
variable {α : Type} [DecidableEq α] {xs ys : List α}

theorem perm_append_filter (hx : xs.Nodup) (hy : ys.Nodup) (h : ∀ y ∈ ys, y ∈ xs) :
    xs.Perm (ys ++ xs.filter (· ∉ ys)) := by
  have hd : (ys ++ xs.filter (· ∉ ys)).Nodup :=
    hy.append (hx.filter _) fun a ha hb => by simp [ha] at hb
  rw [List.perm_ext_iff_of_nodup hx hd]
  intro a
  by_cases ha : a ∈ ys
  · simp [ha, h a ha]
  · simp [ha]

theorem length_filter_not_mem (hx : xs.Nodup) (hy : ys.Nodup) (h : ∀ y ∈ ys, y ∈ xs) :
    (xs.filter (· ∉ ys)).length = xs.length - ys.length := by
  have hl := (perm_append_filter hx hy h).length_eq
  rw [List.length_append] at hl
  omega

end Split

section Firsts
variable {α β : Type} [DecidableEq α] [DecidableEq β] {xs ys : List α} {x : α}

/-- Of equal members, the first one stays. -/
theorem eraseDups_snoc (xs : List α) (x : α) :
    (xs ++ [x]).eraseDups = if x ∈ xs then xs.eraseDups else xs.eraseDups ++ [x] := by
  rw [List.eraseDups_append]
  by_cases h : x ∈ xs
  · simp [List.removeAll, h]
  · simp [List.removeAll, h, List.eraseDups_cons]

theorem nodup_eraseDups (xs : List α) : xs.eraseDups.Nodup := by
  induction xs using List.reverseRecOn with
  | nil => exact .nil
  | append_singleton xs x ih =>
    rw [eraseDups_snoc]
    split
    · exact ih
    · rename_i hx
      refine ih.append (List.nodup_singleton x) ?_
      simpa [List.mem_eraseDups] using hx

theorem eraseDups_eq_self (h : xs.Nodup) : xs.eraseDups = xs := by
  induction xs using List.reverseRecOn with
  | nil => rfl
  | append_singleton xs x ih =>
    obtain ⟨hxs, -, hne⟩ := List.nodup_append.mp h
    rw [eraseDups_snoc, if_neg, ih hxs]
    exact fun hx => hne x hx x List.mem_cons_self rfl

theorem eraseDups_append_of_subset (h : ∀ y ∈ ys, y ∈ xs) : (xs ++ ys).eraseDups = xs.eraseDups := by
  have hnil : ys.removeAll xs = [] := by
    rw [List.removeAll, List.filter_eq_nil_iff]
    intro y hy
    simp [h y hy]
  rw [List.eraseDups_append, hnil, List.eraseDups_nil, List.append_nil]

/-- How many different values there are depends only on which members have the same. -/
theorem length_eraseDups_map_eq {γ : Type} {f : γ → α} {g : γ → β} {zs : List γ}
    (h : ∀ a ∈ zs, ∀ b ∈ zs, f a = f b ↔ g a = g b) :
    (zs.map f).eraseDups.length = (zs.map g).eraseDups.length := by
  induction zs using List.reverseRecOn with
  | nil => rfl
  | append_singleton zs z ih =>
    have hz : f z ∈ zs.map f ↔ g z ∈ zs.map g := by
      simp only [List.mem_map]
      exact exists_congr fun a => and_congr_right fun ha =>
        h a (List.mem_append_left _ ha) z (List.mem_append_right _ List.mem_cons_self)
    have hzs := ih fun a ha b hb => h a (List.mem_append_left _ ha) b (List.mem_append_left _ hb)
    simp only [List.map_append, List.map_cons, List.map_nil, eraseDups_snoc, hz]
    split
    · exact hzs
    · simp [hzs]

end Firsts

end Lineage
