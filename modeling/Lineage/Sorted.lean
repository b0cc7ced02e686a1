/-! # Maps and sets of texts in ascending order

A `TextMap` holds its entries with strictly ascending keys and a `TextSet` its members in strictly
ascending order, so equal contents are equal values and the listing order is the order of keys.
Main statements: `get?_insert`, `mem_insert`, and insertion of what is there changes nothing.
-/
namespace Lineage

theorem Text.lt_of_not_lt_of_ne {a b : String} (h : ¬a < b) (hne : a ≠ b) : b < a :=
  Decidable.byContradiction fun h' =>
    hne (String.le_antisymm (String.not_lt.mp h') (String.not_lt.mp h))

namespace Sorted

variable {α : Type}

def insert (k : String) (v : α) : List (String × α) → List (String × α)
  | [] => [(k, v)]
  | e :: r =>
    if k = e.1 then (k, v) :: r else if k < e.1 then (k, v) :: e :: r else e :: insert k v r

theorem fst_mem_insert {k : String} {v : α} {xs : List (String × α)} {e : String × α}
    (h : e ∈ insert k v xs) : e.1 = k ∨ e ∈ xs := by
  induction xs with
  | nil => simp_all [insert]
  | cons x r ih =>
    unfold insert at h
    split at h
    · rcases List.mem_cons.mp h with rfl | h
      · exact .inl rfl
      · exact .inr (List.mem_cons_of_mem _ h)
    · split at h
      · rcases List.mem_cons.mp h with rfl | h
        · exact .inl rfl
        · exact .inr h
      · rcases List.mem_cons.mp h with rfl | h
        · exact .inr List.mem_cons_self
        · exact (ih h).imp id (List.mem_cons_of_mem _)

theorem pairwise_insert {k : String} {v : α} {xs : List (String × α)}
    (h : xs.Pairwise (fun a b => a.1 < b.1)) :
    (insert k v xs).Pairwise (fun a b => a.1 < b.1) := by
  induction xs with
  | nil => simp [insert]
  | cons x r ih =>
    obtain ⟨hx, hr⟩ := List.pairwise_cons.mp h
    unfold insert
    split
    · rename_i hk
      exact List.pairwise_cons.mpr ⟨fun b hb => by simpa [hk] using hx b hb, hr⟩
    · rename_i hne
      split
      · rename_i hlt
        refine List.pairwise_cons.mpr ⟨fun b hb => ?_, h⟩
        rcases List.mem_cons.mp hb with rfl | hb
        · exact hlt
        · exact String.lt_trans hlt (hx b hb)
      · rename_i hlt
        refine List.pairwise_cons.mpr ⟨fun b hb => ?_, ih hr⟩
        rcases fst_mem_insert hb with he | hb
        · exact he ▸ Text.lt_of_not_lt_of_ne hlt hne
        · exact hx b hb

theorem lookup_cons_of_ne {j k : String} (h : j ≠ k) (v : α) (r : List (String × α)) :
    List.lookup j ((k, v) :: r) = List.lookup j r := by
  simp [List.lookup_cons, beq_false_of_ne h]

theorem lookup_insert (k j : String) (v : α) (xs : List (String × α)) :
    (insert k v xs).lookup j = if j = k then some v else xs.lookup j := by
  induction xs with
  | nil =>
    by_cases h : j = k
    · simp [insert, h]
    · simp [insert, lookup_cons_of_ne h, h]
  | cons x r ih =>
    obtain ⟨i, w⟩ := x
    unfold insert
    split
    · rename_i hk
      by_cases h : j = k
      · simp [h]
      · have hi : j ≠ i := fun e => h (e.trans hk.symm)
        rw [lookup_cons_of_ne h, if_neg h, lookup_cons_of_ne hi]
    · rename_i hne
      split
      · by_cases h : j = k
        · simp [h]
        · rw [lookup_cons_of_ne h, if_neg h]
      · by_cases hx : j = i
        · have hk : ¬j = k := fun h => hne (h ▸ hx)
          subst hx
          simp [hk]
        · rw [lookup_cons_of_ne hx, lookup_cons_of_ne hx, ih]

end Sorted

structure TextMap (α : Type) where
  entries : List (String × α)
  sorted : entries.Pairwise (fun a b => a.1 < b.1)

namespace TextMap

variable {α : Type}

theorem ext' {m n : TextMap α} (h : m.entries = n.entries) : m = n := by
  cases m; cases n; cases h; rfl

instance [DecidableEq α] : DecidableEq (TextMap α) := fun m n =>
  if h : m.entries = n.entries then isTrue (ext' h) else isFalse fun e => h (e ▸ rfl)

def empty : TextMap α := ⟨[], .nil⟩

instance : Inhabited (TextMap α) := ⟨empty⟩
instance : EmptyCollection (TextMap α) := ⟨empty⟩

def get? (m : TextMap α) (k : String) : Option α := m.entries.lookup k

def contains (m : TextMap α) (k : String) : Bool := (m.get? k).isSome

def insert (m : TextMap α) (k : String) (v : α) : TextMap α :=
  ⟨Sorted.insert k v m.entries, Sorted.pairwise_insert m.sorted⟩

/-- Binds `k` to `v` unless it is bound already. -/
def insertNew (m : TextMap α) (k : String) (v : α) : TextMap α :=
  if m.contains k then m else m.insert k v

def erase (m : TextMap α) (k : String) : TextMap α :=
  ⟨m.entries.filter (·.1 ≠ k), m.sorted.filter _⟩

def ofList (xs : List (String × α)) : TextMap α := xs.foldl (fun m e => m.insert e.1 e.2) empty

def keys (m : TextMap α) : List String := m.entries.map (·.1)

def values (m : TextMap α) : List α := m.entries.map (·.2)

/-- Adds the bindings of `other` for the keys that are not bound yet. -/
def fillFrom (m other : TextMap α) : TextMap α :=
  other.entries.foldl (fun m e => m.insertNew e.1 e.2) m

@[simp] theorem get?_empty (k : String) : (empty : TextMap α).get? k = none := rfl

@[simp] theorem get?_insert (m : TextMap α) (k j : String) (v : α) :
    (m.insert k v).get? j = if j = k then some v else m.get? j :=
  Sorted.lookup_insert k j v m.entries

@[simp] theorem get?_insertNew (m : TextMap α) (k j : String) (v : α) :
    (m.insertNew k v).get? j = (m.get? j).or (if j = k then some v else none) := by
  unfold insertNew contains
  by_cases hj : j = k
  · subst hj
    cases h : m.get? j <;> simp [h]
  · cases h : m.get? k <;> simp [hj]

@[simp] theorem get?_fillFrom (m other : TextMap α) (j : String) :
    (m.fillFrom other).get? j = (m.get? j).or (other.get? j) := by
  obtain ⟨es, hs⟩ := other
  simp only [fillFrom, get?]
  clear hs
  induction es generalizing m with
  | nil => simp
  | cons e es ih =>
    have hstep : (m.insertNew e.1 e.2).entries.lookup j =
        (m.entries.lookup j).or (if j = e.1 then some e.2 else none) := get?_insertNew m e.1 j e.2
    rw [List.foldl_cons, ih, hstep, Option.or_assoc]
    obtain ⟨i, v⟩ := e
    by_cases h : j = i
    · rw [if_pos h, h, List.lookup_cons_self, Option.some_or]
    · rw [if_neg h, Option.none_or, Sorted.lookup_cons_of_ne h]

end TextMap

structure TextSet where
  marks : TextMap Unit
  deriving DecidableEq

namespace TextSet

def empty : TextSet := ⟨.empty⟩

instance : Inhabited TextSet := ⟨empty⟩
instance : EmptyCollection TextSet := ⟨empty⟩

def toList (s : TextSet) : List String := s.marks.keys

def contains (s : TextSet) (x : String) : Bool := s.marks.contains x

instance : Membership String TextSet := ⟨fun s x => s.contains x = true⟩

instance (x : String) (s : TextSet) : Decidable (x ∈ s) :=
  inferInstanceAs (Decidable (s.contains x = true))

def insert (s : TextSet) (x : String) : TextSet := ⟨s.marks.insert x ()⟩

def erase (s : TextSet) (x : String) : TextSet := ⟨s.marks.erase x⟩

def ofList (xs : List String) : TextSet := xs.foldl insert empty

def union (s t : TextSet) : TextSet := t.toList.foldl insert s

@[simp] theorem not_mem_empty (x : String) : x ∉ empty := nofun

@[simp] theorem mem_insert (s : TextSet) (x y : String) : y ∈ s.insert x ↔ y = x ∨ y ∈ s := by
  show ((s.marks.insert x ()).get? y).isSome = true ↔ y = x ∨ (s.marks.get? y).isSome = true
  by_cases h : y = x <;> simp [h]

@[simp] theorem mem_toList (s : TextSet) (x : String) : x ∈ s.toList ↔ x ∈ s := by
  show x ∈ s.marks.entries.map (·.1) ↔ (s.marks.entries.lookup x).isSome = true
  rw [List.lookup_isSome_iff, List.mem_map]
  exact ⟨fun ⟨e, he, h⟩ => ⟨e, he, by simp [h]⟩, fun ⟨e, he, h⟩ => ⟨e, he, (beq_iff_eq.mp h).symm⟩⟩

@[simp] theorem mem_union (s t : TextSet) (x : String) : x ∈ s.union t ↔ x ∈ s ∨ x ∈ t := by
  rw [← mem_toList t]
  unfold union
  generalize t.toList = xs
  induction xs generalizing s with
  | nil => simp
  | cons y ys ih =>
    rw [List.foldl_cons, ih, mem_insert, List.mem_cons]
    exact or_assoc.trans or_left_comm

end TextSet

end Lineage
