import Lineage.Java.Grammar
import Lineage.Proofs.Java.Contents
/-! # Lists of type names

The types after `extends`, `implements` and `throws` are found by a walk that keeps the trees it has
still to visit. The walk ends, and it finds what a recursion over the tree collects: the outermost
type names, each once, in the order in which they are written, of each what stands outside of angle
brackets. Main statements: `leaves_eraseChars`, `run_of_size_le`, `enumerates_collected`,
`listsTypes_ofSource`.
-/
namespace Lineage.Java

open Extract

/-! ## Names of types -/

/-- The kinds of the trees that are names of types. -/
inductive Kind.IsTypeName : Kind → Prop
  | simple : IsTypeName .typeIdentifier
  | scoped : IsTypeName .scopedTypeIdentifier
  | generic : IsTypeName .genericType

theorem isTypeName_iff {k : Kind} : isTypeName k = true ↔ k.IsTypeName := by
  constructor
  · intro h
    cases k <;> first | exact .simple | exact .scoped | exact .generic | cases h
  · rintro (_ | _ | _) <;> rfl

instance : DecidablePred Kind.IsTypeName := fun _ => decidable_of_iff _ isTypeName_iff

/-- A character behind others, the nearest of them first, remains of the text of a type: it is neither
a bracket nor blank, and no stretch of text up to it opens more brackets than it closes. -/
structure Remains (behind : List Char) (c : Char) : Prop where
  bracket : c ≠ '<' ∧ c ≠ '>'
  blank : Text.isBlank c = false
  outside : ∀ stretch, stretch <+: behind → stretch.count '<' ≤ stretch.count '>'

/-- What remains of a text that stands behind another one. -/
inductive Leaves : List Char → List Char → List Char → Prop
  | nil {behind : List Char} : Leaves behind [] []
  | keep {behind cs out : List Char} {c : Char} (hc : Remains behind c)
    (h : Leaves (c :: behind) cs out) : Leaves behind (c :: cs) (c :: out)
  | drop {behind cs out : List Char} {c : Char} (hc : ¬Remains behind c)
    (h : Leaves (c :: behind) cs out) : Leaves behind (c :: cs) out

/-- How many brackets are open behind a text, whose last character comes first. -/
def openBrackets : List Char → Nat
  | [] => 0
  | c :: behind =>
    if c = '<' then openBrackets behind + 1
    else if c = '>' then openBrackets behind - 1
    else openBrackets behind

theorem openBrackets_le_iff {behind : List Char} {n : Nat} : openBrackets behind ≤ n ↔
    ∀ stretch, stretch <+: behind → stretch.count '<' ≤ stretch.count '>' + n := by
  induction behind generalizing n with
  | nil => simp [openBrackets]
  | cons c behind ih =>
    -- a stretch that is not empty has `c` and a stretch before it
    have hstretch : (∀ stretch, stretch <+: c :: behind →
          stretch.count '<' ≤ stretch.count '>' + n) ↔
        ∀ stretch, stretch <+: behind →
          (c :: stretch).count '<' ≤ (c :: stretch).count '>' + n := by
      constructor
      · exact fun h stretch hs => h _ (List.cons_prefix_cons.mpr ⟨rfl, hs⟩)
      · intro h stretch hs
        rcases List.prefix_cons_iff.mp hs with rfl | ⟨rest, rfl, hrest⟩
        · simp
        · exact h rest hrest
    rw [hstretch, openBrackets]
    split
    · rename_i hopen
      subst hopen
      cases n with
      | zero =>
        exact iff_of_false (Nat.not_succ_le_zero _)
          fun h => absurd (h [] List.nil_prefix) (by decide)
      | succ n =>
        rw [Nat.succ_le_succ_iff, ih]
        refine forall₂_congr fun stretch _ => ?_
        rw [List.count_cons_self, List.count_cons_of_ne (by decide)]
        omega
    · split
      · rename_i hclose
        subst hclose
        rw [Nat.sub_le_iff_le_add, ih]
        refine forall₂_congr fun stretch _ => ?_
        rw [List.count_cons_self, List.count_cons_of_ne (by decide)]
        omega
      · rename_i hopen hclose
        rw [ih]
        refine forall₂_congr fun stretch _ => ?_
        rw [List.count_cons_of_ne hopen, List.count_cons_of_ne hclose]

theorem remains_iff {behind : List Char} {c : Char} : Remains behind c ↔
    (c ≠ '<' ∧ c ≠ '>') ∧ openBrackets behind = 0 ∧ (!Text.isBlank c) = true := by
  have houtside : openBrackets behind = 0 ↔
      ∀ stretch, stretch <+: behind → stretch.count '<' ≤ stretch.count '>' := by
    rw [← Nat.le_zero, openBrackets_le_iff]
    rfl
  rw [houtside]
  constructor
  · rintro ⟨hbracket, hblank, hout⟩
    exact ⟨hbracket, hout, by simp [hblank]⟩
  · rintro ⟨hbracket, hout, hblank⟩
    exact ⟨hbracket, by simpa using hblank, hout⟩

theorem leaves_eraseChars (behind cs : List Char) :
    Leaves behind cs (TypeName.eraseChars (openBrackets behind) cs) := by
  induction cs generalizing behind with
  | nil => exact .nil
  | cons c cs ih =>
    have hrest := ih (c :: behind)
    rw [openBrackets] at hrest
    rw [TypeName.eraseChars]
    split
    · rename_i hopen
      rw [if_pos hopen] at hrest
      exact .drop (fun hc => hc.bracket.1 hopen) hrest
    rename_i hopen
    rw [if_neg hopen] at hrest
    split
    · rename_i hclose
      rw [if_pos hclose] at hrest
      exact .drop (fun hc => hc.bracket.2 hclose) hrest
    rename_i hclose
    rw [if_neg hclose] at hrest
    split
    · rename_i hremains
      exact .keep (remains_iff.mpr ⟨⟨hopen, hclose⟩, hremains⟩) hrest
    · rename_i hremains
      exact .drop (fun hc => hremains (remains_iff.mp hc).2) hrest

/-- The name of a type is what remains of its text. -/
def Tree.IsNamed (t : Tree) (name : String) : Prop := Leaves [] t.text.toList name.toList

theorem Tree.isNamed_erase (t : Tree) : t.IsNamed (TypeName.erase t.text) := by
  rw [Tree.IsNamed, TypeName.erase, String.toList_ofList]
  exact leaves_eraseChars [] t.text.toList

theorem Tree.forall₂_isNamed (ts : List Tree) :
    List.Forall₂ Tree.IsNamed ts (ts.map fun t => TypeName.erase t.text) := by
  rw [List.forall₂_map_right_iff, List.forall₂_same]
  exact fun t _ => t.isNamed_erase

/-! ## Named children -/

namespace Tree

theorem sizeOfAll_append (ts us : List Tree) :
    sizeOfAll (ts ++ us) = sizeOfAll ts + sizeOfAll us := by
  induction ts with
  | nil => exact (Nat.zero_add _).symm
  | cons t ts ih => rw [List.cons_append, sizeOfAll, sizeOfAll, ih, Nat.add_assoc]

theorem sizeOfAll_filter_le (p : Tree → Bool) (ts : List Tree) :
    sizeOfAll (ts.filter p) ≤ sizeOfAll ts := by
  induction ts with
  | nil => exact Nat.le_refl _
  | cons t ts ih =>
    rw [List.filter_cons]
    split <;> simp only [sizeOfAll] <;> omega

theorem size_le_sizeOfAll {t : Tree} {ts : List Tree} (h : t ∈ ts) : t.size ≤ sizeOfAll ts := by
  obtain ⟨before, after, rfl⟩ := List.append_of_mem h
  rw [sizeOfAll_append, sizeOfAll]
  omega

theorem sizeOfAll_named_lt (t : Tree) : sizeOfAll t.named < t.size := by
  cases t with
  | node k r text a b cs =>
    rw [size]
    exact Nat.lt_succ_of_le (sizeOfAll_filter_le (·.kind ≠ .word) cs)

/-- What holds of a tree if it holds of its named children holds of all trees. -/
theorem named_induction {P : Tree → Prop} (h : ∀ t, (∀ c ∈ t.named, P c) → P t) (t : Tree) :
    P t := by
  induction hn : t.size using Nat.strongRecOn generalizing t with
  | ind n ih =>
    refine h t fun c hc => ih c.size ?_ c rfl
    exact hn ▸ Nat.lt_of_le_of_lt (size_le_sizeOfAll hc) t.sizeOfAll_named_lt

mutual

/-- The outermost type names among a tree and its named descendants, parents before children. -/
def collected : Tree → List Tree
  | .node k r text a b cs =>
    if k.IsTypeName then [.node k r text a b cs] else collectedOfAll cs

def collectedOfAll : List Tree → List Tree
  | [] => []
  | t :: ts => (if t.kind = .word then [] else collected t) ++ collectedOfAll ts

end

theorem collectedOfAll_eq (ts : List Tree) :
    collectedOfAll ts = (ts.filter (·.kind ≠ .word)).flatMap collected := by
  induction ts with
  | nil => rfl
  | cons t ts ih =>
    rw [collectedOfAll, ih]
    by_cases ht : t.kind = .word <;> simp [ht]

theorem collected_eq (t : Tree) : t.collected =
    if t.kind.IsTypeName then [t] else t.named.flatMap collected := by
  cases t with
  | node k r text a b cs => rw [collected, collectedOfAll_eq]; rfl

end Tree

/-! ## The walk -/

namespace Extract.NameWalk

def start (t : Tree) : NameWalk := ⟨#[t], #[]⟩

def agenda (w : NameWalk) : List Tree := w.pending.toList.reverse

theorem step?_eq_none {w : NameWalk} (h : w.agenda = []) : w.step? = none := by
  have hpending : w.pending = #[] := by simpa [agenda] using h
  simp [step?, hpending]

theorem step?_eq_some {w : NameWalk} {t : Tree} {ts : List Tree} (h : w.agenda = t :: ts) :
    ∃ w', w.step? = some w' ∧
      w'.agenda = (if t.kind.IsTypeName then [] else t.named) ++ ts ∧
      w'.found.toList =
        w.found.toList ++ if t.kind.IsTypeName then [TypeName.erase t.text] else [] := by
  have hpending : w.pending.toList = ts.reverse ++ [t] := by
    rw [← List.reverse_reverse w.pending.toList]
    exact (congrArg List.reverse h).trans List.reverse_cons
  have hback : w.pending.back? = some t := by
    rw [← Array.getLast?_toList, hpending, List.getLast?_concat]
  have hpop : w.pending.toList.dropLast = ts.reverse := by
    rw [hpending, List.dropLast_concat]
  rw [step?, hback, Option.map_some]
  refine ⟨_, rfl, ?_⟩
  simp only [isTypeName_iff]
  split <;> simp [agenda, hpop]

theorem run_of_step?_eq_none {w : NameWalk} (h : w.step? = none) (n : Nat) : run n w = w := by
  cases n with
  | zero => rfl
  | succ n => rw [run, h]

theorem run_add (m n : Nat) (w : NameWalk) : run (m + n) w = run n (run m w) := by
  induction m generalizing w with
  | zero => rw [Nat.zero_add, run]
  | succ m ih =>
    rw [Nat.succ_add, run, run]
    cases h : w.step? with
    | none => exact (run_of_step?_eq_none h n).symm
    | some w' => exact ih w'

theorem run_eq_of_le {m n : Nat} {w : NameWalk} (hle : m ≤ n) (h : (run m w).step? = none) :
    run n w = run m w := by
  obtain ⟨k, rfl⟩ := Nat.exists_eq_add_of_le hle
  rw [run_add, run_of_step?_eq_none h]

/-- The walk ends after no more visits than there are nodes, and then it has found what the
recursion collects from the trees that it had before it. -/
theorem run_of_size_le {n : Nat} {w : NameWalk} (h : Tree.sizeOfAll w.agenda ≤ n) :
    (run n w).step? = none ∧
      (run n w).found.toList = w.found.toList ++
        (w.agenda.flatMap Tree.collected).map fun t => TypeName.erase t.text := by
  -- for every agenda, as a visit puts the children of the first tree in its place
  induction n generalizing w with
  | zero =>
    cases hw : w.agenda with
    | nil => exact ⟨step?_eq_none hw, by simp [run]⟩
    | cons t ts =>
      have hpos := t.sizeOfAll_named_lt
      rw [hw, Tree.sizeOfAll] at h
      omega
  | succ n ih =>
    cases hw : w.agenda with
    | nil =>
      have hstep := step?_eq_none hw
      rw [run_of_step?_eq_none hstep]
      exact ⟨hstep, by simp⟩
    | cons t ts =>
      obtain ⟨w', hstep, hagenda, hfound⟩ := step?_eq_some hw
      have hpos := t.sizeOfAll_named_lt
      rw [hw, Tree.sizeOfAll] at h
      have hless : Tree.sizeOfAll w'.agenda ≤ n := by
        rw [hagenda, Tree.sizeOfAll_append]
        split
        · rw [Tree.sizeOfAll]
          omega
        · omega
      obtain ⟨hend, hall⟩ := ih hless
      rw [run, hstep]
      refine ⟨hend, ?_⟩
      rw [hall, hfound, hagenda, List.flatMap_cons, Tree.collected_eq t]
      split <;> simp

end Extract.NameWalk

/-! ## Places in a tree -/

namespace Tree

/-- The node at a place: the numbers of the named children that lead to it from the root. -/
def at? : Tree → List Nat → Option Tree
  | t, [] => some t
  | t, i :: p => t.named[i]?.bind fun c => at? c p

structure IsOutermost (t : Tree) (p : List Nat) (u : Tree) : Prop where
  here : t.at? p = some u
  typeName : u.kind.IsTypeName
  outside : ∀ q v, q <+: p → q ≠ p → t.at? q = some v → ¬v.kind.IsTypeName

/-- An outermost type name stands at a place behind a child of one of some kinds. -/
def InClause (t : Tree) (kinds : List Kind) (p : List Nat) (u : Tree) : Prop :=
  ∃ i q c, p = i :: q ∧ t.named[i]? = some c ∧ c.kind ∈ kinds ∧ c.IsOutermost q u

variable {t u : Tree} {p : List Nat}

theorem isOutermost_iff_of_isTypeName (h : t.kind.IsTypeName) :
    t.IsOutermost p u ↔ p = [] ∧ u = t := by
  constructor
  · intro hu
    have hp : p = [] := by
      by_contra hne
      exact hu.outside [] t List.nil_prefix (Ne.symm hne) rfl h
    subst hp
    exact ⟨rfl, (Option.some.inj hu.here).symm⟩
  · rintro ⟨rfl, rfl⟩
    exact ⟨rfl, h, fun q v hq hne => absurd (List.prefix_nil.mp hq) hne⟩

theorem isOutermost_iff_of_not_isTypeName (h : ¬t.kind.IsTypeName) : t.IsOutermost p u ↔
    ∃ i q c, p = i :: q ∧ t.named[i]? = some c ∧ c.IsOutermost q u := by
  constructor
  · intro hu
    cases p with
    | nil =>
      obtain rfl := Option.some.inj hu.here
      exact absurd hu.typeName h
    | cons i q =>
      obtain ⟨c, hc, hat⟩ := Option.bind_eq_some_iff.mp hu.here
      refine ⟨i, q, c, rfl, hc, hat, hu.typeName, fun r v hr hne hv => ?_⟩
      refine hu.outside (i :: r) v ?_ (by simpa using hne) ?_
      · exact List.cons_prefix_cons.mpr ⟨rfl, hr⟩
      · exact Option.bind_eq_some_iff.mpr ⟨c, hc, hv⟩
  · rintro ⟨i, q, c, rfl, hc, hu⟩
    refine ⟨Option.bind_eq_some_iff.mpr ⟨c, hc, hu.here⟩, hu.typeName, fun r v hr hne hv => ?_⟩
    cases r with
    | nil => exact Option.some.inj hv ▸ h
    | cons j r =>
      obtain ⟨rfl, hprefix⟩ := List.cons_prefix_cons.mp hr
      obtain ⟨d, hd, hat⟩ := Option.bind_eq_some_iff.mp hv
      obtain rfl := Option.some.inj (hc.symm.trans hd)
      exact hu.outside r v hprefix (by simpa using hne) hat

end Tree

/-- The trees at the places that have a property, each place once, in the order of the source. -/
def Enumerates (P : List Nat → Tree → Prop) (us : List Tree) : Prop :=
  ∃ places : List (List Nat × Tree), places.Pairwise (fun x y => x.1 < y.1) ∧
    (∀ p u, (p, u) ∈ places ↔ P p u) ∧ us = places.map Prod.snd

/-- The names of the types at the places that have a property. -/
def ListsNames (P : List Nat → Tree → Prop) (names : List String) : Prop :=
  ∃ us, Enumerates P us ∧ List.Forall₂ Tree.IsNamed us names

section Enumerates
variable {P Q : List Nat → Tree → Prop} {us : List Tree}

theorem Enumerates.listsNames (h : Enumerates P us) :
    ListsNames P (us.map fun t => TypeName.erase t.text) := ⟨us, h, Tree.forall₂_isNamed us⟩

theorem Enumerates.congr (h : Enumerates P us) (hPQ : ∀ p u, P p u ↔ Q p u) :
    Enumerates Q us := by
  obtain ⟨places, hsorted, hmem, hus⟩ := h
  exact ⟨places, hsorted, fun p u => (hmem p u).trans (hPQ p u), hus⟩

theorem enumerates_nil (h : ∀ p u, ¬P p u) : Enumerates P [] :=
  ⟨[], .nil, fun p u => by simp [h p u], rfl⟩

theorem enumerates_singleton (t : Tree) : Enumerates (fun p u => p = [] ∧ u = t) [t] :=
  ⟨[([], t)], List.pairwise_singleton _ _, by simp, rfl⟩

/-- What is enumerated in each of several trees is enumerated in all of them, one after the other;
the first of them has the number `n`. -/
theorem enumerates_flatMap {R : Tree → List Nat → Tree → Prop} {f : Tree → List Tree}
    {ts : List Tree} (h : ∀ c ∈ ts, Enumerates (R c) (f c)) (n : Nat) :
    Enumerates (fun p u => ∃ i q c, p = (n + i) :: q ∧ ts[i]? = some c ∧ R c q u)
      (ts.flatMap f) := by
  induction ts generalizing n with
  | nil => exact enumerates_nil (by simp)
  | cons t ts ih =>
    obtain ⟨ht, hts⟩ := List.forall_mem_cons.mp h
    obtain ⟨places, hsorted, hmem, hus⟩ := ht
    obtain ⟨places', hsorted', hmem', hus'⟩ := ih hts (n + 1)
    refine ⟨places.map (fun x => (n :: x.1, x.2)) ++ places', ?_, fun p u => ?_, ?_⟩
    · refine List.pairwise_append.mpr ⟨?_, hsorted', ?_⟩
      · rw [List.pairwise_map]
        exact hsorted.imp fun hlt => List.cons_lt_cons_iff.mpr (.inr ⟨rfl, hlt⟩)
      · rintro x hx ⟨p, u⟩ hy
        obtain ⟨x, -, rfl⟩ := List.mem_map.mp hx
        obtain ⟨i, q, -, rfl, -⟩ := (hmem' p u).mp hy
        exact List.cons_lt_cons_iff.mpr (.inl (by omega))
    · rw [List.mem_append, List.mem_map, hmem']
      constructor
      · rintro (⟨⟨q, v⟩, hv, heq⟩ | ⟨i, q, c, rfl, hc, hu⟩)
        · obtain ⟨rfl, rfl⟩ := Prod.mk.inj heq
          exact ⟨0, q, t, rfl, rfl, (hmem q v).mp hv⟩
        · exact ⟨i + 1, q, c, by rw [Nat.add_assoc, Nat.add_comm 1], hc, hu⟩
      · rintro ⟨i, q, c, rfl, hc, hu⟩
        cases i with
        | zero =>
          obtain rfl := Option.some.inj hc
          exact .inl ⟨(q, u), (hmem q u).mpr hu, rfl⟩
        | succ i => exact .inr ⟨i, q, c, by rw [Nat.add_assoc, Nat.add_comm 1], hc, hu⟩
    · rw [List.flatMap_cons, hus, hus', List.map_append, List.map_map]
      rfl

theorem enumerates_collected (t : Tree) : Enumerates t.IsOutermost t.collected := by
  induction t using Tree.named_induction with
  | _ t ih =>
    rw [Tree.collected_eq]
    split
    · rename_i ht
      exact (enumerates_singleton t).congr fun p u =>
        (Tree.isOutermost_iff_of_isTypeName ht).symm
    · rename_i ht
      refine (enumerates_flatMap ih 0).congr fun p u => ?_
      simp only [Nat.zero_add]
      exact (Tree.isOutermost_iff_of_not_isTypeName ht).symm

end Enumerates

/-! ## Clauses of declarations -/

/-- As many visits as a tree has nodes are enough to find what the recursion collects from it. -/
theorem run_start (t : Tree) : (NameWalk.run t.size (.start t)).step? = none ∧
    (NameWalk.run t.size (.start t)).found.toList =
      t.collected.map fun u => TypeName.erase u.text := by
  have hagenda : (NameWalk.start t).agenda = [t] := rfl
  have hsize : Tree.sizeOfAll (NameWalk.start t).agenda ≤ t.size := Nat.le_refl _
  obtain ⟨hend, hfound⟩ := NameWalk.run_of_size_le hsize
  refine ⟨hend, hfound.trans ?_⟩
  rw [hagenda]
  simp [NameWalk.start]

theorem typeNames_eq (t : Tree) :
    typeNames t = t.collected.map fun u => TypeName.erase u.text := (run_start t).2

theorem flatMap_filter_eq {α β : Type} (p : α → Bool) (f : α → List β) (xs : List α) :
    (xs.filter p).flatMap f = xs.flatMap fun x => if p x then f x else [] := by
  induction xs with
  | nil => rfl
  | cons x xs ih => by_cases hx : p x <;> simp [hx, ih]

theorem listsNames_clauses {kinds : List Kind} {clause : Tree → Bool}
    (h : ∀ c, clause c = true ↔ c.kind ∈ kinds) (d : Tree) :
    ListsNames (d.InClause kinds) ((d.named.filter clause).flatMap typeNames) := by
  have hclause : ∀ c ∈ d.named, Enumerates (fun q u => c.kind ∈ kinds ∧ c.IsOutermost q u)
      (if clause c then c.collected else []) := by
    intro c _
    split
    · rename_i hc
      exact (enumerates_collected c).congr fun q u => (and_iff_right ((h c).mp hc)).symm
    · rename_i hc
      exact enumerates_nil fun q u hu => hc ((h c).mpr hu.1)
  have hall := enumerates_flatMap hclause 0
  rw [← flatMap_filter_eq] at hall
  have hnames : (d.named.filter clause).flatMap typeNames =
      ((d.named.filter clause).flatMap Tree.collected).map fun u => TypeName.erase u.text := by
    rw [List.map_flatMap]
    exact List.flatMap_congr fun c _ => typeNames_eq c
  rw [hnames]
  refine (hall.congr fun p u => ?_).listsNames
  simp only [Nat.zero_add]
  rfl

theorem listsNames_supertypes (kinds : List Kind) (d : Tree) :
    ListsNames (d.InClause kinds) (supertypes kinds d) :=
  listsNames_clauses (fun _ => List.contains_iff_mem) d

theorem listsNames_throws (before : List Tree) (ownerName : String) (found : List FieldFacts)
    (d : Tree) :
    ListsNames (d.InClause [.throwsClause]) (method before ownerName found d).throws :=
  listsNames_clauses (by simp) d

/-- A type and its methods list the names in their own clauses. -/
structure TypeFacts.Lists (t : TypeFacts) (d : Tree) : Prop where
  superclasses : ListsNames (d.InClause [.superclass, .extendsInterfaces]) t.superclasses
  interfaces : ListsNames (d.InClause [.superInterfaces]) t.interfaces
  throws : List.Forall₂ (fun p m => ListsNames (p.tree.InClause [.throwsClause]) m.throws)
    d.callables t.methods

/-- The names after `extends` and after `implements`. -/
def TypeFacts.supers (t : TypeFacts) : List String × List String := (t.superclasses, t.interfaces)

def Tree.supers (d : Tree) : List String × List String :=
  (supertypes [.superclass, .extendsInterfaces] d, supertypes [.superInterfaces] d)

theorem TypeFacts.Reflects.lists {t : TypeFacts} {d : Tree} (h : t.Reflects d)
    (hsupers : t.supers = d.supers) : t.Lists d := by
  obtain ⟨hsuperclasses, hinterfaces⟩ := Prod.mk.inj hsupers
  refine ⟨?_, ?_, h.forall₂_methods_iff.mpr fun init p rest _ _ => listsNames_throws ..⟩
  · rw [hsuperclasses]
    exact listsNames_supertypes _ d
  · rw [hinterfaces]
    exact listsNames_supertypes _ d

theorem forall₂_lists {ds : List Tree} {types : List TypeFacts}
    (h : List.Forall₂ (fun d t => TypeFacts.Reflects t d) ds types)
    (hsupers : types.map TypeFacts.supers = ds.map Tree.supers) :
    List.Forall₂ (fun d t => TypeFacts.Lists t d) ds types := by
  induction h with
  | nil => exact .nil
  | cons hfirst _ ih =>
    obtain ⟨hsupers, hrest⟩ := List.cons.inj hsupers
    exact .cons (hfirst.lists hsupers) (ih hrest)

/-! ## All declarations of a file -/

/-- The type declarations among trees, each followed by those in its body. -/
inductive Declares : List Tree → List Tree → Prop
  | nil : Declares [] []
  | skip {t : Tree} {ts ds : List Tree} (ht : ¬t.IsType) (h : Declares ts ds) :
    Declares (t :: ts) ds
  | type {d : Tree} {ts inner ds : List Tree} (hd : d.IsType)
    (hinner : Declares (d.members.map Placed.tree) inner) (h : Declares ts ds) :
    Declares (d :: ts) (d :: (inner ++ ds))

section Declares
variable {ts ts' ds ds' : List Tree}

theorem Declares.append (h : Declares ts ds) (h' : Declares ts' ds') :
    Declares (ts ++ ts') (ds ++ ds') := by
  induction h with
  | nil => exact h'
  | skip ht _ ih => exact .skip ht ih
  | type hd hinner _ _ ih =>
    rw [List.cons_append, List.cons_append, List.append_assoc]
    exact .type hd hinner ih

theorem Declares.unique (h : Declares ts ds) (h' : Declares ts ds') : ds = ds' := by
  induction h generalizing ds' with
  | nil =>
    cases h'
    rfl
  | skip ht _ ih =>
    cases h' with
    | skip _ h' => exact ih h'
    | type hd => exact absurd hd ht
  | type hd _ _ ihinner ih =>
    cases h' with
    | skip ht => exact absurd hd ht
    | type _ hinner' h' => rw [ihinner hinner', ih h']

theorem Listing.exists_declares {outer : Option Nat} {qualifier : Option String} {n : Nat}
    {types : List TypeFacts} (h : Listing outer qualifier n ts types) :
    ∃ ds, Declares ts ds ∧ List.Forall₂ (fun d t => TypeFacts.Reflects t d) ds types := by
  induction h with
  | nil => exact ⟨[], .nil, .nil⟩
  | skip ht _ ih =>
    obtain ⟨ds, hds, hall⟩ := ih
    exact ⟨ds, .skip ht hds, hall⟩
  | type hd ht _ _ _ _ ihinner ih =>
    obtain ⟨inner, hinner, hallinner⟩ := ihinner
    obtain ⟨ds, hds, hall⟩ := ih
    exact ⟨_, .type hd hinner hds, .cons ht (List.rel_append hallinner hall)⟩

end Declares

namespace Extract

/-- From some types to others, those that trees declare are added with the names after `extends` and
`implements`. -/
def AddsSupers (ts : List Tree) (types types' : List TypeFacts) : Prop :=
  ∃ ds, Declares ts ds ∧
    types'.map TypeFacts.supers = types.map TypeFacts.supers ++ ds.map Tree.supers

variable {ts ts' : List Tree} {types types' types'' : List TypeFacts}

theorem AddsSupers.trans (h : AddsSupers ts types types') (h' : AddsSupers ts' types' types'') :
    AddsSupers (ts ++ ts') types types'' := by
  obtain ⟨ds, hds, heq⟩ := h
  obtain ⟨ds', hds', heq'⟩ := h'
  exact ⟨ds ++ ds', hds.append hds', by rw [heq', heq, List.map_append, List.append_assoc]⟩

theorem supers_modify {f : TypeFacts → TypeFacts} (hf : ∀ t, (f t).supers = t.supers) (i : Nat)
    (types : List TypeFacts) :
    (types.modify i f).map TypeFacts.supers = types.map TypeFacts.supers := by
  refine List.ext_getElem? fun j => ?_
  rw [List.getElem?_map, List.getElem?_map, List.getElem?_modify]
  by_cases hj : i = j <;> cases types[j]? <;> simp [hj, hf]

theorem supers_addMethod (i : Nat) (m : MethodFacts) (types : List TypeFacts) :
    (addMethod i m types).map TypeFacts.supers = types.map TypeFacts.supers :=
  supers_modify (f := fun o => { o with methods := o.methods ++ [m] }) (fun _ => rfl) i types

theorem supers_addFields (i : Nat) (fs : List FieldFacts) (types : List TypeFacts) :
    (addFields i fs types).map TypeFacts.supers = types.map TypeFacts.supers :=
  supers_modify (f := fun o => { o with fields := o.fields ++ fs }) (fun _ => rfl) i types

theorem supers_addOwn (scope : Scope) (before : List Tree) (types : List TypeFacts) (t : Tree) :
    (addOwn scope before types t).map TypeFacts.supers = types.map TypeFacts.supers := by
  unfold addOwn
  split
  · rfl
  · split <;> simp only [supers_addMethod, supers_addFields]

mutual

theorem addsSupers_addDeclaration (scope : Scope) (before : List Tree) (types : List TypeFacts) :
    ∀ t, AddsSupers ((Tree.membersIn before t).map Placed.tree) types
      (addDeclaration scope before types t)
  | .node k r text a b cs => by
    by_cases ht : (Tree.node k r text a b cs).IsType
    · obtain ⟨⟨kind, hkind⟩, name, hname⟩ :=
        ht.imp Option.isSome_iff_exists.mp Option.isSome_iff_exists.mp
      have hkind' : TypeKind.ofKind? k = some kind := hkind
      rw [addDeclaration, hkind', hname, (membersIn_of_isType ht before).1]
      obtain ⟨inner, hinner, heq⟩ := addsSupers_addBodies _ _ cs
      refine ⟨_, .type ht hinner .nil, heq.trans ?_⟩
      rw [List.map_append, List.append_assoc, List.append_nil]
      rfl
    · rw [addDeclaration_of_not_isType ht, Tree.membersIn]
      split
      · exact addsSupers_addDeclarations scope [] types cs
      · exact ⟨[], .skip ht .nil, by rw [supers_addOwn]; simp⟩

theorem addsSupers_addBodies (scope : Scope) (types : List TypeFacts) :
    ∀ cs, AddsSupers ((cs.flatMap Tree.bodyMembers).map Placed.tree) types
      (addBodies scope types cs)
  | [] => ⟨[], .nil, by simp [addBodies]⟩
  | .node k r text a b cs :: ts => by
    rw [addBodies, List.flatMap_cons, List.map_append]
    refine .trans ?_ (addsSupers_addBodies scope _ ts)
    by_cases hr : r = some .body
    · have hmembers : Tree.bodyMembers (.node k r text a b cs) = Tree.membersOf [] cs := if_pos hr
      rw [if_pos hr, hmembers]
      exact addsSupers_addDeclarations scope [] types cs
    · have hmembers : Tree.bodyMembers (.node k r text a b cs) = [] := if_neg hr
      rw [if_neg hr, hmembers]
      exact ⟨[], .nil, by simp⟩

theorem addsSupers_addDeclarations (scope : Scope) (before : List Tree) (types : List TypeFacts) :
    ∀ ts, AddsSupers ((Tree.membersOf before ts).map Placed.tree) types
      (addDeclarations scope before types ts)
  | [] => ⟨[], .nil, by simp [addDeclarations]⟩
  | t :: ts => by
    rw [addDeclarations, Tree.membersOf, List.map_append]
    exact (addsSupers_addDeclaration scope before types t).trans
      (addsSupers_addDeclarations scope (t :: before) _ ts)

end

theorem addsSupers_part (package : Option String) (before : List Tree) (types : List TypeFacts)
    (t : Tree) : AddsSupers [t] types
      (if (TypeKind.ofKind? t.kind).isSome then
        addDeclaration ⟨none, "", package⟩ before types t else types) := by
  split
  · rename_i hkind
    have hmembers : (Tree.membersIn before t).map Placed.tree = [t] := by
      cases t with
      | node k r text a b cs =>
        have hk : k ≠ .enumBodyDeclarations := by
          rintro rfl
          cases hkind
        rw [Tree.membersIn, if_neg hk]
        rfl
    rw [← hmembers]
    exact addsSupers_addDeclaration _ before types t
  · rename_i hkind
    exact ⟨[], .skip (fun ht => hkind ht.1) .nil, by simp⟩

theorem exists_lists_unitTypes (package : Option String) (before : List Tree)
    (types : List TypeFacts) (parts : List Tree) :
    ∃ ds new, unitTypes package before types parts = types ++ new ∧ Declares parts ds ∧
      List.Forall₂ (fun d t => TypeFacts.Lists t d) ds new := by
  induction parts generalizing package before types with
  | nil => exact ⟨[], [], (List.append_nil _).symm, .nil, .nil⟩
  | cons t ts ih =>
    obtain ⟨new, hnew, hlisting⟩ :=
      exists_listing_part (packageName? t <|> package) before types t
    obtain ⟨ds, hds, hreflects⟩ := hlisting.exists_declares
    obtain ⟨ds', hds', hsupers⟩ := addsSupers_part (packageName? t <|> package) before types t
    obtain rfl := hds.unique hds'
    rw [hnew, List.map_append] at hsupers
    have hlists := forall₂_lists hreflects (List.append_cancel_left hsupers)
    obtain ⟨ds', new', hnew', hdeclares, hlists'⟩ :=
      ih (packageName? t <|> package) (t :: before) (types ++ new)
    refine ⟨ds ++ ds', new ++ new', ?_, hds.append hdeclares, List.rel_append hlists hlists'⟩
    rw [unitTypes, hnew, hnew', List.append_assoc]

end Extract

/-- What the walk over a tree promises: it ends and finds the names of what the recursion collects,
which are the outermost type names. -/
structure Tree.Walked (t : Tree) : Prop where
  ends : ∃ w : NameWalk, w.step? = none ∧ w.found.toList = typeNames t ∧
    ∀ n, t.size ≤ n → NameWalk.run n (.start t) = w
  recursive : List.Forall₂ Tree.IsNamed t.collected (typeNames t)
  outermost : ListsNames t.IsOutermost (typeNames t)

theorem walked (t : Tree) : t.Walked where
  ends := ⟨_, (run_start t).1, rfl, fun _ hn => NameWalk.run_eq_of_le hn (run_start t).1⟩
  recursive := typeNames_eq t ▸ Tree.forall₂_isNamed t.collected
  outermost := typeNames_eq t ▸ (enumerates_collected t).listsNames

def FileFacts.ListsTypes (f : FileFacts) (unit : Option Tree) : Prop :=
  ∃ ds, Declares (unit.elim [] Tree.children) ds ∧
    List.Forall₂ (fun d t => TypeFacts.Lists t d) ds f.types

theorem listsTypes_ofSource (parse : Parser) (path source : String) :
    (FileFacts.ofSource parse path source).ListsTypes (parse source) := by
  unfold FileFacts.ListsTypes FileFacts.ofSource
  cases parse source with
  | none => exact ⟨[], .nil, .nil⟩
  | some unit =>
    obtain ⟨ds, new, hnew, hds, hlists⟩ := exists_lists_unitTypes none [] [] unit.children
    refine ⟨ds, hds, ?_⟩
    dsimp only
    rw [hnew]
    exact hlists

/-- The walk over any tree finds what the recursion finds, so the lists of all declarations of a
file are complete and in order. -/
theorem walked_listsTypes (t : Tree) (parse : Parser) (path source : String) :
    t.Walked ∧ (FileFacts.ofSource parse path source).ListsTypes (parse source) :=
  ⟨walked t, listsTypes_ofSource parse path source⟩

example : ((FileFacts.ofSource Tree.ofSource? "A.java" ("class A extends @N p.B<C<D>> " ++
      "implements E, F<G>.H \x7b void f() throws X, p.Y \x7b\x7d \x7d")).types.map fun t =>
    (t.superclasses, t.interfaces, t.methods.map (·.throws))) =
      [(["p.B"], ["E", "F.H"], [["X", "p.Y"]])] := by decide +kernel

end Lineage.Java
