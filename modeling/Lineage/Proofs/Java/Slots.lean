import Lineage.Java.Grammar
import Lineage.Proofs.Java.Entries
import Lineage.Proofs.Java.Members
import Lineage.Proofs.Java.Preorder
import Mathlib.Data.List.ReduceOption
/-! # Positions while a file is added

Each type of a file gets a slot: its position among all types that are kept, or nothing when it is
left out. The type around a nested one is looked up through its slot. Main statement:
`keepsPlaces_project`.
-/
namespace Lineage.Java

namespace Assembly

/-- The types of a file so far, by their positions among those that are kept. -/
abbrev Slots := List (Option Nat)

/-- The slot of the type around, if there is one; none if that type is left out. -/
def outerSlot? (slots : Slots) (t : TypeFacts) : Option (Option Nat) :=
  match t.outer with
  | none => some none
  | some i => ((slots[i]?).join).map some

/-- Adds the next type of a file; none if a slot leads to no type. -/
def addTypeAt (fileId : NodeId) (packageId : Option NodeId) (f : FileFacts)
    (s : Slots × Assembly) (t : TypeFacts) : Option (Slots × Assembly) :=
  match outerSlot? s.1 t, s.2.symbols.type? t.qualifiedName with
  | some none, none =>
    some (s.1 ++ [some s.2.types.length], (addType fileId packageId f none s.2 t).2)
  | some (some k), none => do
    let o ← s.2.types[k]?
    return (s.1 ++ [some s.2.types.length], (addType fileId packageId f (some o) s.2 t).2)
  | _, _ => some (s.1 ++ [none], s.2)

def opened (a : Assembly) (f : FileFacts) : Option NodeId × Assembly :=
  (a.placeFile f).packageOf f.package

def walk? (a : Assembly) (f : FileFacts) (n : Nat) : Option (Slots × Assembly) :=
  (f.types.take n).foldlM (addTypeAt a.graph.nextNode (a.opened f).1 f) ([], (a.opened f).2)

/-- A type of the file is kept as an entry, to which its slot leads. -/
def KeptAs (f : FileFacts) (s : Slots × Assembly) (j : Nat) (e : TypeEntry) : Prop :=
  ∃ k, s.1[j]? = some (some k) ∧ s.2.types[k]? = some e ∧ f.types[j]? = some e.facts

/-- When its turn comes, a type that is kept has the full name of this one. -/
def Repeats (a : Assembly) (f : FileFacts) (j : Nat) : Prop :=
  ∃ s t, a.walk? f j = some s ∧ f.types[j]? = some t ∧
    ∃ e ∈ s.2.types, e.facts.qualifiedName = t.qualifiedName

theorem walk?_succ {a : Assembly} {f : FileFacts} {n : Nat} {t : TypeFacts}
    (ht : f.types[n]? = some t) : a.walk? f (n + 1) =
      (a.walk? f n).bind fun s => addTypeAt a.graph.nextNode (a.opened f).1 f s t := by
  rw [walk?, List.take_add_one, ht, List.foldlM_append]
  simp [walk?]

/-- What the next type of a file comes to: it is left out for the type around it or for its name, or
it is kept below its file or below an entry. -/
inductive Comes (fileId : NodeId) (packageId : Option NodeId) (f : FileFacts)
    (s : Slots × Assembly) (t : TypeFacts) : Slots × Assembly → Prop
  | behind {i : Nat} (houter : t.outer = some i) (hslot : s.1[i]? = some none) :
    Comes fileId packageId f s t (s.1 ++ [none], s.2)
  | repeated (h : s.2.symbols.type? t.qualifiedName ≠ none) :
    Comes fileId packageId f s t (s.1 ++ [none], s.2)
  | top (houter : t.outer = none) (hfree : s.2.symbols.type? t.qualifiedName = none) :
    Comes fileId packageId f s t
      (s.1 ++ [some s.2.types.length], (addType fileId packageId f none s.2 t).2)
  | nested {i : Nat} {o : TypeEntry} (houter : t.outer = some i) (ho : KeptAs f s i o)
    (hfree : s.2.symbols.type? t.qualifiedName = none) : Comes fileId packageId f s t
      (s.1 ++ [some s.2.types.length], (addType fileId packageId f (some o) s.2 t).2)

def entriesAt (s : Slots × Assembly) : List (Option TypeEntry) :=
  s.1.map fun slot => slot.bind (s.2.types[·]?)

theorem entriesAt_leave (s : Slots × Assembly) :
    entriesAt (s.1 ++ [none], s.2) = entriesAt s ++ [none] := by simp [entriesAt]

theorem entriesAt_keep {s : Slots × Assembly} {b : Assembly} {e : TypeEntry}
    (hrange : ∀ k, some k ∈ s.1 → k < s.2.types.length) (hb : b.types = s.2.types ++ [e]) :
    entriesAt (s.1 ++ [some s.2.types.length], b) = entriesAt s ++ [some e] := by
  have hold : s.1.map (fun slot => slot.bind (b.types[·]?)) = entriesAt s := by
    refine List.map_congr_left fun slot hslot => ?_
    cases slot with
    | none => rfl
    | some k =>
      have hk := hrange k hslot
      simp [hb, List.getElem?_append_left hk]
  rw [entriesAt, List.map_append, hold]
  simp [hb]

section Step
variable {fileId : NodeId} {packageId : Option NodeId} {f : FileFacts} {s : Slots × Assembly}
  {t : TypeFacts}

theorem types_addType {outer : Option TypeEntry} {a : Assembly}
    (hfree : a.symbols.type? t.qualifiedName = none) :
    (addType fileId packageId f outer a t).2.types =
      a.types ++ [typeEntry a.graph.nextNode f outer t] :=
  (Grows.addType fileId packageId f outer hfree).types

theorem exists_comes (fileId : NodeId) (packageId : Option NodeId)
    (hrange : ∀ k, some k ∈ s.1 → k < s.2.types.length)
    (hlookup : ∀ i, t.outer = some i → s.1[i]? = some none ∨ ∃ o, KeptAs f s i o) :
    ∃ s', addTypeAt fileId packageId f s t = some s' ∧ Comes fileId packageId f s t s' ∧
      addTypeIfNew fileId packageId f (entriesAt s, s.2) t = (entriesAt s', s'.2) := by
  have hleave : ∀ s', s' = (s.1 ++ [none], s.2) →
      (entriesAt s ++ [none], s.2) = (entriesAt s', s'.2) := by
    rintro s' rfl
    rw [entriesAt_leave]
  have hkeep : ∀ outer, s.2.symbols.type? t.qualifiedName = none →
      (entriesAt s ++ [some (addType fileId packageId f outer s.2 t).1],
        (addType fileId packageId f outer s.2 t).2) =
      (entriesAt (s.1 ++ [some s.2.types.length], (addType fileId packageId f outer s.2 t).2),
        (addType fileId packageId f outer s.2 t).2) := by
    intro outer hfree
    rw [entriesAt_keep hrange (types_addType hfree), addType_eq hfree]
  cases htype : s.2.symbols.type? t.qualifiedName with
  | some id =>
    have hrepeated : s.2.symbols.type? t.qualifiedName ≠ none := by simp [htype]
    refine ⟨_, ?_, .repeated hrepeated, ?_⟩
    · rw [addTypeAt, htype]
      rcases outerSlot? s.1 t with _ | _ | k <;> rfl
    · rw [← hleave _ rfl, addTypeIfNew]
      dsimp only
      rw [htype]
      split
      · contradiction
      · rfl
  | none =>
    cases houter : t.outer with
    | none =>
      refine ⟨_, ?_, .top houter htype, ?_⟩
      · simp [addTypeAt, outerSlot?, houter, htype]
      · rw [← hkeep none htype]
        simp [addTypeIfNew, houter, htype]
    | some i =>
      rcases hlookup i houter with hslot | ⟨o, k, hslot, ho, hfacts⟩
      · have hentry : (entriesAt s)[i]? = some none := by simp [entriesAt, hslot]
        refine ⟨_, ?_, .behind houter hslot, ?_⟩
        · simp [addTypeAt, outerSlot?, houter, hslot]
        · rw [← hleave _ rfl]
          simp [addTypeIfNew, houter, hentry]
      · have hentry : (entriesAt s)[i]? = some (some o) := by simp [entriesAt, hslot, ho]
        refine ⟨_, ?_, .nested houter ⟨k, hslot, ho, hfacts⟩ htype, ?_⟩
        · simp [addTypeAt, outerSlot?, houter, hslot, ho, htype]
        · rw [← hkeep (some o) htype]
          simp [addTypeIfNew, houter, hentry, htype]

end Step

/-! ## The walk -/

/-- After the first `n` types of a file: the slots of those that are kept lead to the new entries in
order, which stand in the entries around them; those that are left out are the ones with a name that
is taken, and what stands in these. -/
structure Walking (files : List FileFacts) (a : Assembly) (f : FileFacts) (n : Nat)
    (s : Slots × Assembly) : Prop where
  listed : Listed files s.2
  length : s.1.length = n
  earlier : a.types <+: s.2.types
  positions :
    s.1.reduceOption = List.range' a.types.length (s.2.types.length - a.types.length)
  kept : ∀ j k, s.1[j]? = some (some k) → ∃ e, KeptAs f s j e
  inside : ∀ j e, KeptAs f s j e → ∃ is es, Enclosing f.types j is ∧
    List.Forall₂ (KeptAs f s) is es ∧ e.Inside f es
  skipped_iff : ∀ j, s.1[j]? = some none ↔
    j < n ∧ ∃ is, Enclosing f.types j is ∧ ∃ i ∈ j :: is, a.Repeats f i
  entries : (f.types.take n).foldl (addTypeIfNew a.graph.nextNode (a.opened f).1 f)
    ([], (a.opened f).2) = (entriesAt s, s.2)

section Walk
variable {files : List FileFacts} {a b : Assembly} {f : FileFacts} {n : Nat}
  {s : Slots × Assembly} {t : TypeFacts} {slot : Option Nat}

theorem exists_of_forall₂ {α β : Type} {R : α → β → Prop} {xs : List α} {ys : List β}
    (h : List.Forall₂ R xs ys) {y : β} (hy : y ∈ ys) : ∃ x ∈ xs, R x y := by
  induction h with
  | nil => cases hy
  | cons hxy _ ih =>
    rcases List.mem_cons.mp hy with rfl | hy
    · exact ⟨_, List.mem_cons_self, hxy⟩
    · obtain ⟨x, hx, hR⟩ := ih hy
      exact ⟨x, List.mem_cons_of_mem _ hx, hR⟩

theorem KeptAs.mem_types {j : Nat} {e : TypeEntry} (h : KeptAs f s j e) : e ∈ s.2.types := by
  obtain ⟨k, -, he, -⟩ := h
  exact List.mem_of_getElem? he

theorem KeptAs.snoc {j : Nat} {e : TypeEntry} (h : KeptAs f s j e) (slot : Option Nat)
    (hb : s.2.types <+: b.types) : KeptAs f (s.1 ++ [slot], b) j e := by
  obtain ⟨k, hslot, he, hfacts⟩ := h
  obtain ⟨new, hnew⟩ := hb
  refine ⟨k, ?_, ?_, hfacts⟩
  · rw [List.getElem?_append_left (List.getElem?_eq_some_iff.mp hslot).1, hslot]
  · rw [← hnew, List.getElem?_append_left (List.getElem?_eq_some_iff.mp he).1, he]

theorem KeptAs.unique {j : Nat} {e e' : TypeEntry} (h : KeptAs f s j e) (h' : KeptAs f s j e') :
    e = e' := by
  obtain ⟨k, hslot, he, -⟩ := h
  obtain ⟨k', hslot', he', -⟩ := h'
  obtain rfl : k = k' := by simpa [hslot] using hslot'
  exact Option.some.inj (he.symm.trans he')

theorem getElem?_snoc_eq_some_iff {slots : Slots} {slot x : Option Nat} {j : Nat} :
    (slots ++ [slot])[j]? = some x ↔ slots[j]? = some x ∨ j = slots.length ∧ slot = x := by
  rcases Nat.lt_trichotomy j slots.length with hj | rfl | hj
  · simp [List.getElem?_append_left hj, hj.ne]
  · simp
  · have hne : j ≠ slots.length := hj.ne'
    have hnone : slots[j]? = none := List.getElem?_eq_none hj.le
    have hpast : j - slots.length ≠ 0 := by omega
    simp [List.getElem?_append_right hj.le, hne, hnone, hpast]

theorem repeats_iff (hl : Listed files s.2) (hwalk : a.walk? f n = some s)
    (ht : f.types[n]? = some t) :
    a.Repeats f n ↔ s.2.symbols.type? t.qualifiedName ≠ none := by
  rw [Symbols.type?, Ne, lookup_eq_none_iff_not_mem, not_not, hl.types, List.map_map]
  constructor
  · rintro ⟨s', t', hwalk', ht', e, he, hname⟩
    obtain rfl := Option.some.inj (hwalk.symm.trans hwalk')
    obtain rfl := Option.some.inj (ht.symm.trans ht')
    exact List.mem_map.mpr ⟨e, he, hname⟩
  · intro hmem
    obtain ⟨e, he, hname⟩ := List.mem_map.mp hmem
    exact ⟨s, t, hwalk, ht, e, he, hname⟩

variable (h : Walking files a f n s)
include h

theorem Walking.keptAs_cases {j : Nat} {e : TypeEntry} (hb : s.2.types <+: b.types)
    (he : KeptAs f (s.1 ++ [slot], b) j e) :
    KeptAs f s j e ∨ j = n ∧ ∃ k, slot = some k ∧ b.types[k]? = some e := by
  obtain ⟨k, hslot, hk, -⟩ := id he
  rcases getElem?_snoc_eq_some_iff.mp hslot with hold | ⟨hj, hlast⟩
  · obtain ⟨e', he'⟩ := h.kept j k hold
    obtain rfl := he.unique (he'.snoc slot hb)
    exact .inl he'
  · exact .inr ⟨hj.trans h.length, k, hlast, hk⟩

theorem Walking.inside_snoc {j : Nat} {e : TypeEntry} (hb : s.2.types <+: b.types)
    (he : KeptAs f s j e) : ∃ is es, Enclosing f.types j is ∧
      List.Forall₂ (KeptAs f (s.1 ++ [slot], b)) is es ∧ e.Inside f es := by
  obtain ⟨is, es, his, hes, hinside⟩ := h.inside j e he
  exact ⟨is, es, his, hes.imp fun _ _ ho => ho.snoc slot hb, hinside⟩

theorem Walking.skipped_snoc_iff (hslot : slot = none ↔
    ∃ is, Enclosing f.types n is ∧ ∃ i ∈ n :: is, a.Repeats f i) (j : Nat) :
    (s.1 ++ [slot])[j]? = some none ↔
      j < n + 1 ∧ ∃ is, Enclosing f.types j is ∧ ∃ i ∈ j :: is, a.Repeats f i := by
  rw [getElem?_snoc_eq_some_iff, h.skipped_iff, h.length, Nat.lt_succ_iff_lt_or_eq, or_and_right]
  refine or_congr_right ?_
  constructor
  · rintro ⟨rfl, hnone⟩
    exact ⟨rfl, hslot.mp hnone⟩
  · rintro ⟨rfl, hrest⟩
    exact ⟨rfl, hslot.mpr hrest⟩

theorem Walking.positions_snoc {e : TypeEntry} (hb : b.types = s.2.types ++ [e]) :
    (s.1 ++ [some s.2.types.length]).reduceOption =
      List.range' a.types.length (b.types.length - a.types.length) := by
  have hle := h.earlier.length_le
  have hlen : b.types.length - a.types.length = s.2.types.length - a.types.length + 1 := by
    rw [hb, List.length_append, List.length_singleton]
    omega
  have hlast : a.types.length + (s.2.types.length - a.types.length) = s.2.types.length := by omega
  rw [hlen, List.range'_1_concat, hlast, List.reduceOption_append, h.positions]
  rfl

theorem Walking.leave {is : List Nat} (his : Enclosing f.types n is)
    (hrepeats : ∃ i ∈ n :: is, a.Repeats f i)
    (hentries : (f.types.take (n + 1)).foldl (addTypeIfNew a.graph.nextNode (a.opened f).1 f)
      ([], (a.opened f).2) = (entriesAt (s.1 ++ [none], s.2), s.2)) :
    Walking files a f (n + 1) (s.1 ++ [none], s.2) where
  listed := h.listed
  length := by simp [h.length]
  earlier := h.earlier
  positions := by simp [List.reduceOption_append, h.positions]
  kept j k hj := by
    rcases getElem?_snoc_eq_some_iff.mp hj with hj | ⟨-, hj⟩
    · obtain ⟨e, he⟩ := h.kept j k hj
      exact ⟨e, he.snoc none (List.prefix_refl _)⟩
    · cases hj
  inside j e he := by
    rcases h.keptAs_cases (List.prefix_refl _) he with he | ⟨-, k, hslot, -⟩
    · exact h.inside_snoc (List.prefix_refl _) he
    · cases hslot
  skipped_iff := h.skipped_snoc_iff (iff_of_true rfl ⟨is, his, hrepeats⟩)
  entries := hentries

theorem Walking.keep (hf : f ∈ files) {fileId : NodeId} {packageId : Option NodeId}
    {outer : Option TypeEntry} (ht : f.types[n]? = some t)
    (hfree : s.2.symbols.type? t.qualifiedName = none) {is : List Nat} {es : List TypeEntry}
    (his : Enclosing f.types n is) (hes : List.Forall₂ (KeptAs f s) is es)
    (hinside : (typeEntry s.2.graph.nextNode f outer t).Inside f es)
    (hnew : ∀ i ∈ n :: is, ¬a.Repeats f i)
    (hentries : (f.types.take (n + 1)).foldl (addTypeIfNew a.graph.nextNode (a.opened f).1 f)
      ([], (a.opened f).2) =
        (entriesAt (s.1 ++ [some s.2.types.length], (addType fileId packageId f outer s.2 t).2),
          (addType fileId packageId f outer s.2 t).2)) :
    Walking files a f (n + 1)
      (s.1 ++ [some s.2.types.length], (addType fileId packageId f outer s.2 t).2) := by
  have htypes : (addType fileId packageId f outer s.2 t).2.types =
      s.2.types ++ [typeEntry s.2.graph.nextNode f outer t] := types_addType hfree
  have hprefix : s.2.types <+: (addType fileId packageId f outer s.2 t).2.types :=
    htypes ▸ List.prefix_append _ _
  have hstays : List.Forall₂ (KeptAs f (s.1 ++ [some s.2.types.length],
      (addType fileId packageId f outer s.2 t).2)) is es :=
    hes.imp fun _ _ ho => ho.snoc _ hprefix
  have haround : es ⊆ (addType fileId packageId f outer s.2 t).2.types := by
    intro o ho
    obtain ⟨i, -, hi⟩ := exists_of_forall₂ hstays ho
    exact hi.mem_types
  have hself : KeptAs f (s.1 ++ [some s.2.types.length],
      (addType fileId packageId f outer s.2 t).2) n (typeEntry s.2.graph.nextNode f outer t) :=
    ⟨s.2.types.length, by simp [← h.length], by simp [htypes], ht⟩
  refine ⟨?_, by simp [h.length], h.earlier.trans hprefix, h.positions_snoc htypes, fun j k hj => ?_,
    fun j e he => ?_, h.skipped_snoc_iff (iff_of_false (Option.some_ne_none _) ?_), hentries⟩
  · refine h.listed.grow _ (Grows.addType fileId packageId f outer hfree) fun e he => ?_
    obtain rfl := List.mem_singleton.mp he
    exact ⟨f, hf, standsFor_addType fileId packageId f outer hfree, es, hinside, haround⟩
  · rcases getElem?_snoc_eq_some_iff.mp hj with hj | ⟨rfl, -⟩
    · obtain ⟨e, he⟩ := h.kept j k hj
      exact ⟨e, he.snoc _ hprefix⟩
    · exact ⟨_, h.length ▸ hself⟩
  · rcases h.keptAs_cases hprefix he with he | ⟨rfl, -, -, -⟩
    · exact h.inside_snoc hprefix he
    · obtain rfl := hself.unique he
      exact ⟨is, es, his, hstays, hinside⟩
  · rintro ⟨is', his', i, hi, hrepeats⟩
    obtain rfl := his'.unique his
    exact hnew i hi hrepeats

theorem Walking.step (hf : f ∈ files) (hfirst : OuterFirst 0 f.types)
    (hwalk : a.walk? f n = some s) (ht : f.types[n]? = some t) :
    ∃ s', a.walk? f (n + 1) = some s' ∧ Walking files a f (n + 1) s' := by
  have hrange : ∀ k, some k ∈ s.1 → k < s.2.types.length := by
    intro k hk
    obtain ⟨j, hj⟩ := List.getElem?_of_mem hk
    obtain ⟨e, k', hslot, he, -⟩ := h.kept j k hj
    obtain rfl : k = k' := by simpa [hj] using hslot
    exact (List.getElem?_eq_some_iff.mp he).1
  have hbefore : ∀ i, t.outer = some i → i < n := fun i hi => by simpa using hfirst.lt ht hi
  have hlookup : ∀ i, t.outer = some i → s.1[i]? = some none ∨ ∃ o, KeptAs f s i o := by
    intro i hi
    have hlt : i < s.1.length := h.length ▸ hbefore i hi
    cases hslot : s.1[i] with
    | none => exact .inl (by rw [List.getElem?_eq_getElem hlt, hslot])
    | some k => exact .inr (h.kept i k (by rw [List.getElem?_eq_getElem hlt, hslot]))
  obtain ⟨s', hadd, hcomes, hnew⟩ :=
    exists_comes a.graph.nextNode (a.opened f).1 hrange hlookup
  have hentries : (f.types.take (n + 1)).foldl (addTypeIfNew a.graph.nextNode (a.opened f).1 f)
      ([], (a.opened f).2) = (entriesAt s', s'.2) := by
    rw [List.take_add_one, ht, List.foldl_append, h.entries]
    exact hnew
  have hrepeats := repeats_iff h.listed hwalk ht
  refine ⟨s', by rw [walk?_succ ht, hwalk]; exact hadd, ?_⟩
  cases hcomes with
  | @behind i houter hslot =>
    obtain ⟨-, is, his, i', hi', hrepeated⟩ := (h.skipped_iff i).mp hslot
    exact h.leave (.nested ht houter his) ⟨i', List.mem_cons_of_mem _ hi', hrepeated⟩ hentries
  | repeated htaken =>
    obtain ⟨is, his⟩ := hfirst.exists_enclosing (List.getElem?_eq_some_iff.mp ht).1
    exact h.leave his ⟨n, List.mem_cons_self, hrepeats.mpr htaken⟩ hentries
  | top houter hfree =>
    refine h.keep hf ht hfree (.top ht houter) .nil (.top (List.mem_of_getElem? ht))
      (fun i hi hrepeated => ?_) hentries
    rw [List.mem_singleton.mp hi] at hrepeated
    exact hrepeats.mp hrepeated hfree
  | @nested i o houter ho hfree =>
    obtain ⟨is, es, his, hes, hinside⟩ := h.inside i o ho
    refine h.keep hf ht hfree (.nested ht houter his) (.cons ho hes)
      (.nested hinside (List.mem_of_getElem? ht)) (fun i' hi' hrepeated => ?_) hentries
    rcases List.mem_cons.mp hi' with rfl | hi'
    · exact hrepeats.mp hrepeated hfree
    · -- the type around would be left out with this one
      have hskipped := (h.skipped_iff i).mpr ⟨hbefore i houter, is, his, i', hi', hrepeated⟩
      obtain ⟨k, hslot, -⟩ := ho
      cases hskipped.symm.trans hslot

omit h

theorem walking_zero (h : Listed files a) : Walking files a f 0 ([], (a.opened f).2) where
  listed := h.of_grows (.openFile a f)
  length := rfl
  earlier := by
    rw [opened, (Grows.openFile a f).types]
    exact List.prefix_append _ _
  positions := by simp [opened, (Grows.openFile a f).types]
  kept _ _ hj := nomatch hj
  inside _ _ he := nomatch he
  skipped_iff j := by simp
  entries := rfl

theorem exists_walking (hl : Listed files a) (hf : f ∈ files) (hfirst : OuterFirst 0 f.types)
    (hn : n ≤ f.types.length) : ∃ s, a.walk? f n = some s ∧ Walking files a f n s := by
  induction n with
  | zero => exact ⟨_, rfl, walking_zero hl⟩
  | succ n ih =>
    obtain ⟨s, hwalk, hs⟩ := ih (by omega)
    exact hs.step hf hfirst hwalk (List.getElem?_eq_getElem hn)

end Walk

/-! ## What the slots tell -/

/-- After the first `n` types of a file each of them has a slot. Those of the types that are kept
lead, in order, to the entries that are new; such an entry knows the chain of entries around it. Left
out is just what repeats a name or stands in a type that does. -/
structure SlotsTell (a : Assembly) (f : FileFacts) (n : Nat) (s : Slots × Assembly) : Prop where
  length : s.1.length = n
  earlier : a.types <+: s.2.types
  positions :
    s.1.reduceOption = List.range' a.types.length (s.2.types.length - a.types.length)
  kept : ∀ j k, s.1[j]? = some (some k) → ∃ e, s.2.types[k]? = some e ∧
    f.types[j]? = some e.facts ∧ ∃ is es, Enclosing f.types j is ∧
      List.Forall₂ (KeptAs f s) is es ∧ e.outerIds = es.map (·.id) ∧
      e.context.enclosing = (e :: es).map (·.facts.qualifiedName)
  skipped_iff : ∀ j, s.1[j]? = some none ↔
    j < n ∧ ∃ is, Enclosing f.types j is ∧ ∃ i ∈ j :: is, a.Repeats f i

theorem Walking.slotsTell {files : List FileFacts} {a : Assembly} {f : FileFacts} {n : Nat}
    {s : Slots × Assembly} (h : Walking files a f n s) : SlotsTell a f n s := by
  refine ⟨h.length, h.earlier, h.positions, fun j k hj => ?_, h.skipped_iff⟩
  obtain ⟨e, k', hslot, hk, hfacts⟩ := h.kept j k hj
  obtain rfl : k = k' := by simpa [hj] using hslot
  obtain ⟨is, es, his, hes, hinside⟩ := h.inside j e ⟨k, hslot, hk, hfacts⟩
  refine ⟨e, hk, hfacts, is, es, his, hes, hinside.outerIds_eq, ?_⟩
  rw [hinside.context_eq]

/-- Every slot is there when it is looked up, and so is every entry to which one leads; all types
together are the file. -/
structure KeepsPlace (a : Assembly) (f : FileFacts) : Prop where
  lookups : ∀ n i (t : TypeFacts), f.types[n]? = some t → t.outer = some i → i < n
  walks : ∀ n ≤ f.types.length, ∃ s, a.walk? f n = some s ∧ SlotsTell a f n s
  whole : ∃ slots, a.walk? f f.types.length = some (slots, a.addFile f)

theorem keepsPlace_of_listed {files : List FileFacts} {a : Assembly} {f : FileFacts}
    (hl : Listed files a) (hf : f ∈ files) (hfirst : OuterFirst 0 f.types) : a.KeepsPlace f where
  lookups n i t ht hi := by simpa using hfirst.lt ht hi
  walks n hn := by
    obtain ⟨s, hwalk, hs⟩ := exists_walking hl hf hfirst hn
    exact ⟨s, hwalk, hs.slotsTell⟩
  whole := by
    obtain ⟨s, hwalk, hs⟩ := exists_walking hl hf hfirst le_rfl
    have hentries := hs.entries
    rw [List.take_length] at hentries
    have haddFile : a.addFile f = s.2 := by
      rw [addFile_eq]
      exact congrArg Prod.snd hentries
    exact ⟨s.1, by rw [hwalk, haddFile]⟩

end Assembly

namespace Project

/-- The types of each unit are listed in the order of their declarations, and none is misplaced while
the files are added one by one. -/
structure KeepsPlaces (p : Project) : Prop where
  listing : ∀ s ∈ p.sources, ∀ unit, p.parser s.2 = some unit → unit.PackageFirst →
    Listing none (FileFacts.ofSource p.parser s.1 s.2).package 0 unit.children
      (FileFacts.ofSource p.parser s.1 s.2).types
  located : ∀ s ∈ p.sources, ∀ unit, p.parser s.2 = some unit → unit.PackageFirst →
    ∀ j t, (FileFacts.ofSource p.parser s.1 s.2).types[j]? = some t →
      Located (FileFacts.ofSource p.parser s.1 s.2).package
        (FileFacts.ofSource p.parser s.1 s.2).types j t
  keepsPlace : ∀ earlier f later, p.files = earlier ++ f :: later →
    (earlier.foldl Assembly.addFile (.start p.name)).KeepsPlace f

theorem keepsPlaces_project (p : Project) : p.KeepsPlaces where
  listing s _ unit hunit hfirst := listing_ofSource hunit hfirst s.1
  located s _ unit hunit hfirst j t ht := by
    have hlisting := listing_ofSource hunit hfirst s.1
    simpa using hlisting.located [] rfl nofun (fun _ => rfl) j t ht
  keepsPlace earlier f later hfiles := by
    have hf : f ∈ p.files := hfiles ▸ List.mem_append_right _ List.mem_cons_self
    have hearlier : earlier ⊆ p.files := hfiles ▸ List.subset_append_left _ _
    exact Assembly.keepsPlace_of_listed (Assembly.listed_addFiles p.name hearlier) hf
      (p.outerFirst_files f hf)

/-- The second file repeats a type of the first, with another type inside. -/
def repeating : Project :=
  ⟨Tree.ofSource?, "app", [("A.java", "package p; class A \x7b class B \x7b \x7d \x7d"),
    ("C.java", "package p; class A \x7b class D \x7b \x7d \x7d class E \x7b class F \x7b \x7d \x7d")]⟩

theorem keepsPlaces_repeating : repeating.KeepsPlaces ∧
    (∀ s ∈ repeating.sources, ∃ unit ∈ repeating.parser s.2, unit.PackageFirst) ∧
    ∃ f ∈ repeating.files[0]?, ∃ g ∈ repeating.files[1]?,
      g.types.map (·.qualifiedName) = ["p.A", "p.A.D", "p.E", "p.E.F"] ∧
        ((Assembly.addFile (.start "app") f).walk? g 4).map (·.1) =
          some [none, none, some 2, some 3] :=
  ⟨keepsPlaces_project repeating, by decide +kernel, by decide +kernel⟩

end Project

end Lineage.Java
