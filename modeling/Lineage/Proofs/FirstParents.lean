import Lineage.Git.Session
import Lineage.Proofs.Keyed
import Lineage.Proofs.Walks
import Mathlib.Data.Fintype.Card
import Mathlib.Data.Bool.AllAny
import Mathlib.Data.List.Basic
import Mathlib.Data.List.Chain
import Mathlib.Data.List.TakeWhile
import Mathlib.Data.Set.Finite.Basic
import Mathlib.Logic.Relation
/-! # First parents

A history in a row is a window of the chain of first parents that are stored, and a timeline over
the same repository keeps commits of the window that is one longer than its budget. Main statements:
`lineage_eq_take`, `stays_walk`, `windowed_linear`.
-/
namespace Lineage.Git

open Relation

namespace Store

/-! ## The chain of first parents -/

/-- The commit under the second id has the first one as its first parent, which is stored. -/
def FirstParent (s : Store) (p id : Id) : Prop :=
  ∃ c, s.commit? id = some c ∧ c.parents.head? = some p ∧ (s.commit? p).isSome

/-- No commit descends from itself. -/
def Acyclic (s : Store) : Prop := ∀ id, ¬TransGen s.FirstParent id id

/-- The commits from one on, each the first parent of the one before, as far as they are stored. -/
inductive Chain (s : Store) : Id → List Commit → Prop
  | last {id : Id} {c : CommitObject} (hc : s.commit? id = some c) (hp : ∀ p, ¬s.FirstParent p id) :
    Chain s id [c.toCommit id]
  | next {id p : Id} {c : CommitObject} {cs : List Commit} (hc : s.commit? id = some c)
    (hp : s.FirstParent p id) (h : Chain s p cs) : Chain s id (c.toCommit id :: cs)

theorem acyclic_of_rank {s : Store} (rank : Id → Nat)
    (h : ∀ p id, s.FirstParent p id → rank p < rank id) : s.Acyclic := by
  have hlt : ∀ {p id}, TransGen s.FirstParent p id → rank p < rank id := by
    intro p id hp
    induction hp with
    | single hp => exact h _ _ hp
    | tail _ hp ih => exact ih.trans (h _ _ hp)
  exact fun id hid => Nat.lt_irrefl _ (hlt hid)

section Chain
variable {s : Store} {id p : Id} {c : CommitObject} {cs : List Commit}

theorem get?_of_commit? (h : s.commit? id = some c) : s.get? id = some (.commit c) := by
  unfold commit? at h
  split at h
  · rename_i hget
    rw [hget, Option.some.inj h]
  · cases h

theorem mem_keys (h : (s.commit? id).isSome) : id ∈ s.keys := by
  obtain ⟨c, hc⟩ := Option.isSome_iff_exists.mp h
  exact List.mem_map_of_mem (mem_of_lookup_eq_some (get?_of_commit? hc))

theorem parent?_eq_some_iff : s.parent? id 0 = some p ↔ s.FirstParent p id := by
  unfold parent? FirstParent
  cases hc : s.commit? id with
  | none => simp
  | some c =>
    cases hp : c.parents with
    | nil => simp [hp]
    | cons q ps =>
      simp only [Option.bind_eq_bind, Option.bind_some, hp, List.length_cons, Nat.zero_lt_succ,
        getElem?_pos, List.getElem_cons_zero, Option.ite_none_right_eq_some, Option.some.injEq,
        exists_eq_left', List.head?_cons]
      exact ⟨fun ⟨h, hq⟩ => ⟨hq, hq ▸ h⟩, fun ⟨hq, h⟩ => ⟨hq ▸ h, hq⟩⟩

theorem parent?_eq_none_iff : s.parent? id 0 = none ↔ ∀ p, ¬s.FirstParent p id := by
  rw [Option.eq_none_iff_forall_ne_some]
  simp only [ne_eq, parent?_eq_some_iff]

theorem lineage_eq_take (h : s.Chain id cs) (n : Nat) : s.lineage n id = cs.take n := by
  induction h generalizing n with
  | last hc hp =>
    cases n with
    | zero => rfl
    | succ n => simp [lineage, hc, parent?_eq_none_iff.mpr hp]
  | next hc hp _ ih =>
    cases n with
    | zero => rfl
    | succ n => simp [lineage, hc, parent?_eq_some_iff.mpr hp, ih]

theorem wellFounded_firstParent (h : s.Acyclic) :
    WellFounded fun a b : {id // id ∈ s.keys} => TransGen s.FirstParent a.1 b.1 := by
  have hfinite : Finite {id // id ∈ s.keys} := (List.finite_toSet s.keys).to_subtype
  have htrans : IsTrans {id // id ∈ s.keys} fun a b => TransGen s.FirstParent a.1 b.1 :=
    ⟨fun _ _ _ hab hbc => hab.trans hbc⟩
  have hirrefl : Std.Irrefl fun a b : {id // id ∈ s.keys} => TransGen s.FirstParent a.1 b.1 :=
    ⟨fun a => h a.1⟩
  exact Finite.wellFounded_of_trans_of_irrefl _

theorem exists_chain (h : s.Acyclic) (hid : (s.commit? id).isSome) : ∃ cs, s.Chain id cs := by
  have hall : ∀ a : {id // id ∈ s.keys}, (s.commit? a.1).isSome → ∃ cs, s.Chain a.1 cs := by
    intro a
    induction a using (wellFounded_firstParent h).induction with
    | _ a ih =>
    intro ha
    obtain ⟨c, hc⟩ := Option.isSome_iff_exists.mp ha
    by_cases hp : ∃ p, s.FirstParent p a.1
    · obtain ⟨p, hp⟩ := hp
      have hstored : (s.commit? p).isSome := hp.elim fun _ h => h.2.2
      obtain ⟨cs, hcs⟩ := ih ⟨p, mem_keys hstored⟩ (.single hp) hstored
      exact ⟨_, .next hc hp hcs⟩
    · exact ⟨_, .last hc (not_exists.mp hp)⟩
  exact hall ⟨id, mem_keys hid⟩ hid

theorem Chain.exists_cons (h : s.Chain id cs) :
    ∃ c rest, s.commit? id = some c ∧ cs = c.toCommit id :: rest := by
  cases h with
  | last hc _ => exact ⟨_, _, hc, rfl⟩
  | next hc _ _ => exact ⟨_, _, hc, rfl⟩

theorem Chain.isChain (h : s.Chain id cs) : cs.IsChain fun c p => s.FirstParent p.id c.id := by
  induction h with
  | last => exact List.isChain_singleton _
  | next hc hp h ih =>
    obtain ⟨c', rest, -, rfl⟩ := h.exists_cons
    exact List.isChain_cons_cons.mpr ⟨hp, ih⟩

def Stored (s : Store) (c : Commit) : Prop := ∃ o, s.commit? c.id = some o ∧ c = o.toCommit c.id

theorem Stored.isSome {c : Commit} (h : s.Stored c) : (s.commit? c.id).isSome := by
  obtain ⟨o, ho, -⟩ := h
  exact Option.isSome_iff_exists.mpr ⟨o, ho⟩

theorem Chain.stored (h : s.Chain id cs) : ∀ c ∈ cs, s.Stored c := by
  induction h with
  | last hc _ => exact List.forall_mem_singleton.mpr ⟨_, hc, rfl⟩
  | next hc _ _ ih => exact List.forall_mem_cons.mpr ⟨⟨_, hc, rfl⟩, ih⟩

theorem Chain.of_append {passed rest : List Commit} {current : Commit} (h : s.Chain id cs)
    (he : cs = passed ++ current :: rest) : s.Chain current.id (current :: rest) := by
  induction h generalizing passed with
  | last hc hp =>
    cases passed with
    | nil =>
      obtain ⟨rfl, rfl⟩ := List.cons_eq_cons.mp he
      exact .last hc hp
    | cons c passed => simp at he
  | next hc hp h ih =>
    cases passed with
    | nil =>
      obtain ⟨rfl, rfl⟩ := List.cons_eq_cons.mp he
      exact .next hc hp h
    | cons c passed => exact ih (List.cons_eq_cons.mp he).2

theorem Chain.exists_rest {head : Commit} (h : s.Chain head.id cs) (hhead : s.Stored head) :
    ∃ rest, cs = head :: rest := by
  obtain ⟨c, rest, hc, rfl⟩ := h.exists_cons
  obtain ⟨o, ho, he⟩ := hhead
  rw [hc] at ho
  rw [he, ← Option.some.inj ho]
  exact ⟨rest, rfl⟩

theorem FirstParent.eq {p q : Id} (hp : s.FirstParent p id) (hq : s.FirstParent q id) : p = q :=
  Option.some.inj ((parent?_eq_some_iff.mpr hp).symm.trans (parent?_eq_some_iff.mpr hq))

theorem Chain.next_eq {current p : Commit} {rest : List Commit}
    (h : s.Chain current.id (current :: rest)) (hp : s.FirstParent p.id current.id)
    (hstored : s.Stored p) : ∃ rest', rest = p :: rest' := by
  generalize hid : current.id = id at h hp
  generalize hcs : current :: rest = cs at h
  cases h with
  | last _ hnone => exact absurd hp (hnone _)
  | next hc hq h =>
    obtain rfl := hq.eq hp
    obtain ⟨rest', rfl⟩ := h.exists_rest hstored
    exact ⟨rest', (List.cons_eq_cons.mp hcs).2⟩

end Chain

end Store

/-! ## Ids -/

def IsId (id : Id) : Prop := id.length = 40 ∧ ∀ c ∈ id.toList, c ∈ "0123456789abcdef".toList

theorem isId_of_all {id : Id} (hlength : id.length = 40)
    (hdigits : id.toList.all ("0123456789abcdef".toList.contains ·) = true) : IsId id :=
  ⟨hlength, fun c hc => List.contains_iff_mem.mp (List.all_eq_true.mp hdigits c hc)⟩

/-- The ids of commits are ids, and no commit descends from itself. -/
structure Store.Sound (s : Store) : Prop where
  ids : ∀ id, (s.commit? id).isSome → IsId id
  acyclic : s.Acyclic

namespace Revision

theorem parse?_of_isId {id : Id} (h : IsId id) : parse? id = some (id, []) := by
  have hmarks : ∀ c ∈ id.toList, (!isMark c) = true := by
    intro c hc
    have hdigits : ∀ c ∈ "0123456789abcdef".toList, (!isMark c) = true :=
      List.all_iff_forall_prop.mp (by decide)
    exact hdigits c (h.2 c hc)
  have hrest : id.toList.dropWhile (!isMark ·) = [] := List.dropWhile_eq_nil_iff.mpr hmarks
  have hname : id.toList.takeWhile (!isMark ·) = id.toList := List.takeWhile_eq_self_iff.mpr hmarks
  simp [parse?, hrest, hname, stepsWithin]

theorem commit?_id {r : Repository} {id : Id} (h : IsId id) (hc : (r.objects.commit? id).isSome) :
    commit? r id = some id := by
  obtain ⟨c, hc⟩ := Option.isSome_iff_exists.mp hc
  have hget := Store.get?_of_commit? hc
  have hlower : id.map Text.asciiLower = id := by
    apply String.toList_injective
    rw [String.toList_map]
    have hdigits : ∀ c ∈ "0123456789abcdef".toList, Text.asciiLower c = c :=
      List.all_iff_forall_prop.mp (by decide)
    exact (List.map_congr_left fun c hc => hdigits c (h.2 c hc)).trans (List.map_id' _)
  have hne : id ≠ "" := by
    rintro rfl
    exact absurd h.1 (by decide)
  have hat : id ≠ "@" := by
    rintro rfl
    exact absurd h.1 (by decide)
  have hobject : object? r id = some id := by
    simp [object?, hne, hlower, TextMap.contains, hget]
  have hpeel : r.objects.peel? id = some id := by
    simp [Store.peel?, Store.peelWithin, hget]
  simp [commit?, hat, parse?_of_isId h, hobject, hpeel]

end Revision

/-! ## What a repository tells -/

namespace Repository
variable {r : Repository}

theorem resolved_eq {reference : String} {id : Id} (h : Revision.commit? r reference = some id) :
    r.resolved reference = match r.objects.commit? id with
      | some c => .ok (id, c)
      | none => .error (.unresolved reference) := by
  unfold resolved resolve
  rw [h]
  rfl

theorem exists_of_info {reference : String} {head : Commit} (h : r.info reference = .ok head) :
    Revision.commit? r reference = some head.id ∧ r.objects.Stored head := by
  cases hid : Revision.commit? r reference with
  | none =>
    unfold info resolved resolve at h
    rw [hid] at h
    cases h
  | some id =>
    rw [info, resolved_eq hid] at h
    cases hc : r.objects.commit? id with
    | none =>
      rw [hc] at h
      cases h
    | some c =>
      rw [hc] at h
      obtain rfl : c.toCommit id = head := Except.ok.inj h
      exact ⟨rfl, c, hc, rfl⟩

theorem linear_eq {reference : String} {head : Commit} {chain : List Commit}
    (h : r.info reference = .ok head) (hchain : r.objects.Chain head.id chain) (depth : Nat) :
    r.linear reference depth = .ok (chain.take (max depth 1)).reverse := by
  unfold linear resolve
  rw [(exists_of_info h).1]
  exact congrArg (fun cs => Except.ok (List.reverse cs)) (Store.lineage_eq_take hchain _)

theorem firstParent_of_parent {c p : Commit} (hs : r.objects.Sound) (hc : r.objects.Stored c)
    (h : r.parent c.id = .ok (some p)) : r.objects.FirstParent p.id c.id ∧ r.objects.Stored p := by
  have hid := Revision.commit?_id (hs.ids _ hc.isSome) hc.isSome
  obtain ⟨o, ho, -⟩ := hc
  rw [parent, resolved_eq hid, ho] at h
  dsimp only [bind, Except.bind, pure, Except.pure] at h
  split at h
  · cases h
  · split at h
    · rename_i q hq
      obtain ⟨o', ho', rfl⟩ := Option.map_eq_some_iff.mp (Except.ok.inj h)
      exact ⟨Store.parent?_eq_some_iff.mp hq, o', ho', rfl⟩
    · cases h

end Repository

end Lineage.Git

namespace Lineage

open Git (Repository)
open Refactoring (Detector)

variable {σ α β : Type}

/-! ## Worlds with one repository -/

/-- In the worlds of `K` the repository answers, and asking leads to such worlds. -/
structure Serves (h : History σ) (d : Detector σ) (r : Repository) (K : σ → Prop) : Prop where
  info : ∀ reference s, K s → (h.info reference s).1 = r.info reference ∧ K (h.info reference s).2
  parent : ∀ id s, K s → (h.parent id s).1 = r.parent id ∧ K (h.parent id s).2
  changedFiles : ∀ id s, K s → K (h.changedFiles id s).2
  detect : ∀ older newer s, K s → K (d.detect older newer s).2

/-- From the worlds of `K` the work leads to such worlds, with an answer that satisfies `P`. -/
def Stays (K : σ → Prop) (work : Inquiry σ α) (P : α → Prop) : Prop :=
  ∀ w, K w.1 → P (work w).1 ∧ K (work w).2.1

section Stays
variable {K : σ → Prop} {work : Inquiry σ α} {f : α → Inquiry σ β} {P : α → Prop} {Q : β → Prop}

theorem stays_pure {a : α} (ha : P a) : Stays K (pure a) P := fun _ hw => ⟨ha, hw⟩

theorem Stays.bind (h : Stays K work P) (hf : ∀ a, P a → Stays K (f a) Q) :
    Stays K (work >>= f) Q := by
  intro w hw
  obtain ⟨ha, hw'⟩ := h w hw
  exact hf _ ha _ hw'

theorem Stays.mono {P' : α → Prop} (h : Stays K work P) (hP : ∀ a, P a → P' a) :
    Stays K work P' := fun w hw => ⟨hP _ (h w hw).1, (h w hw).2⟩

theorem Stays.and_yields {P' : α → Prop} (h : Stays K work P) (hy : Yields work P') :
    Stays K work P' := fun w hw => ⟨hy w, (h w hw).2⟩

theorem stays_ask {question : StateM σ α} (h : ∀ s, K s → P (question s).1 ∧ K (question s).2) :
    Stays K (Inquiry.ask question) P := fun w hw => h w.1 hw

end Stays

section Serves
variable {h : History σ} {d : Detector σ} {r : Repository} {K : σ → Prop} (hs : Serves h d r K)
include hs

theorem stays_info (reference : String) :
    Stays K (Inquiry.ask (h.info reference)) (r.info reference = ·) := by
  apply stays_ask
  intro s hK
  exact ⟨(hs.info reference s hK).1.symm, (hs.info reference s hK).2⟩

theorem stays_parent (id : String) :
    Stays K (Inquiry.ask (h.parent id)) (r.parent id = ·) := by
  apply stays_ask
  intro s hK
  exact ⟨(hs.parent id s hK).1.symm, (hs.parent id s hK).2⟩

end Serves

namespace Timeline

/-! ## The walk -/

/-- The commits of the entries were passed on the chain before the current one. -/
def Walk.OnChain (chain : List Commit) (w : Walk) : Prop :=
  ∃ passed rest, chain = passed ++ w.current :: rest ∧
    (w.entries.map (·.commit)).reverse.Sublist passed ∧ passed.length = w.analyzed + 1

section Walk
variable {h : History σ} {d : Detector σ} {r : Repository} {K : σ → Prop}

theorem composes_stays (hs : Serves h d r K) :
    Composes h d fun _ work => Stays K work fun _ => True where
  of_pure _ := stays_pure trivial
  of_bind hw hf := hw.bind fun a _ => hf a
  of_parent id := stays_ask fun s hs' => ⟨trivial, (hs.parent id s hs').2⟩
  of_changedFiles id := stays_ask fun s hs' => ⟨trivial, hs.changedFiles id s hs'⟩
  of_detect older newer w hw := ⟨trivial, hs.detect older newer w.1 hw⟩

theorem stays_step (hs : Serves h d r K) (b : Budget) (target : Commit) (w : Walk) :
    Stays K (step h d b target w) fun next => ∀ w' ∈ next,
      ∃ p, r.parent w.current.id = .ok (some p) ∧ Looks d w p w' := by
  unfold step
  split
  · exact stays_pure nofun
  · refine (stays_parent hs w.current.id).bind fun answer hanswer => ?_
    match answer, hanswer with
    | .ok (some p), hp =>
      refine (((composes_stays hs).look w p).and_yields (looks_look h d w p)).bind fun w' hw' =>
        stays_pure ?_
      rintro _ ⟨⟩
      exact ⟨p, hp, hw'⟩
    | .ok none, _ => exact stays_pure nofun
    | .error e, _ => exact stays_pure nofun

variable {reference : String} {head : Commit} {chain : List Commit}

theorem Walk.OnChain.looks (hr : r.objects.Sound) (hchain : r.objects.Chain head.id chain)
    {w w' : Walk} {p : Commit} (hw : w.OnChain chain) (hp : r.parent w.current.id = .ok (some p))
    (hl : Looks d w p w') : w'.OnChain chain := by
  obtain ⟨passed, rest, he, hsub, hlen⟩ := hw
  have hstored : r.objects.Stored w.current := by
    apply hchain.stored
    rw [he]
    exact List.mem_append_right _ List.mem_cons_self
  obtain ⟨hparent, hp⟩ := Repository.firstParent_of_parent hr hstored hp
  obtain ⟨rest', rfl⟩ := (hchain.of_append he).next_eq hparent hp
  have hpassed : chain = passed ++ [w.current] ++ p :: rest' := by simp [he]
  cases hl with
  | passed =>
    refine ⟨passed ++ [w.current], rest', hpassed, ?_, by simp [hlen]⟩
    exact hsub.trans (List.sublist_append_left _ _)
  | kept s hdetected =>
    refine ⟨passed ++ [w.current], rest', hpassed, ?_, by simp [hlen]⟩
    rw [List.map_cons, List.reverse_cons]
    exact hsub.append (List.Sublist.refl _)

theorem stays_walk (hs : Serves h d r K) (hr : r.objects.Sound)
    (hchain : r.objects.Chain head.id chain) (b : Budget) (n : Nat) {w : Walk}
    (hw : w.OnChain chain) : Stays K (walk h d b head n w) fun w' =>
      w'.OnChain chain ∧ w'.analyzed ≤ w.analyzed + n := by
  induction n generalizing w with
  | zero => exact stays_pure ⟨hw, Nat.le_refl _⟩
  | succ n ih =>
    refine (stays_step hs b head w).bind fun next hnext => ?_
    cases next with
    | none => exact stays_pure ⟨hw, Nat.le_add_right _ _⟩
    | some w₁ =>
      obtain ⟨p, hp, hl⟩ := hnext w₁ rfl
      have hanalyzed : w₁.analyzed = w.analyzed + 1 := by cases hl <;> rfl
      refine (ih (hw.looks hr hchain hp hl)).mono fun w₂ hw₂ => ?_
      exact ⟨hw₂.1, by omega⟩

theorem Walk.OnChain.sublist_take {w : Walk} (hw : w.OnChain chain) {n : Nat}
    (hn : w.analyzed ≤ n) :
    (w.entries.map (·.commit)).Sublist (chain.take (n + 1)).reverse := by
  obtain ⟨passed, rest, rfl, hsub, hlen⟩ := hw
  have hprefix : passed <+: (passed ++ w.current :: rest).take (n + 1) :=
    List.prefix_take_iff.mpr ⟨List.prefix_append _ _, by omega⟩
  rw [← List.reverse_reverse (w.entries.map _), List.reverse_sublist]
  exact hsub.trans hprefix.sublist

/-! ## The timeline -/

theorem stays_ofTarget (hs : Serves h d r K) (hr : r.objects.Sound)
    (hchain : r.objects.Chain head.id chain) (hhead : r.objects.Stored head) (b : Budget) :
    Stays K (ofTarget h d b head) fun t =>
      t.commits.Sublist (chain.take (b.depth + 1)).reverse := by
  obtain ⟨rest, hcons⟩ := hchain.exists_rest hhead
  have halone : ∀ e : TimelineEntry, e.commit = head →
      (alone e).commits.Sublist (chain.take (b.depth + 1)).reverse := by
    intro e he
    have hmem : (alone e).commits = [head] := by rw [← he]; rfl
    rw [hmem, hcons]
    simp
  refine (stays_parent hs head.id).bind fun answer hanswer => ?_
  match answer, hanswer with
  | .ok none, _ => exact stays_pure (halone _ rfl)
  | .error e, _ => exact stays_pure (halone _ rfl)
  | .ok (some p), hp =>
    refine ((composes_stays hs).of_detect p head).bind fun ops _ => ?_
    dsimp only
    split
    · exact stays_pure (halone _ rfl)
    · obtain ⟨hparent, hp⟩ := Repository.firstParent_of_parent hr hhead hp
      obtain ⟨rest', rfl⟩ := (hcons ▸ hchain).next_eq hparent hp
      have hstart : ∀ (tracked : TextSet) (e : TimelineEntry), e.commit = head →
          Walk.OnChain chain ⟨p, tracked, 0, [e]⟩ := by
        rintro tracked e rfl
        exact ⟨[e.commit], rest', hcons, List.Sublist.refl _, rfl⟩
      refine (stays_walk hs hr hchain b b.depth (hstart _ _ rfl)).bind fun w hw =>
        stays_pure (hw.1.sublist_take ?_)
      simpa using hw.2

theorem stays_build (hs : Serves h d r K) (hr : r.objects.Sound)
    (hhead : r.info reference = .ok head) (hchain : r.objects.Chain head.id chain) (b : Budget) :
    Stays K (build h d b reference) fun answer => ∃ t, answer = .ok t ∧
      t.commits.Sublist (chain.take (b.depth + 1)).reverse := by
  refine (stays_info hs reference).bind fun answer hanswer => ?_
  obtain rfl : .ok head = answer := hhead.symm.trans hanswer
  refine (stays_ofTarget hs hr hchain (Repository.exists_of_info hhead).2 b).bind
    fun t ht => stays_pure ⟨t, rfl, ht⟩

end Walk

end Timeline

/-- Sessions in one folder serve its repository, with a detector that leaves it alone. -/
theorem serves_history (w : Git.Workplace) {d : Detector (Git.Session Git.Disk)} {r : Repository}
    (hd : ∀ older newer s, (d.detect older newer s).2.repository.repository w.folder =
      s.repository.repository w.folder) :
    Serves w.history d r fun s => s.repository.repository w.folder = r where
  info reference s hs := by
    rw [← hs]
    exact ⟨rfl, rfl⟩
  parent id s hs := by
    rw [← hs]
    exact ⟨rfl, rfl⟩
  changedFiles _ _ hs := hs
  detect older newer s hs := (hd older newer s).trans hs

/-! ## Windows -/

/-- What histories and timelines that end at a reference keep of the chain of its commit. -/
structure Windowed (r : Repository) (reference : String) (head : Commit) : Prop where
  available : ∃ chain, r.objects.Chain head.id chain ∧ ∀ depth, ∃ cs,
    r.linear reference depth = .ok cs ∧ cs.length = min (max depth 1) chain.length
  ends : ∀ depth cs, r.linear reference depth = .ok cs → cs.getLast? = some head
  parents : ∀ depth cs, r.linear reference depth = .ok cs →
    (∀ c ∈ cs, r.objects.Stored c) ∧ cs.IsChain fun p c => r.objects.FirstParent p.id c.id
  shorter : ∀ depth depth' cs cs', depth ≤ depth' → r.linear reference depth = .ok cs →
    r.linear reference depth' = .ok cs' → cs <:+ cs'
  timelines : ∀ {σ : Type} (h : History σ) (d : Detector σ) (K : σ → Prop), Serves h d r K →
    ∀ (b : Budget) s, K s.1 → ∃ t cs, (Timeline.build h d b reference s).1 = .ok t ∧
      r.linear reference (b.depth + 1) = .ok cs ∧ t.commits.Sublist cs

theorem windowed_linear {r : Repository} (hr : r.objects.Sound) {reference : String} {head : Commit}
    (hhead : r.info reference = .ok head) : Windowed r reference head := by
  have hstored := (Repository.exists_of_info hhead).2
  obtain ⟨chain, hchain⟩ := Git.Store.exists_chain hr.acyclic hstored.isSome
  have hlinear := Repository.linear_eq hhead hchain
  obtain ⟨rest, hcons⟩ := hchain.exists_rest hstored
  have htake : ∀ {depth cs}, r.linear reference depth = .ok cs →
      cs = (chain.take (max depth 1)).reverse := by
    intro depth cs h
    exact Except.ok.inj (h.symm.trans (hlinear depth))
  refine ⟨⟨chain, hchain, fun depth => ⟨_, hlinear depth, by simp⟩⟩, ?_, ?_, ?_, ?_⟩
  · intro depth cs h
    obtain ⟨n, hn⟩ : ∃ n, max depth 1 = n + 1 := ⟨max depth 1 - 1, by omega⟩
    rw [htake h, hcons, hn, List.take_succ_cons, List.getLast?_reverse, List.head?_cons]
  · intro depth cs h
    rw [htake h]
    constructor
    · intro c hc
      exact hchain.stored c (List.mem_of_mem_take (List.mem_reverse.mp hc))
    · exact List.isChain_reverse.mpr (hchain.isChain.take _)
  · intro depth depth' cs cs' hle h h'
    rw [htake h, htake h', List.reverse_suffix]
    exact List.take_prefix_take_left (by omega)
  · intro σ h d K hs b s hK
    obtain ⟨⟨t, ht, hsub⟩, -⟩ := Timeline.stays_build hs hr hhead hchain b s hK
    refine ⟨t, _, ht, hlinear _, ?_⟩
    rwa [Nat.max_eq_left (Nat.le_add_left 1 b.depth)]

section Sample

def lostId : Git.Id := "00c0ffee00c0ffee00c0ffee00c0ffee00c0ffee"
def olderId : Git.Id := "1a2b3c4d1a2b3c4d1a2b3c4d1a2b3c4d1a2b3c4d"
def newerId : Git.Id := "fedcba98fedcba98fedcba98fedcba98fedcba98"

def shallow : Repository :=
  (((default : Repository).commit "HEAD" ⟨olderId, [], 1, "older", "dev", some [lostId]⟩).commit
    "HEAD" ⟨newerId, [], 2, "newer", "dev", none⟩)

theorem sound_shallow : shallow.objects.Sound := by
  have hkeys : shallow.objects.keys = [olderId, newerId] := by decide +kernel
  refine ⟨fun id hid => ?_, Git.Store.acyclic_of_rank (if · = newerId then 1 else 0) ?_⟩
  · have hmem := Git.Store.mem_keys hid
    rw [hkeys] at hmem
    have holder : Git.IsId olderId := Git.isId_of_all (by decide +kernel) (by decide +kernel)
    have hnewer : Git.IsId newerId := Git.isId_of_all (by decide +kernel) (by decide +kernel)
    rcases List.mem_pair.mp hmem with rfl | rfl
    · exact holder
    · exact hnewer
  · intro p id hp
    have hmem : id ∈ shallow.objects.keys := by
      obtain ⟨c, hc, -⟩ := hp
      exact Git.Store.mem_keys (Option.isSome_iff_exists.mpr ⟨c, hc⟩)
    rw [← Git.Store.parent?_eq_some_iff] at hp
    have hranks : ∀ id ∈ [olderId, newerId], ∀ p ∈ shallow.objects.parent? id 0,
        (if p = newerId then 1 else 0) < if id = newerId then 1 else 0 := by decide +kernel
    exact hranks id (hkeys ▸ hmem) p hp

/-- However far back it may go, the history of a shallow copy ends where commits are lost. -/
theorem windowed_shallow : shallow.objects.Sound ∧
    shallow.info "HEAD" = .ok { Commit.new newerId 2 with message := "newer", author := "dev" } ∧
    (shallow.linear "HEAD" 5).map (·.map (·.id)) = .ok [olderId, newerId] ∧
    Windowed shallow "HEAD" { Commit.new newerId 2 with message := "newer", author := "dev" } := by
  have hhead : shallow.info "HEAD" =
      .ok { Commit.new newerId 2 with message := "newer", author := "dev" } := by decide +kernel
  exact ⟨sound_shallow, hhead, by decide +kernel, windowed_linear sound_shallow hhead⟩

end Sample

end Lineage
