import Lineage.Proofs.Chain
/-! # Histories without renames

Without operations every entity keeps its key, and the aggregate of a chain can be read off the
snapshots: a node for every key that occurs in any of them, with the commits of the snapshots that
hold it and with the fate that the last two decide. Main statements: `told_aggregate`,
`mem_keys_aggregate_iff`, `commits_aggregate`, `labels_eq`.
-/
namespace Lineage

namespace Chain

open Refactoring (Operation)

/-- No step of the chain comes with operations. -/
def Plain : Chain → Prop
  | start _ => True
  | next c ops _ => c.Plain ∧ ops = []

def holders (c : Chain) (k : EntityKey) : List Snapshot := c.snapshots.filter (k ∈ ·.graph.keys)

variable {d : String} {c : Chain} {ops : List Operation} {s : Snapshot} {k : EntityKey}

theorem holders_next_of_mem (hk : k ∈ s.graph.keys) :
    (c.next ops s).holders k = c.holders k ++ [s] := by
  simp [holders, snapshots, hk]

theorem holders_next_of_not_mem (hk : k ∉ s.graph.keys) :
    (c.next ops s).holders k = c.holders k := by
  simp [holders, snapshots, hk]

theorem getLast?_holders (hk : k ∈ c.last.graph.keys) : (c.holders k).getLast? = some c.last := by
  cases c with
  | start s =>
    have hk : k ∈ s.graph.keys := hk
    simp [holders, snapshots, last, hk]
  | next c ops s =>
    have hk : k ∈ s.graph.keys := hk
    rw [holders_next_of_mem hk]
    simp [last]

/-- What a node says of the versions that hold its entity. -/
structure Chronicle (hs : List Snapshot) (n : Node) : Prop where
  versions : ∀ v, v ∈ n.versions ↔ ∃ s ∈ hs, s.commit.id = v
  first : n.firstVersion = hs.head?.map (·.commit.id)
  last : n.lastVersion = hs.getLast?.map (·.commit.id)

/-- What is true after every fold. -/
structure Told (c : Chain) (a : Aggregate) : Prop where
  chronicle : ∀ k n, a.graph.entity? k = some n → Chronicle (c.holders k) n
  seen : ∀ k n, a.graph.entity? k = some n → c.holders k ≠ []
  unseen : ∀ k, a.graph.entity? k = none → c.holders k = [c.last].filter (k ∈ ·.graph.keys)
  gone : ∀ k n, a.graph.entity? k = some n → k ∉ c.last.graph.keys → n.status = some .deleted

theorem told_start (d : String) (s : Snapshot) : Told (start s) ((start s).aggregate d) := by
  have hnone : ∀ k, ((start s).aggregate d).graph.entity? k = none := fun _ => rfl
  refine ⟨?_, ?_, fun _ _ => rfl, ?_⟩
  all_goals
    intro k n hn
    rw [hnone] at hn
    cases hn

theorem last_mem_holders (hk : k ∈ c.last.graph.keys) : c.last ∈ c.holders k :=
  List.mem_of_getLast? (getLast?_holders hk)

theorem head?_holders_next (hne : c.holders k ≠ []) :
    ((c.next ops s).holders k).head? = (c.holders k).head? := by
  by_cases hk : k ∈ s.graph.keys
  · rw [holders_next_of_mem hk, List.head?_append_of_ne_nil _ hne]
  · rw [holders_next_of_not_mem hk]

section Past
variable {a : Aggregate} (ht : Told c a)
include ht

/-- What the aggregate and the older snapshot of the next pair say together. -/
theorem Told.versions (v : String) :
    (∃ n, a.graph.entity? k = some n ∧ v ∈ n.versions) ∨
        (v = c.last.commit.id ∧ k ∈ c.last.graph.keys) ↔
      ∃ t ∈ c.holders k, t.commit.id = v := by
  cases he : a.graph.entity? k with
  | some n =>
    have hn := (ht.chronicle k n he).versions v
    simp only [Option.some.injEq, exists_eq_left', hn]
    constructor
    · rintro (hv | ⟨rfl, hk⟩)
      · exact hv
      · exact ⟨c.last, last_mem_holders hk, rfl⟩
    · exact .inl
  | none =>
    rw [ht.unseen k he]
    simp only [reduceCtorEq, false_and, exists_false, false_or, List.mem_filter, List.mem_singleton,
      decide_eq_true_eq]
    constructor
    · rintro ⟨rfl, hk⟩
      exact ⟨c.last, ⟨rfl, hk⟩, rfl⟩
    · rintro ⟨t, ⟨rfl, hk⟩, rfl⟩
      exact ⟨rfl, hk⟩

theorem Told.first : ((a.graph.entity? k).bind (·.firstVersion)).or
      (if k ∈ c.last.graph.keys then some c.last.commit.id else none) =
    (c.holders k).head?.map (·.commit.id) := by
  cases he : a.graph.entity? k with
  | some n =>
    have hne := ht.seen k n he
    rw [Option.bind_some, (ht.chronicle k n he).first]
    cases hh : c.holders k with
    | nil => exact absurd hh hne
    | cons t ts => rfl
  | none =>
    rw [ht.unseen k he, Option.bind_none, Option.none_or]
    by_cases hk : k ∈ c.last.graph.keys <;> simp [hk]

end Past

/-- What a node that is merged without operations says of its entity. -/
structure Reports (older newer : Snapshot) (n : Node) : Prop where
  versions : ∀ v, v ∈ n.versions ↔ v = older.commit.id ∧ n.key ∈ older.graph.keys ∨
    v = newer.commit.id ∧ n.key ∈ newer.graph.keys
  first : n.firstVersion =
    some (if n.key ∈ older.graph.keys then older.commit.id else newer.commit.id)
  last : n.lastVersion =
    some (if n.key ∈ newer.graph.keys then newer.commit.id else older.commit.id)
  status : n.status = some (fate older.graph newer.graph n.key)

section Step
variable (h : (c.next [] s).Parsed) (hfit : ((c.next [] s).aggregate d).Fits)
include h hfit

theorem entity?_of_mem (hk : k ∈ c.last.graph.keys ∨ k ∈ s.graph.keys) :
    ∃ (n : Node) (i : NodeId), n.key = k ∧ Reports c.last s n ∧
      ((c.next [] s).aggregate d).graph.entity? k =
        some ((Aggregate.latest ((c.aggregate d).graph.entity? k) n).renumber i) := by
  have hnil : (c.matching [] s).rekeys = [] := Matching.rekeys_ofGraphs_nil _ _
  have hno : ∀ r ∈ (c.matching [] s).rekeys, r.older ≠ k := by
    rw [hnil]
    exact fun r hr => absurd hr List.not_mem_nil
  obtain ⟨n, i, rfl, hn, he⟩ := entity?_of_mem_merged h hfit hk hno
  have hren : ¬(c.matching [] s).Renames n.key := by
    rintro ⟨r, hr, -⟩
    rw [hnil] at hr
    cases hr
  have hformer : n.formerKey? = none := by
    rw [Option.eq_none_iff_forall_ne_some]
    intro k hk
    obtain ⟨r, hr, -, -⟩ := (hn.former k).mp hk
    rw [hnil] at hr
    cases hr
  refine ⟨n, i, rfl, ⟨?_, ?_, hn.last, ?_⟩, ?_⟩
  · simpa only [hren, or_false] using hn.versions
  · simpa only [hren, or_false] using hn.first
  · simpa only [hren, if_false] using hn.status
  · rw [he, Aggregate.former?, hformer, Option.bind_none, Option.or_none]

variable (ht : Told c (c.aggregate d))
include ht

theorem Told.chronicle_of_mem (hk : k ∈ c.last.graph.keys ∨ k ∈ s.graph.keys) {n : Node}
    (hn : ((c.next [] s).aggregate d).graph.entity? k = some n) :
    Chronicle ((c.next [] s).holders k) n ∧ n.status = some (fate c.last.graph s.graph k) := by
  obtain ⟨m, i, rfl, hm, he⟩ := entity?_of_mem h hfit hk
  rw [hn, Option.some.injEq] at he
  subst he
  refine ⟨⟨fun v => ?_, ?_, ?_⟩, ?_⟩
  · rw [Aggregate.mem_versions_latest, hm.versions, ← or_assoc, ht.versions v]
    by_cases hs : m.key ∈ s.graph.keys
    · rw [holders_next_of_mem hs]
      simp only [hs, and_true, List.mem_append, List.mem_singleton, or_and_right, exists_or,
        exists_eq_left, eq_comm (a := v)]
    · rw [holders_next_of_not_mem hs]
      simp only [hs, and_false, or_false]
  · have hpast := ht.first (k := m.key)
    rw [Aggregate.firstVersion_latest, hm.first]
    by_cases hs : m.key ∈ c.last.graph.keys
    · rw [if_pos hs] at hpast ⊢
      rw [hpast, head?_holders_next (List.ne_nil_of_mem (last_mem_holders hs))]
    · rw [if_neg hs, Option.or_none] at hpast
      rw [if_neg hs, hpast, holders_next_of_mem (hk.resolve_left hs)]
      cases c.holders m.key <;> rfl
  · rw [Aggregate.lastVersion_latest, hm.last]
    by_cases hs : m.key ∈ s.graph.keys
    · rw [if_pos hs, holders_next_of_mem hs]
      simp
    · rw [if_neg hs, holders_next_of_not_mem hs, getLast?_holders (hk.resolve_right hs)]
      rfl
  · rw [Aggregate.status_latest]
    exact hm.status

theorem Told.next : Told (c.next [] s) ((c.next [] s).aggregate d) where
  chronicle k n hn := by
    by_cases hk : k ∈ c.last.graph.keys ∨ k ∈ s.graph.keys
    · exact (ht.chronicle_of_mem h hfit hk hn).1
    · obtain ⟨h1, h2⟩ := not_or.mp hk
      rw [entity?_of_not_mem h hfit h1 h2] at hn
      rw [holders_next_of_not_mem h2]
      exact ht.chronicle k n hn
  seen k n hn := by
    by_cases h2 : k ∈ s.graph.keys
    · rw [holders_next_of_mem h2]
      exact List.append_ne_nil_of_right_ne_nil _ (List.cons_ne_nil _ _)
    · rw [holders_next_of_not_mem h2]
      by_cases h1 : k ∈ c.last.graph.keys
      · exact List.ne_nil_of_mem (last_mem_holders h1)
      · rw [entity?_of_not_mem h hfit h1 h2] at hn
        exact ht.seen k n hn
  unseen k hn := by
    by_cases hk : k ∈ c.last.graph.keys ∨ k ∈ s.graph.keys
    · obtain ⟨m, i, -, -, he⟩ := entity?_of_mem h hfit hk
      rw [hn] at he
      cases he
    · obtain ⟨h1, h2⟩ := not_or.mp hk
      have hlast : (c.next [] s).last = s := rfl
      rw [entity?_of_not_mem h hfit h1 h2] at hn
      rw [holders_next_of_not_mem h2, ht.unseen k hn, hlast]
      simp [h1, h2]
  gone k n hn h2 := by
    by_cases h1 : k ∈ c.last.graph.keys
    · have hstatus := (ht.chronicle_of_mem h hfit (.inl h1) hn).2
      have hfate : fate c.last.graph s.graph k = .deleted := by
        by_contra hf
        exact h2 ((h.last.fate_ne_deleted_iff _).mp hf)
      rw [hstatus, hfate]
    · rw [entity?_of_not_mem h hfit h1 h2] at hn
      exact ht.gone k n hn h1

end Step

theorem told_aggregate (h : c.Parsed) (hfit : (c.aggregate d).Fits) (hplain : c.Plain) :
    Told c (c.aggregate d) := by
  induction c with
  | start s => exact told_start d s
  | next c ops s ih =>
    obtain ⟨hc, rfl⟩ := hplain
    exact (ih h.of_next (fits_of_next hfit) hc).next h hfit

/-- From the first fold on, every entity of a snapshot has a node. -/
theorem mem_keys_aggregate_iff (h : (c.next [] s).Parsed)
    (hfit : ((c.next [] s).aggregate d).Fits)
    (ht : Told (c.next [] s) ((c.next [] s).aggregate d)) :
    k ∈ ((c.next [] s).aggregate d).graph.keys ↔
      ∃ t ∈ (c.next [] s).snapshots, k ∈ t.graph.keys := by
  rw [← Graph.entity?_isSome_iff]
  constructor
  · intro hk
    obtain ⟨n, hn⟩ := Option.isSome_iff_exists.mp hk
    obtain ⟨t, htk⟩ := List.exists_mem_of_ne_nil _ (ht.seen k n hn)
    obtain ⟨hmem, hkt⟩ := List.mem_filter.mp htk
    exact ⟨t, hmem, by simpa using hkt⟩
  · rintro ⟨t, hmem, hkt⟩
    by_contra hnone
    rw [Option.not_isSome_iff_eq_none] at hnone
    -- Only the newest snapshot could hold an entity without a node, and its own have one.
    have hs : k ∉ s.graph.keys := by
      intro hs
      obtain ⟨m, i, -, -, he⟩ := entity?_of_mem h hfit (.inr hs)
      rw [hnone] at he
      cases he
    have hholder : t ∈ (c.next [] s).holders k := List.mem_filter.mpr ⟨hmem, by simpa using hkt⟩
    rw [ht.unseen k hnone, List.mem_filter] at hholder
    rw [List.mem_singleton.mp hholder.1] at hkt
    exact hs hkt

/-! ## Commits and their labels -/

theorem commits_aggregate (d : String) (c : Chain) (ops : List Operation) (s : Snapshot)
    (hids : ((c.next ops s).snapshots.map (·.commit.id)).Nodup) :
    ((c.next ops s).aggregate d).commits = (c.next ops s).snapshots.map (·.commit) := by
  have hstep : ((c.next ops s).aggregate d).commits = Aggregate.recordCommit
      (Aggregate.recordCommit (c.aggregate d).commits c.last.commit) s.commit := by
    rw [aggregate_next]
    rfl
  have holder : Aggregate.recordCommit (c.aggregate d).commits c.last.commit =
      c.snapshots.map (·.commit) := by
    cases c with
    | start t => rfl
    | next c ops' t =>
      rw [snapshots, List.map_append] at hids
      rw [commits_aggregate d c ops' t (List.Nodup.of_append_left hids)]
      exact Aggregate.recordCommit_of_mem
        (List.mem_map_of_mem (List.mem_map_of_mem (last_mem_snapshots _)))
  rw [hstep, holder, snapshots, List.map_append]
  refine Aggregate.recordCommit_of_not_mem ?_
  rw [snapshots, List.map_append] at hids
  rw [List.map_map]
  exact fun hmem => (List.nodup_append.mp hids).2.2 _ hmem _ List.mem_cons_self rfl

/-- Commits with different ids are labelled by how far they are from the newest. -/
theorem labels_eq {a : Aggregate} (hids : (a.commits.map (·.id)).Nodup) :
    a.labels = a.commits.mapIdx fun i x =>
      (if i + 1 = a.commits.length then "V0" else s!"V-{a.commits.length - 1 - i}", x) := by
  refine filterMap_eq_mapIdx fun i hi => ?_
  have hindex : a.commits.findIdx? (·.id = a.commits[i].id) = some i := by
    rw [List.findIdx?_eq_some_iff_getElem]
    refine ⟨hi, by simp, fun j hj => ?_⟩
    have hi' : i < (a.commits.map (·.id)).length := by rwa [List.length_map]
    have hj' : j < (a.commits.map (·.id)).length := by omega
    have hinj : (a.commits.map (·.id))[j] = (a.commits.map (·.id))[i] ↔ j = i :=
      hids.getElem_inj_iff
    have hne : a.commits[j].id ≠ a.commits[i].id := by
      intro he
      rw [List.getElem_map, List.getElem_map] at hinj
      have := hinj.mp he
      omega
    simpa using hne
  have hback : a.commits.length - 1 - i = 0 ↔ i + 1 = a.commits.length := by omega
  simp only [Aggregate.label?, hindex, bind, Option.bind_some, pure, Option.map_some, hback]

/-! ## The history of all entities -/

/-- What a chain without operations should be aggregated to; `older` and `newer` are its last two
snapshots. -/
structure ExactHistory (c : Chain) (older newer : Graph) (a : Aggregate) : Prop where
  keys_nodup : a.graph.keys.Nodup
  keys : ∀ k, k ∈ a.graph.keys ↔ ∃ s ∈ c.snapshots, k ∈ s.graph.keys
  versions : ∀ n ∈ a.graph.nodes, ∀ v,
    v ∈ n.versions ↔ ∃ s ∈ c.snapshots, s.commit.id = v ∧ n.key ∈ s.graph.keys
  first : ∀ n ∈ a.graph.nodes, n.firstVersion =
    (c.snapshots.find? (n.key ∈ ·.graph.keys)).map (·.commit.id)
  last : ∀ n ∈ a.graph.nodes, n.lastVersion =
    (c.snapshots.reverse.find? (n.key ∈ ·.graph.keys)).map (·.commit.id)
  deleted : ∀ n ∈ a.graph.nodes, n.key ∉ newer.keys → n.status = some .deleted
  added : ∀ n ∈ a.graph.nodes, n.key ∈ newer.keys → n.key ∉ older.keys → n.status = some .added
  paired : ∀ n ∈ a.graph.nodes, ∀ old new, older.folded? n.key = some old →
    newer.folded? n.key = some new →
    n.status = some (if old.fingerprint = new.fingerprint then .unchanged else .modified)
  commits : a.commits = c.snapshots.map (·.commit)
  labels : a.labels = (c.snapshots.map (·.commit)).mapIdx fun i x =>
    (if i + 1 = c.snapshots.length then "V0" else s!"V-{c.snapshots.length - 1 - i}", x)

theorem exactHistory_aggregate (h : (c.next [] s).Parsed) (hplain : c.Plain)
    (hids : ((c.next [] s).snapshots.map (·.commit.id)).Nodup)
    (hfit : ((c.next [] s).aggregate d).Fits) :
    ExactHistory (c.next [] s) c.last.graph s.graph ((c.next [] s).aggregate d) := by
  have hindexed := indexed_aggregate h hfit
  have htold₀ : Told c (c.aggregate d) := told_aggregate h.of_next (fits_of_next hfit) hplain
  have htold : Told (c.next [] s) ((c.next [] s).aggregate d) :=
    told_aggregate h hfit ⟨hplain, rfl⟩
  have hentity : ∀ n ∈ ((c.next [] s).aggregate d).graph.nodes,
      ((c.next [] s).aggregate d).graph.entity? n.key = some n :=
    fun n hn => (mem_nodes_aggregate_iff h hfit).mp hn
  have hchronicle : ∀ n ∈ ((c.next [] s).aggregate d).graph.nodes,
      Chronicle ((c.next [] s).holders n.key) n :=
    fun n hn => htold.chronicle n.key n (hentity n hn)
  have hcommits := commits_aggregate d c [] s hids
  have hparsed : s.graph.Parsed := h.last
  refine
    { keys_nodup := hindexed.keys_nodup
      keys := fun k => ?_
      versions := fun n hn v => ?_
      first := fun n hn => ?_
      last := fun n hn => ?_
      deleted := fun n hn hk => htold.gone n.key n (hentity n hn) hk
      added := fun n hn h2 h1 => ?_
      paired := fun n hn old new hold hnew => ?_
      commits := hcommits
      labels := ?_ }
  · exact mem_keys_aggregate_iff h hfit htold
  · rw [(hchronicle n hn).versions v]
    simp only [holders, List.mem_filter, decide_eq_true_eq]
    exact exists_congr fun t => by rw [and_assoc, and_comm (a := n.key ∈ t.graph.keys)]
  · rw [(hchronicle n hn).first, holders, List.head?_filter]
  · rw [(hchronicle n hn).last, holders, List.getLast?_filter]
  · have hstatus := (htold₀.chronicle_of_mem h hfit (.inr h2) (hentity n hn)).2
    have hold := h.of_next.last.folded?_eq_none_iff.mpr h1
    obtain ⟨new, hnew⟩ := hparsed.exists_folded? h2
    rw [hstatus, fate, hold, hnew]
  · have h2 : n.key ∈ s.graph.keys := hparsed.mem_keys_of_folded? hnew
    have hstatus := (htold₀.chronicle_of_mem h hfit (.inr h2) (hentity n hn)).2
    rw [hstatus, fate, hold, hnew]
  · have hlen : ((c.next [] s).aggregate d).commits.length = (c.next [] s).snapshots.length := by
      rw [hcommits, List.length_map]
    rw [labels_eq (by rw [hcommits, List.map_map]; exact hids), hlen, hcommits]

section Sample
open Lineage.Graph (ofMethods)

def removedOnce : Chain :=
  (start ⟨ofMethods [("foo", 3), ("bar", 7)], .new "c0" 0⟩).next []
    ⟨ofMethods [("bar", 3)], .new "c1" 1⟩

def backAgain : Snapshot := ⟨ofMethods [("bar", 3), ("foo", 7)], .new "c2" 2⟩

theorem exactHistory_backAgain : (removedOnce.next [] backAgain).Parsed ∧ removedOnce.Plain ∧
    ((removedOnce.next [] backAgain).snapshots.map (·.commit.id)).Nodup ∧
    ((removedOnce.next [] backAgain).aggregate defaultDetector).Fits ∧
    ExactHistory (removedOnce.next [] backAgain) removedOnce.last.graph backAgain.graph
      ((removedOnce.next [] backAgain).aggregate defaultDetector) := by
  have hp : (removedOnce.next [] backAgain).Parsed := by
    simp only [Parsed, removedOnce, backAgain, snapshots]
    simp [Graph.parsed_ofMethods]
  have hplain : removedOnce.Plain := ⟨trivial, rfl⟩
  have hids : ((removedOnce.next [] backAgain).snapshots.map (·.commit.id)).Nodup := by decide
  have hfit : ((removedOnce.next [] backAgain).aggregate defaultDetector).Fits := by
    unfold Aggregate.Fits
    decide +kernel
  exact ⟨hp, hplain, hids, hfit, exactHistory_aggregate hp hplain hids hfit⟩

end Sample

end Chain

end Lineage
