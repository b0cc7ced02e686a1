import Lineage.Pipeline
import Lineage.Proofs.ExactHistory
import Lineage.Proofs.References
import Mathlib.Algebra.GroupWithZero.Nat
/-! # The documents of an export

Read as plain data, the four documents of an aggregate fit together: edges and versions lead to what
is listed, each once, and the summary counts what the other documents list. Main statements:
`sum_tally`, `Aggregate.Closed.intact`.
-/
namespace Lineage

/-! ## Reading documents -/

namespace Json

def field? (key : String) : Json → Option Json
  | record fields => fields.lookup key
  | _ => none

def nat? : Json → Option Nat
  | int (.ofNat n) => some n
  | _ => none

def text? : Json → Option String
  | text s => some s
  | _ => none

def bool? : Json → Option Bool
  | bool b => some b
  | _ => none

/-- The sum of a record of counts. -/
def total? : Json → Option Nat
  | record fields => ((fields.map (·.2)).mapM nat?).map List.sum
  | _ => none

def natAt? (key : String) (j : Json) : Option Nat := (j.field? key).bind nat?

def textAt? (key : String) (j : Json) : Option String := (j.field? key).bind text?

def boolAt? (key : String) (j : Json) : Option Bool := (j.field? key).bind bool?

def totalAt? (key : String) (j : Json) : Option Nat := (j.field? key).bind total?

end Json

/-! ## Counts -/

namespace Sorted

variable {k : String} {v : Nat} {xs : List (String × Nat)}

theorem lookup_eq_none_of_lt (h : ∀ e ∈ xs, k < e.1) : xs.lookup k = none := by
  rw [List.lookup_eq_none_iff]
  intro e he
  have hne : k ≠ e.1 := fun heq => String.lt_irrefl _ (heq ▸ h e he)
  simpa using hne

/-- The value that is replaced is no longer part of the sum. -/
theorem sum_insert (h : xs.Pairwise (fun a b => a.1 < b.1)) :
    ((insert k v xs).map (·.2)).sum + (xs.lookup k).getD 0 = (xs.map (·.2)).sum + v := by
  induction xs with
  | nil => simp [insert]
  | cons e r ih =>
    obtain ⟨he, hr⟩ := List.pairwise_cons.mp h
    unfold insert
    split
    · rename_i hk
      rw [hk, List.lookup_cons_self, List.map_cons, List.map_cons, List.sum_cons, List.sum_cons,
        Option.getD_some]
      omega
    · rename_i hne
      split
      · rename_i hlt
        have hnone : (e :: r).lookup k = none := lookup_eq_none_of_lt fun x hx => by
          rcases List.mem_cons.mp hx with rfl | hx
          · exact hlt
          · exact String.lt_trans hlt (he x hx)
        rw [hnone, List.map_cons, List.sum_cons, Option.getD_none]
        omega
      · have hlookup : (e :: r).lookup k = r.lookup k := lookup_cons_of_ne hne e.2 r
        rw [hlookup, List.map_cons, List.map_cons, List.sum_cons, List.sum_cons]
        have := ih hr
        omega

end Sorted

theorem sum_tally (xs : List String) : (tally xs).values.sum = xs.length := by
  induction xs using List.reverseRecOn with
  | nil => rfl
  | append_singleton xs x ih =>
    have hs : tally (xs ++ [x]) = (tally xs).insert x (((tally xs).get? x).getD 0 + 1) :=
      List.foldl_append
    have hsum : ((tally xs).insert x (((tally xs).get? x).getD 0 + 1)).values.sum +
        ((tally xs).get? x).getD 0 = (tally xs).values.sum + (((tally xs).get? x).getD 0 + 1) :=
      Sorted.sum_insert (tally xs).sorted
    rw [hs, List.length_append, List.length_singleton]
    omega

theorem total?_countsJson (m : TextMap Nat) :
    (Statistics.countsJson m).total? = some m.values.sum := by
  have hmap : ∀ ns : List Nat, (ns.map Json.nat).mapM Json.nat? = some ns := by
    intro ns
    induction ns with
    | nil => rfl
    | cons n ns ih =>
      rw [List.map_cons, List.mapM_cons, ih]
      rfl
  have hvalues : (m.entries.map fun e => (e.1, Json.nat e.2)).map (·.2) = m.values.map Json.nat := by
    rw [TextMap.values, List.map_map, List.map_map]
    rfl
  unfold Statistics.countsJson Json.total?
  dsimp only
  rw [hvalues, hmap, Option.map_some]

theorem totalAt?_countsJson {j : Json} {key : String} {xs : List String}
    (h : j.field? key = some (Statistics.countsJson (tally xs))) : j.totalAt? key = some xs.length := by
  rw [Json.totalAt?, h, Option.bind_some, total?_countsJson, sum_tally]

/-! ## What fits together -/

/-- The label of a version by the number of newer ones. -/
def versionLabel (newer : Nat) : String := if newer = 0 then "V0" else s!"V-{newer}"

/-- The summary counts what the other documents list. -/
structure Summarizes (summary : Json) (nodes edges versions : List Json) : Prop where
  statistics : ∃ s, summary.field? "statistics" = some s ∧
    s.natAt? "nodeCount" = some nodes.length ∧
    s.totalAt? "nodesByKind" = some nodes.length ∧
    s.totalAt? "nodesByStatus" = some nodes.length ∧
    s.natAt? "edgeCount" = some edges.length ∧
    s.totalAt? "edgesByKind" = some edges.length ∧
    s.natAt? "evolutionEdgeCount" = some (edges.countP (·.boolAt? "evolution" = some true))
  versions : summary.natAt? "versionCount" = some versions.length
  warnings : ∃ n, summary.natAt? "warningCount" = some n ∧ summary.totalAt? "warningsByKind" = some n

/-- Nodes are numbered, edges join listed nodes, and nodes name listed versions, each listed once and
labelled by its age. -/
structure Intact (nodes edges versions : List Json) (summary : Json) : Prop where
  ids : nodes.map (·.natAt? "id") = (List.range nodes.length).map some
  ends : ∀ e ∈ edges, ∃ s < nodes.length, ∃ t < nodes.length,
    e.natAt? "source" = some s ∧ e.natAt? "target" = some t
  flags : ∀ e ∈ edges, (e.boolAt? "evolution").isSome
  commits : ∀ n ∈ nodes, ∃ (vs : List String) (first last : String),
    n.field? "versions" = some (.texts vs) ∧ n.textAt? "firstVersion" = some first ∧
    n.textAt? "lastVersion" = some last ∧
    ∀ v ∈ first :: last :: vs, (versions.map (·.textAt? "id")).count (some v) = 1
  labels : versions.map (·.textAt? "label") =
    (List.range versions.length).reverse.map fun newer => some (versionLabel newer)
  summary : Summarizes summary nodes edges versions

def Export.IsIntact (e : Export) (time : String) : Prop :=
  ∃ nodes edges versions summary, e.documents time =
    [("nodes.json", .list nodes), ("edges.json", .list edges), ("versions.json", .list versions),
      ("summary.json", summary)] ∧ Intact nodes edges versions summary

namespace Aggregate

open Pipeline (versionsOf)

variable {a : Aggregate} (h : a.Closed)

theorem versionsOf_eq (hids : (a.commits.map (·.id)).Nodup) :
    versionsOf a = a.commits.mapIdx fun i x => ⟨versionLabel (a.commits.length - 1 - i), x⟩ := by
  rw [versionsOf, Chain.labels_eq hids]
  apply List.ext_getElem
  · simp
  · intro i hi hi'
    have hi₀ : i < a.commits.length := by simpa using hi'
    have hback : a.commits.length - 1 - i = 0 ↔ i + 1 = a.commits.length := by omega
    simp only [List.getElem_map, List.getElem_mapIdx, versionLabel, hback]

theorem summarizes_export (project : String) (ws : Diagnostics) (time : String)
    (hs : ∀ n ∈ a.graph.nodes, n.status.isSome) :
    Summarizes (Export.summaryJson ⟨project, a.graph, versionsOf a, ws⟩ time)
      (a.graph.nodes.map Export.nodeJson) (a.graph.edges.map Export.edgeJson)
      ((versionsOf a).map Export.versionJson) where
  statistics := by
    refine ⟨_, rfl, ?_, ?_, ?_, ?_, ?_, ?_⟩
    · rw [List.length_map]
      rfl
    · rw [List.length_map, totalAt?_countsJson rfl, List.length_map]
    · -- Every node has a status, so none is left out of the count.
      have hall : (a.graph.nodes.filterMap fun n => n.status.map Status.name).length =
          a.graph.nodes.length := by
        rw [List.filterMap_length_eq_length]
        intro n hn
        rw [Option.isSome_map]
        exact hs n hn
      rw [List.length_map, totalAt?_countsJson rfl]
      exact congrArg some hall
    · rw [List.length_map]
      rfl
    · rw [List.length_map, totalAt?_countsJson rfl, List.length_map]
    · have hflag : (fun j : Json => decide (j.boolAt? "evolution" = some true)) ∘ Export.edgeJson =
          fun e : Edge => e.kind.isEvolution := by
        funext e
        show decide (some e.kind.isEvolution = some true) = e.kind.isEvolution
        cases e.kind.isEvolution <;> rfl
      rw [List.countP_map, hflag, List.countP_eq_length_filter]
      rfl
  versions := by
    rw [List.length_map]
    rfl
  warnings := by
    refine ⟨ws.warnings.length, rfl, ?_⟩
    rw [totalAt?_countsJson rfl, List.length_map]

include h

theorem map_id_versionJson : ((versionsOf a).map Export.versionJson).map (·.textAt? "id") =
    (a.commits.map (·.id)).map some := by
  rw [versionsOf_eq h.commits_nodup]
  apply List.ext_getElem
  · simp
  · intro i hi hi'
    simp only [List.getElem_map, List.getElem_mapIdx]
    rfl

theorem Closed.names_versions {x : Node} (hx : x ∈ a.graph.nodes) :
    ∃ (vs : List String) (first last : String),
      (Export.nodeJson x).field? "versions" = some (.texts vs) ∧
      (Export.nodeJson x).textAt? "firstVersion" = some first ∧
      (Export.nodeJson x).textAt? "lastVersion" = some last ∧
      ∀ v ∈ first :: last :: vs,
        (((versionsOf a).map Export.versionJson).map (·.textAt? "id")).count (some v) = 1 := by
  obtain ⟨-, hmem, ⟨first, hfirst, hf⟩, last, hlast, hl⟩ := h.listed x hx
  refine ⟨x.versions.toList, first, last, rfl, ?_, ?_, fun v hv => ?_⟩
  · show (Json.option .text x.firstVersion).text? = some first
    rw [hf]
    rfl
  · show (Json.option .text x.lastVersion).text? = some last
    rw [hl]
    rfl
  · have hv : v ∈ a.commits.map (·.id) := by
      simp only [List.mem_cons] at hv
      rcases hv with rfl | rfl | hv
      · exact hfirst
      · exact hlast
      · exact hmem v ((TextSet.mem_toList _ v).mp hv)
    rw [map_id_versionJson h]
    exact List.count_eq_one_of_mem (h.commits_nodup.map (Option.some_injective _))
      (List.mem_map_of_mem hv)

theorem Closed.intact (project : String) (ws : Diagnostics) (time : String) :
    Export.IsIntact ⟨project, a.graph, versionsOf a, ws⟩ time := by
  refine ⟨_, _, _, _, rfl, ?_, fun e he => ?_, fun e he => ?_, fun n hn => ?_, ?_, ?_⟩
  · have hnumbers := congrArg (List.map fun i : NodeId => some i.number) h.numbered
    rw [List.map_map, List.map_map] at hnumbers
    rw [List.map_map, List.length_map]
    exact hnumbers
  · obtain ⟨x, hx, rfl⟩ := List.mem_map.mp he
    obtain ⟨hs, ht⟩ := h.ends x.triple (List.mem_map_of_mem hx)
    rw [List.length_map]
    exact ⟨x.source.number, hs, x.target.number, ht, rfl, rfl⟩
  · obtain ⟨x, hx, rfl⟩ := List.mem_map.mp he
    rfl
  · obtain ⟨x, hx, rfl⟩ := List.mem_map.mp hn
    exact h.names_versions hx
  · rw [versionsOf_eq h.commits_nodup]
    apply List.ext_getElem
    · simp
    · intro i hi hi'
      simp only [List.getElem_map, List.getElem_mapIdx, List.getElem_reverse, List.getElem_range,
        List.length_map, List.length_mapIdx, List.length_range]
      rfl
  · exact summarizes_export project ws time fun n hn => (h.listed n hn).status

end Aggregate

end Lineage
