import Lineage.Proofs.EntityUnion
/-! # Where operations lead

The locations of an operation land on merged nodes, and by its family the operation connects those of
the older side with those of the newer one. An operation complains exactly if no location of one side
lands, and else contributes an edge for each pair that it connects. Nodes keep their kind when they
are merged, even if fields lack a type. Main statements: `exists_kind_ids1`, `exists_kind_ids2`,
`map_merged_endpoints`, `contributes_contributions`.
-/
namespace Lineage

open Refactoring (Operation Location target?)
open Index (ofGraph)

/-! ## Kinds -/

namespace Matching

variable {v1 v2 : Graph} (h1 : v1.Built) (h2 : v2.Built) {ops : List Operation}

include h2 in
theorem kind_of_rekey_endpoint? {l : Location} {i : NodeId} {t : String} {n : Node}
    (h : Rekey.endpoint? v2 (ofGraph v2) l = some (i, t)) (hn : (ofGraph v2).node? i = some n) :
    n.kind = .method := by
  simp only [Rekey.endpoint?, bind, Option.bind_eq_some_iff, pure, Option.some.injEq,
    Prod.mk.injEq] at h
  obtain ⟨j, hj, c, hc, _, -, rfl, -⟩ := h
  obtain ⟨m, hm, rfl, hkind⟩ := Refactoring.exists_of_target? hj
  obtain ⟨e, he, rfl, hk⟩ := Index.exists_entity_of_canonical? h2 hm hc
  rw [Index.node?_ofGraph h2 he] at hn
  cases hn
  have hnode : e.node.kind = e.key.kind := (Index.derivedFrom_ofNodes v2.nodes).kind e he
  have hkey : e.key.kind = m.kind := congrArg EntityKey.kind hk
  have hm' : m.kind = .method := by simpa [Refactoring.kindMatches] using hkind
  rw [hnode, hkey, hm']

include h2 in
theorem kind_of_mem_rekeys {r : Rekey} (hr : r ∈ (Matching.ofGraphs v1 v2 ops).rekeys) {n : Node}
    (hn : (ofGraph v2).node? r.v2 = some n) : n.kind = .method := by
  obtain ⟨op, -, hop⟩ := Rekey.exists_proposedBy hr
  obtain ⟨l, -, hl⟩ := hop.after
  exact kind_of_rekey_endpoint? h2 hl hn

include h2 in
/-- Whatever is looked for under a key has the kind of the key. -/
theorem kind_of_mem_searchKeys {rs : List Rekey}
    (hrs : ∀ r ∈ rs, ∀ n, (ofGraph v2).node? r.v2 = some n → n.kind = .method)
    {e : EntityKey × NodeId} (he : e ∈ searchKeys (ofGraph v2) rs) {n : Node}
    (hn : (ofGraph v2).node? e.2 = some n) : n.kind = e.1.kind := by
  induction rs using List.reverseRecOn generalizing e with
  | nil =>
    obtain ⟨d, hd, rfl⟩ := List.mem_map.mp he
    rw [Index.node?_ofGraph h2 hd] at hn
    cases hn
    exact (Index.derivedFrom_ofNodes v2.nodes).kind d hd
  | append_singleton rs r ih =>
    unfold searchKeys at he
    rw [List.foldl_append, List.foldl_cons, List.foldl_nil] at he
    rcases List.mem_cons.mp he with rfl | he
    · exact hrs r (List.mem_append_right _ List.mem_cons_self) n hn
    · exact ih (fun r hr => hrs r (List.mem_append_left _ hr)) (List.mem_filter.mp he).1 hn

include h1 h2

theorem kind_of_mem_pairs {p : Pair} (hp : p ∈ (Matching.ofGraphs v1 v2 ops).pairs) {e : Entity}
    (he : e ∈ (ofGraph v1).entities) (hi : p.v1 = e.id) :
    ∃ new, (ofGraph v2).node? p.v2 = some new ∧ new.kind = e.node.kind := by
  obtain ⟨old, hold, hpair⟩ := List.mem_filterMap.mp hp
  obtain ⟨j, new, hj, hnew, rfl⟩ := pair?_eq_some_iff.mp hpair
  obtain rfl := List.inj_on_of_nodup_map (Index.ids_nodup_ofGraph h1) hold he hi
  have hmem := mem_of_lookup_eq_some hj
  exact ⟨new, hnew, kind_of_mem_searchKeys h2 (fun r hr n hn => kind_of_mem_rekeys h2 hr hn) hmem hnew⟩

end Matching

namespace Merge

section Kinds
variable {v1 v2 : Graph} (h1 : v1.Built) (h2 : v2.Built)
variable {ops : List Operation} {span : Span} {n : MergedNode} {c : NodeId}
include h1 h2

theorem kind_of_v1_eq (hn : n ∈ nodes span (.ofGraphs v1 v2 ops)) {e : Entity}
    (he : e ∈ (ofGraph v1).entities) (hv : n.v1 = some e.id) : n.node.kind = e.key.kind := by
  obtain ⟨d, hd, hi, rfl⟩ := mem_nodes_of_v1_eq hn hv
  obtain rfl := List.inj_on_of_nodup_map (Index.ids_nodup_ofGraph h1) hd he hi
  rw [← (Index.derivedFrom_ofNodes v1.nodes).kind d he]
  unfold olderNode
  split
  · rename_i p hp
    have hmem : p ∈ (Matching.ofGraphs v1 v2 ops).pairs := List.mem_of_find?_eq_some hp
    have hpi : p.v1 = d.id := by simpa using List.find?_some hp
    obtain ⟨new, hnew, hkind⟩ := Matching.kind_of_mem_pairs h1 h2 hmem he hpi
    have hnode : (Matching.ofGraphs v1 v2 ops).index2.node? p.v2 = some new := hnew
    simp only [hnode]
    exact hkind
  · rfl

omit h1 in
theorem kind_of_v2_eq (hn : n ∈ nodes span (.ofGraphs v1 v2 ops)) {e : Entity}
    (he : e ∈ (ofGraph v2).entities) (hv : n.v2 = some e.id) : n.node.kind = e.key.kind := by
  have hnode := Index.node?_ofGraph h2 he
  rw [← (Index.derivedFrom_ofNodes v2.nodes).kind e he]
  rcases List.mem_append.mp hn with hn | hn
  · obtain ⟨d, -, rfl⟩ := List.mem_map.mp hn
    unfold olderNode at hv ⊢
    split at hv
    · rename_i p hp
      split at hv
      · rename_i new hnew
        have hpe : p.v2 = e.id := Option.some.inj hv
        have hnew' : (ofGraph v2).node? p.v2 = some new := hnew
        rw [hpe, hnode] at hnew'
        rw [Option.some.inj hnew']
        rfl
      · cases hv
    · cases hv
  · obtain ⟨d, hd, hnd⟩ := List.mem_filterMap.mp hn
    have hvd := (newerNode?_eq_some hnd).2
    rw [hv, Option.some.injEq] at hvd
    obtain rfl := List.inj_on_of_nodup_map (Index.ids_nodup_ofGraph h2) he hd hvd
    unfold newerNode? at hnd
    split at hnd
    · cases hnd
    · cases hnd
      rfl

section Run
variable (detector : String) {i : NodeId} {x : Node}

theorem exists_kind_ids1 {a : Node} (ha : a ∈ v1.nodes)
    (hl : (ids1 span v1 (.ofGraphs v1 v2 ops)).lookup a.id = some i) :
    ∃ x ∈ (run detector v1 v2 (.ofGraphs v1 v2 ops) ops span).1.graph.nodes,
      x.id = i ∧ x.kind = a.kind := by
  rw [ids1, lookup_idMap h1 ha] at hl
  obtain ⟨c, hc, hp⟩ := Option.bind_eq_some_iff.mp hl
  obtain ⟨hi, hv⟩ := position?_eq_some hp
  obtain ⟨e, he, rfl, hk⟩ := Index.exists_entity_of_canonical? h1 ha hc
  refine ⟨_, mem_nodes_run_iff.mpr ⟨i.number, hi, rfl⟩, rfl, ?_⟩
  exact (kind_of_v1_eq h1 h2 (List.getElem_mem hi) he hv).trans (congrArg EntityKey.kind hk)

omit h1 in
theorem exists_kind_ids2 {b : Node} (hb : b ∈ v2.nodes)
    (hl : (ids2 span v2 (.ofGraphs v1 v2 ops)).lookup b.id = some i) :
    ∃ x ∈ (run detector v1 v2 (.ofGraphs v1 v2 ops) ops span).1.graph.nodes,
      x.id = i ∧ x.kind = b.kind := by
  rw [ids2, lookup_idMap h2 hb] at hl
  obtain ⟨c, hc, hp⟩ := Option.bind_eq_some_iff.mp hl
  obtain ⟨hi, hv⟩ := position?_eq_some hp
  obtain ⟨e, he, rfl, hk⟩ := Index.exists_entity_of_canonical? h2 hb hc
  refine ⟨_, mem_nodes_run_iff.mpr ⟨i.number, hi, rfl⟩, rfl, ?_⟩
  exact (kind_of_v2_eq h2 (List.getElem_mem hi) he hv).trans (congrArg EntityKey.kind hk)

end Run

end Kinds

/-! ## Landings -/

/-- The merged node that a location of an operation points at. -/
def landing? (g : Graph) (ids : List (NodeId × NodeId)) (op : Operation) (l : Location) :
    Option NodeId :=
  (target? g l (op.hint? l)).bind fun i => ids.lookup i

def landings (g : Graph) (ids : List (NodeId × NodeId)) (op : Operation) (ls : List Location) :
    List NodeId :=
  ls.filterMap (landing? g ids op)

/-- The pairs to which an operation of some family fans out: an extraction leads from its first
source, an inlining to its first target, all else from the first to the first. -/
def FansOut (family : Refactoring.Family) (sources targets : List NodeId) (s t : NodeId) : Prop :=
  match family with
  | .extract => sources.head? = some s ∧ t ∈ targets
  | .inline => s ∈ sources ∧ targets.head? = some t
  | .rename | .move | .changeSignature | .other => sources.head? = some s ∧ targets.head? = some t

def Connects (v1 v2 : Graph) (r : Merged) (op : Operation) (s t : NodeId) : Prop :=
  FansOut op.kind.family (landings v1 r.ids1 op op.before) (landings v2 r.ids2 op op.after) s t

/-- The warning that an operation gives if no location of one side lands. -/
def complaint? (v1 v2 : Graph) (r : Merged) (op : Operation) : Option Warning :=
  if landings v1 r.ids1 op op.before = [] then some (unresolved op .before)
  else if landings v2 r.ids2 op op.after = [] then some (unresolved op .after)
  else none

section FansOut
variable {family : Refactoring.Family} {sources targets : List NodeId} {s t : NodeId}

theorem mem_endpoints_iff :
    (s, t) ∈ Evolution.endpoints family sources targets ↔ FansOut family sources targets s t := by
  cases sources with
  | nil => cases family <;> simp [Evolution.endpoints, FansOut]
  | cons s' ss =>
    cases targets with
    | nil => cases family <;> simp [Evolution.endpoints, FansOut]
    | cons t' ts =>
      have hfirst : (s, t) = (s', t') ↔ some s' = some s ∧ some t' = some t := by
        simp [eq_comm]
      cases family with
      | extract =>
        constructor
        · intro h
          obtain ⟨x, hx, he⟩ := List.mem_map.mp h
          cases he
          exact ⟨rfl, hx⟩
        · rintro ⟨hs, ht⟩
          cases hs
          exact List.mem_map_of_mem ht
      | inline =>
        constructor
        · intro h
          obtain ⟨x, hx, he⟩ := List.mem_map.mp h
          cases he
          exact ⟨hx, rfl⟩
        · rintro ⟨hs, ht⟩
          cases ht
          exact List.mem_map_of_mem (f := fun x => (x, t)) hs
      | rename | move | changeSignature | other => exact List.mem_singleton.trans hfirst

theorem FansOut.mem (h : FansOut family sources targets s t) : s ∈ sources ∧ t ∈ targets := by
  cases family with
  | extract => exact ⟨List.mem_of_head? h.1, h.2⟩
  | inline => exact ⟨h.1, List.mem_of_head? h.2⟩
  | rename | move | changeSignature | other => exact ⟨List.mem_of_head? h.1, List.mem_of_head? h.2⟩

theorem fansOut_of_head? (hs : sources.head? = some s) (ht : targets.head? = some t) :
    FansOut family sources targets s t := by
  cases family with
  | extract => exact ⟨hs, List.mem_of_head? ht⟩
  | inline => exact ⟨List.mem_of_head? hs, ht⟩
  | rename | move | changeSignature | other => exact ⟨hs, ht⟩

theorem head?_eraseDups (xs : List NodeId) : xs.eraseDups.head? = xs.head? := by
  cases xs with
  | nil => rfl
  | cons x xs => rw [List.eraseDups_cons, List.head?_cons, List.head?_cons]

/-- Repetitions do not matter to where an operation fans out. -/
theorem fansOut_eraseDups_iff :
    FansOut family sources.eraseDups targets.eraseDups s t ↔ FansOut family sources targets s t := by
  cases family <;> simp only [FansOut, head?_eraseDups, List.mem_eraseDups]

end FansOut

section Endpoints
variable {g : Graph} (hg : g.Built) {origin : MergedNode → Option NodeId} {ns : List MergedNode}
variable {op : Operation} {l : Location} {ls : List Location}
include hg

theorem lookup_canonical {n : Node} (hn : n ∈ g.nodes) {c : NodeId}
    (hc : (ofGraph g).canonical? n.id = some c) :
    (idMap g (ofGraph g) origin ns).lookup c = (idMap g (ofGraph g) origin ns).lookup n.id := by
  obtain ⟨e, he, rfl, -⟩ := Index.exists_entity_of_canonical? hg hn hc
  have hmem : e.id ∈ (ofGraph g).ids := List.mem_map_of_mem he
  obtain ⟨m, hm, hmi⟩ := List.mem_map.mp ((Index.ids_sublist g.nodes).subset hmem)
  have hcanonical := Index.canonical?_of_mem_ids hmem
  rw [← hmi] at hcanonical hc ⊢
  rw [lookup_idMap hg hm, lookup_idMap hg hn, hcanonical, hc]

theorem merged_endpoint? :
    (endpoint? g (ofGraph g) (idMap g (ofGraph g) origin ns) op l).map (·.merged) =
      landing? g (idMap g (ofGraph g) origin ns) op l := by
  unfold endpoint? landing?
  cases hr : target? g l (op.hint? l) with
  | none => rfl
  | some i =>
    obtain ⟨n, hn, rfl, -⟩ := Refactoring.exists_of_target? hr
    obtain ⟨c, -, hc⟩ := Index.exists_canonical? hn
    have hcanonical : (ofGraph g).canonical? n.id = some c := hc
    have hlookup : (idMap g (ofGraph g) origin ns).lookup c =
        (idMap g (ofGraph g) origin ns).lookup n.id := lookup_canonical hg hn hcanonical
    simp only [bind, Option.bind_some, hcanonical, hlookup]
    cases (idMap g (ofGraph g) origin ns).lookup n.id with
    | none => rfl
    | some j => rfl

theorem canonical_of_mem_endpoints {p : Endpoint}
    (hp : p ∈ endpoints g (ofGraph g) (idMap g (ofGraph g) origin ns) op ls) :
    p.canonical ∈ (ofGraph g).ids ∧
      (idMap g (ofGraph g) origin ns).lookup p.canonical = some p.merged := by
  obtain ⟨l, -, hl⟩ := List.mem_filterMap.mp (mem_of_mem_endpoints hp)
  simp only [endpoint?, bind, Option.bind_eq_some_iff, pure, Option.some.injEq] at hl
  obtain ⟨i, hi, c, hc, j, hj, rfl⟩ := hl
  obtain ⟨n, hn, rfl, -⟩ := Refactoring.exists_of_target? hi
  obtain ⟨e, he, rfl, -⟩ := Index.exists_entity_of_canonical? hg hn hc
  exact ⟨List.mem_map_of_mem he, hj⟩

theorem map_merged_endpoints :
    (endpoints g (ofGraph g) (idMap g (ofGraph g) origin ns) op ls).map (·.merged) =
      (landings g (idMap g (ofGraph g) origin ns) op ls).eraseDups := by
  have hlandings : landings g (idMap g (ofGraph g) origin ns) op ls =
      (ls.filterMap (endpoint? g (ofGraph g) (idMap g (ofGraph g) origin ns) op)).map (·.merged) := by
    rw [List.map_filterMap]
    exact List.filterMap_congr fun l _ => (merged_endpoint? hg).symm
  rw [hlandings, endpoints]
  generalize ls.filterMap (endpoint? g (ofGraph g) (idMap g (ofGraph g) origin ns) op) = ps
  induction ps using List.reverseRecOn with
  | nil => rfl
  | append_singleton ps p ih =>
    rw [List.foldl_append, List.foldl_cons, List.foldl_nil, List.map_append, List.map_cons,
      List.map_nil, eraseDups_snoc, ← ih]
    have hseen : ∀ seen : List Endpoint,
        seen.any (·.merged = p.merged) = true ↔ p.merged ∈ seen.map (·.merged) := by
      intro seen
      simp
    have hmem := hseen ((ps.foldl
      (fun seen e => if seen.any (·.merged = e.merged) then seen else seen ++ [e]) []))
    rw [ih, List.mem_eraseDups] at hmem
    by_cases hp : p.merged ∈ ps.map (·.merged)
    · rw [if_pos (hmem.mpr hp), if_pos hp]
    · rw [if_neg (mt hmem.mp hp), if_neg hp, List.map_append]
      rfl

theorem endpoints_isEmpty_iff :
    (endpoints g (ofGraph g) (idMap g (ofGraph g) origin ns) op ls).isEmpty = true ↔
      landings g (idMap g (ofGraph g) origin ns) op ls = [] := by
  rw [List.isEmpty_iff, ← List.map_eq_nil_iff (f := fun e : Endpoint => e.merged),
    map_merged_endpoints hg]
  cases landings g (idMap g (ofGraph g) origin ns) op ls with
  | nil => simp
  | cons x xs => simp [List.eraseDups_cons]

end Endpoints

/-! ## Contributions -/

/-- What a contribution tells of the operation it comes from. -/
structure Represents (detector : String) (span : Span) (v1 v2 : Graph) (r : Merged) (op : Operation)
    (c : Contribution) : Prop where
  connects : Connects v1 v2 r op c.edge.source c.edge.target
  edge : ∃ old new, c.edge = Evolution.edge op c.edge.source c.edge.target old new
    ⟨span.older.id, span.newer.id, detector⟩
  canonical1 : c.v1 ∈ (ofGraph v1).ids
  canonical2 : c.v2 ∈ (ofGraph v2).ids
  lookup1 : r.ids1.lookup c.v1 = some c.edge.source
  lookup2 : r.ids2.lookup c.v2 = some c.edge.target

/-- An operation contributes an edge for each pair it connects, unless it complains. -/
inductive Contributes (detector : String) (span : Span) (v1 v2 : Graph) (r : Merged)
    (op : Operation) : Except Warning (List Contribution) → Prop
  | error {w : Warning} (hw : complaint? v1 v2 r op = some w) :
      Contributes detector span v1 v2 r op (.error w)
  | ok {cs : List Contribution} (hw : complaint? v1 v2 r op = none)
      (hcs : ∀ c ∈ cs, Represents detector span v1 v2 r op c)
      (hall : ∀ s t, Connects v1 v2 r op s t → ∃ c ∈ cs, c.edge.source = s ∧ c.edge.target = t) :
      Contributes detector span v1 v2 r op (.ok cs)

section Contribution
variable {span : Span} {detector : String} {op : Operation} {ps qs : List Endpoint}
variable {s t : NodeId} {c : Contribution}

theorem contribution?_eq_some {m : Matching}
    (h : contribution? span detector m op ps qs (s, t) = some c) :
    ∃ p ∈ ps, ∃ q ∈ qs, p.merged = s ∧ q.merged = t ∧ c.v1 = p.canonical ∧ c.v2 = q.canonical ∧
      ∃ old new, c.edge = Evolution.edge op s t old new ⟨span.older.id, span.newer.id, detector⟩ := by
  simp only [contribution?, bind, Option.bind_eq_some_iff, pure, Option.some.injEq] at h
  obtain ⟨p, hp, q, hq, old, -, new, -, rfl⟩ := h
  have hps : p.merged = s := by simpa using List.find?_some hp
  have hqt : q.merged = t := by simpa using List.find?_some hq
  exact ⟨p, List.mem_of_find?_eq_some hp, q, List.mem_of_find?_eq_some hq, hps, hqt, rfl, rfl,
    old, new, rfl⟩

/-- A contribution between connected nodes comes from their endpoints. -/
theorem Represents.of_contribution? {v1 v2 : Graph} {m : Matching} {r : Merged}
    (h : contribution? span detector m op ps qs (s, t) = some c) (hst : Connects v1 v2 r op s t)
    (hps : ∀ p ∈ ps, p.canonical ∈ (ofGraph v1).ids ∧ r.ids1.lookup p.canonical = some p.merged)
    (hqs : ∀ q ∈ qs, q.canonical ∈ (ofGraph v2).ids ∧ r.ids2.lookup q.canonical = some q.merged) :
    Represents detector span v1 v2 r op c := by
  obtain ⟨p, hp, q, hq, rfl, rfl, hcp, hcq, old, new, hedge⟩ := contribution?_eq_some h
  have hsource : c.edge.source = p.merged := by rw [hedge]; rfl
  have htarget : c.edge.target = q.merged := by rw [hedge]; rfl
  constructor
  · rw [hsource, htarget]
    exact hst
  · exact ⟨old, new, by rw [hsource, htarget, hedge]⟩
  · exact hcp ▸ (hps p hp).1
  · exact hcq ▸ (hqs q hq).1
  · rw [hcp, hsource]
    exact (hps p hp).2
  · rw [hcq, htarget]
    exact (hqs q hq).2

theorem exists_contribution? {v1 v2 : Graph} (h1 : v1.Built) (h2 : v2.Built) (ops : List Operation)
    (hs : s ∈ ps.map (·.merged)) (ht : t ∈ qs.map (·.merged))
    (hps : ∀ p ∈ ps, p.canonical ∈ (ofGraph v1).ids) (hqs : ∀ q ∈ qs, q.canonical ∈ (ofGraph v2).ids) :
    ∃ c, contribution? span detector (.ofGraphs v1 v2 ops) op ps qs (s, t) = some c ∧
      c.edge.source = s ∧ c.edge.target = t := by
  have hfound : ∀ {es : List Endpoint} {i : NodeId}, i ∈ es.map (·.merged) →
      ∃ e, es.find? (·.merged = i) = some e := by
    intro es i hi
    obtain ⟨e, he, rfl⟩ := List.mem_map.mp hi
    exact Option.isSome_iff_exists.mp (List.find?_isSome.mpr ⟨e, he, by simp⟩)
  obtain ⟨p, hp⟩ := hfound hs
  obtain ⟨q, hq⟩ := hfound ht
  obtain ⟨old, hold, hpi⟩ := List.mem_map.mp (hps p (List.mem_of_find?_eq_some hp))
  obtain ⟨new, hnew, hqi⟩ := List.mem_map.mp (hqs q (List.mem_of_find?_eq_some hq))
  have hold' : (Matching.ofGraphs v1 v2 ops).index1.node? p.canonical = some old.node := by
    rw [← hpi]
    exact Index.node?_ofGraph h1 hold
  have hnew' : (Matching.ofGraphs v1 v2 ops).index2.node? q.canonical = some new.node := by
    rw [← hqi]
    exact Index.node?_ofGraph h2 hnew
  simp only [contribution?, bind, hp, hq, hold', hnew', Option.bind_some]
  exact ⟨_, rfl, rfl, rfl⟩

end Contribution

section Contributions
variable (detector : String) (span : Span) {v1 v2 : Graph} (h1 : v1.Built) (h2 : v2.Built)
variable (ops : List Operation) (op : Operation)
include h1 h2

/-- The endpoints of an operation's edges are the nodes that it connects. -/
theorem mem_endpoints_merged_iff {s t : NodeId} :
    (s, t) ∈ Evolution.endpoints op.kind.family
        ((endpoints v1 (ofGraph v1) (ids1 span v1 (.ofGraphs v1 v2 ops)) op op.before).map (·.merged))
        ((endpoints v2 (ofGraph v2) (ids2 span v2 (.ofGraphs v1 v2 ops)) op op.after).map
          (·.merged)) ↔
      Connects v1 v2 (run detector v1 v2 (.ofGraphs v1 v2 ops) ops span).1 op s t := by
  let r := (run detector v1 v2 (.ofGraphs v1 v2 ops) ops span).1
  have hs : (endpoints v1 (ofGraph v1) (ids1 span v1 (.ofGraphs v1 v2 ops)) op op.before).map
      (·.merged) = (landings v1 r.ids1 op op.before).eraseDups := map_merged_endpoints h1
  have ht : (endpoints v2 (ofGraph v2) (ids2 span v2 (.ofGraphs v1 v2 ops)) op op.after).map
      (·.merged) = (landings v2 r.ids2 op op.after).eraseDups := map_merged_endpoints h2
  rw [mem_endpoints_iff, hs, ht, fansOut_eraseDups_iff]
  rfl

theorem contributes_contributions :
    Contributes detector span v1 v2 (run detector v1 v2 (.ofGraphs v1 v2 ops) ops span).1 op
      (contributions span detector v1 v2 (.ofGraphs v1 v2 ops)
        (ids1 span v1 (.ofGraphs v1 v2 ops)) (ids2 span v2 (.ofGraphs v1 v2 ops)) op) := by
  let m := Matching.ofGraphs v1 v2 ops
  let r := (run detector v1 v2 m ops span).1
  let sources := endpoints v1 (ofGraph v1) (ids1 span v1 m) op op.before
  let targets := endpoints v2 (ofGraph v2) (ids2 span v2 m) op op.after
  have hs : sources.isEmpty = true ↔ landings v1 r.ids1 op op.before = [] :=
    endpoints_isEmpty_iff h1
  have ht : targets.isEmpty = true ↔ landings v2 r.ids2 op op.after = [] :=
    endpoints_isEmpty_iff h2
  show Contributes detector span v1 v2 r op
    (if sources.isEmpty then .error (unresolved op .before)
      else if targets.isEmpty then .error (unresolved op .after)
      else .ok ((Evolution.endpoints op.kind.family (sources.map (·.merged))
        (targets.map (·.merged))).filterMap (contribution? span detector m op sources targets)))
  by_cases hsources : sources.isEmpty = true
  · rw [if_pos hsources]
    exact .error (by rw [complaint?, if_pos (hs.mp hsources)])
  rw [if_neg hsources]
  by_cases htargets : targets.isEmpty = true
  · rw [if_pos htargets]
    exact .error (by rw [complaint?, if_neg (mt hs.mpr hsources), if_pos (ht.mp htargets)])
  rw [if_neg htargets]
  have hends : ∀ s t, (s, t) ∈ Evolution.endpoints op.kind.family (sources.map (·.merged))
      (targets.map (·.merged)) ↔ Connects v1 v2 r op s t := fun s t =>
    mem_endpoints_merged_iff detector span h1 h2 ops op
  have hleads1 : ∀ p ∈ sources, p.canonical ∈ (ofGraph v1).ids ∧
      r.ids1.lookup p.canonical = some p.merged := fun p hp => canonical_of_mem_endpoints h1 hp
  have hleads2 : ∀ q ∈ targets, q.canonical ∈ (ofGraph v2).ids ∧
      r.ids2.lookup q.canonical = some q.merged := fun q hq => canonical_of_mem_endpoints h2 hq
  refine .ok ?_ ?_ ?_
  · rw [complaint?, if_neg (mt hs.mpr hsources), if_neg (mt ht.mpr htargets)]
  · intro c hc
    obtain ⟨⟨s, t⟩, hst, hcontribution⟩ := List.mem_filterMap.mp hc
    exact .of_contribution? hcontribution ((hends s t).mp hst) hleads1 hleads2
  · intro s t hst
    have hmem := (hends s t).mpr hst
    obtain ⟨hsmem, htmem⟩ := (mem_endpoints_iff.mp hmem).mem
    obtain ⟨c, hc, hsource, htarget⟩ := exists_contribution? h1 h2 ops hsmem htmem
      (fun p hp => (hleads1 p hp).1) fun q hq => (hleads2 q hq).1
    exact ⟨c, List.mem_filterMap.mpr ⟨(s, t), hmem, hc⟩, hsource, htarget⟩

end Contributions

end Merge

end Lineage
