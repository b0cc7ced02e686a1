import Lineage.Proofs.Graph
/-! # Numbers that select nodes

A graph grows by nodes and edges, and its edges stand in a second record as well: for each node the
edges that leave and reach it. Ends are written on an edge in full, but only their low 32 bits select
a node, so numbers that agree there mean one node wherever ends are looked up. Main statement:
`selectsBy_low`.
-/
namespace Lineage

/-- The number that selects the same node and has 32 bits. -/
def NodeId.low (i : NodeId) : NodeId := ⟨slot i.number⟩

/-- The number has 32 bits itself. -/
def NodeId.Fits (i : NodeId) : Prop := i.number < UInt32.size

theorem NodeId.Fits.low_eq {i : NodeId} (h : i.Fits) : i.low = i :=
  congrArg NodeId.mk (Nat.mod_eq_of_lt h)

def Edge.Fits (e : Edge) : Prop := e.source.Fits ∧ e.target.Fits

def Edge.renumber (i : EdgeId) (e : Edge) : Edge := { e with id := i }

inductive Addition where
  | node (n : Node)
  | edge (e : Edge)

namespace Addition

def node? : Addition → Option Node
  | node n => some n
  | edge _ => none

def nodes (as : List Addition) : List Node := as.filterMap node?

@[simp] theorem nodes_nil : nodes [] = [] := rfl

@[simp] theorem nodes_append (as bs : List Addition) : nodes (as ++ bs) = nodes as ++ nodes bs :=
  List.filterMap_append

@[simp] theorem nodes_node_cons (n : Node) (as : List Addition) :
    nodes (node n :: as) = n :: nodes as := rfl

@[simp] theorem nodes_edge_cons (e : Edge) (as : List Addition) :
    nodes (edge e :: as) = nodes as := rfl

/-- The edges whose ends are nodes when their turn comes; ends mean nodes as `view` tells, and there
are some nodes before. -/
def taken (view : NodeId → NodeId) : Nat → List Addition → List Edge
  | _, [] => []
  | count, node _ :: as => taken view (count + 1) as
  | count, edge e :: as =>
    if (view e.source).number < count ∧ (view e.target).number < count then
      e :: taken view count as
    else taken view count as

theorem taken_append (view : NodeId → NodeId) (count : Nat) (as bs : List Addition) :
    taken view count (as ++ bs) =
      taken view count as ++ taken view (count + (nodes as).length) bs := by
  induction as generalizing count with
  | nil => rfl
  | cons a as ih =>
    cases a with
    | node n =>
      have hcount : count + (nodes (node n :: as)).length = count + 1 + (nodes as).length := by
        rw [nodes_node_cons, List.length_cons]
        omega
      rw [hcount]
      exact ih (count + 1)
    | edge e =>
      rw [nodes_edge_cons, List.cons_append, taken, ih]
      split <;> simp [taken, *]

theorem mem_of_mem_taken {view : NodeId → NodeId} {count : Nat} {as : List Addition} {e : Edge}
    (h : e ∈ taken view count as) : edge e ∈ as := by
  induction as generalizing count with
  | nil => cases h
  | cons a as ih =>
    cases a with
    | node n => exact List.mem_cons_of_mem _ (ih h)
    | edge f =>
      rw [taken] at h
      split at h
      · rcases List.mem_cons.mp h with rfl | h
        · exact List.mem_cons_self
        · exact List.mem_cons_of_mem _ (ih h)
      · exact List.mem_cons_of_mem _ (ih h)

theorem taken_low {as : List Addition} (h : ∀ e, edge e ∈ as → e.Fits) (count : Nat) :
    taken NodeId.low count as = taken id count as := by
  induction as generalizing count with
  | nil => rfl
  | cons a as ih =>
    have has := ih fun e he => h e (List.mem_cons_of_mem _ he)
    cases a with
    | node n => exact has (count + 1)
    | edge e =>
      obtain ⟨hs, ht⟩ := h e List.mem_cons_self
      rw [taken, taken, hs.low_eq, ht.low_eq, has]
      rfl

end Addition

namespace Graph

def add (g : Graph) : Addition → Graph
  | .node n => (g.addNode n).2
  | .edge e => g.tryEdge e

def addAll (g : Graph) (as : List Addition) : Graph := as.foldl add g

/-- The numbers that the added nodes get. -/
def answers (g : Graph) : List Addition → List NodeId
  | [] => []
  | .node n :: as => (g.addNode n).1 :: answers (g.add (.node n)) as
  | .edge e :: as => answers (g.add (.edge e)) as

section Add
variable {g : Graph}

theorem mem_ids_iff {ns : List Node} (h : Numbered ns) {i : NodeId} :
    i ∈ ns.map (·.id) ↔ i.number < ns.length := by
  rw [h, List.mem_map]
  constructor
  · rintro ⟨k, hk, rfl⟩
    exact List.mem_range.mp hk
  · exact fun hi => ⟨i.number, List.mem_range.mpr hi, rfl⟩

theorem hasNode_iff (i : NodeId) : g.hasNode i = true ↔ i.low.number < g.nodes.length := by
  rw [hasNode, node?, isSome_getElem?]
  rfl

theorem tryEdge_eq (g : Graph) (e : Edge) : g.tryEdge e =
    if e.source.low.number < g.nodes.length ∧ e.target.low.number < g.nodes.length then
      { g with edges := g.edges ++ [e.renumber g.nextEdge] }
    else g := by
  rw [tryEdge, addEdge]
  simp only [Bool.and_eq_true, hasNode_iff]
  split <;> rfl

theorem nodes_addAll (g : Graph) (as : List Addition) : (g.addAll as).nodes =
    g.nodes ++ (Addition.nodes as).mapIdx fun i n => n.renumber ⟨g.nodes.length + i⟩ := by
  induction as generalizing g with
  | nil => simp [addAll, Addition.nodes]
  | cons a as ih =>
    rw [addAll, List.foldl_cons, ← addAll, ih]
    cases a with
    | node n =>
      simp [add, List.mapIdx_cons, Node.renumber, nextNode, Nat.add_assoc, Nat.add_comm 1]
    | edge e => simp [add]

/-- The edges are those whose ends are there by their low bits, in order. -/
theorem edges_addAll (g : Graph) (as : List Addition) : (g.addAll as).edges =
    g.edges ++ (Addition.taken NodeId.low g.nodes.length as).mapIdx fun i e =>
      e.renumber ⟨g.edges.length + i⟩ := by
  induction as generalizing g with
  | nil => simp [addAll, Addition.taken]
  | cons a as ih =>
    rw [addAll, List.foldl_cons, ← addAll, ih]
    cases a with
    | node n => simp [add, Addition.taken]
    | edge e =>
      rw [add, tryEdge_eq, Addition.taken]
      split
      · simp [List.mapIdx_cons, nextEdge, Nat.add_assoc, Nat.add_comm 1]
      · rfl

theorem numbered_add (h : Numbered g.nodes) (a : Addition) : Numbered (g.add a).nodes := by
  cases a with
  | node n => exact h.snoc n
  | edge e => rwa [add, nodes_tryEdge]

theorem numbered_addAll (h : Numbered g.nodes) (as : List Addition) :
    Numbered (g.addAll as).nodes := by
  unfold addAll
  exact List.foldlRecOn (motive := fun b => Numbered b.nodes) as add h
    fun _ hb a _ => numbered_add hb a

theorem answers_eq (h : Numbered g.nodes) (as : List Addition) :
    (g.addAll as).nodes.map (·.id) = g.nodes.map (·.id) ++ g.answers as := by
  induction as generalizing g with
  | nil => simp [addAll, answers]
  | cons a as ih =>
    rw [addAll, List.foldl_cons, ← addAll, ih (numbered_add h a)]
    cases a with
    | node n => simp [add, answers, addNode]
    | edge e => simp [add, answers]

end Add

/-! ## What numbers select -/

/-- The numbers that are asked for find what the view of them stands for: the view decides what is
refused, what is found, and where an edge leaves and arrives. -/
structure SelectsBy (asked : NodeId → Prop) (view : NodeId → NodeId) (as : List Addition) : Prop where
  nodes : (empty.addAll as).nodes.map (·.id) = empty.answers as
  edges : (empty.addAll as).edges =
    (Addition.taken view 0 as).mapIdx fun i e => e.renumber ⟨i⟩
  refuses_iff : ∀ e : Edge, asked e.source → asked e.target →
    ((empty.addAll as).addEdge e = none ↔
      view e.source ∉ empty.answers as ∨ view e.target ∉ empty.answers as)
  id_of_node? : ∀ i, asked i → ∀ n, (empty.addAll as).node? i = some n → n.id = view i
  mem_edgesFrom_iff : ∀ s, asked s → ∀ e, e ∈ (empty.addAll as).edgesFrom s ↔
    e ∈ (empty.addAll as).edges ∧ view e.source = view s
  mem_edgesTo_iff : ∀ t, asked t → ∀ e, e ∈ (empty.addAll as).edgesTo t ↔
    e ∈ (empty.addAll as).edges ∧ view e.target = view t
  newestFirst : ∀ i,
    ((empty.addAll as).edgesFrom i).Pairwise (fun e f => f.id.number < e.id.number) ∧
      ((empty.addAll as).edgesTo i).Pairwise (fun e f => f.id.number < e.id.number)
  hasEdge_iff : ∀ s t k, asked s → ((empty.addAll as).hasEdge s t k = true ↔
    ∃ e ∈ Addition.taken view 0 as, view e.source = view s ∧ e.target = t ∧ e.kind = k)

section Select
variable {g : Graph} {es : List Edge}

theorem numbered_empty : Numbered empty.nodes := rfl

theorem refuses_iff (h : Numbered g.nodes) (e : Edge) : g.addEdge e = none ↔
    e.source.low ∉ g.nodes.map (·.id) ∨ e.target.low ∉ g.nodes.map (·.id) := by
  rw [addEdge_eq_none_iff, mem_ids_iff h, mem_ids_iff h, node?, node?, List.getElem?_eq_none_iff,
    List.getElem?_eq_none_iff, Nat.not_lt, Nat.not_lt]
  rfl

theorem id_of_node? (h : Numbered g.nodes) {i : NodeId} {n : Node} (hn : g.node? i = some n) :
    n.id = i.low := by
  obtain ⟨hi, rfl⟩ := List.getElem?_eq_some_iff.mp hn
  exact h.id_getElem hi

theorem low_eq_low_iff {i j : NodeId} : i.low = j.low ↔ slot i.number = slot j.number :=
  NodeId.mk.injEq _ _ ▸ Iff.rfl

theorem mem_edgesFrom_iff {s : NodeId} {e : Edge} :
    e ∈ g.edgesFrom s ↔ e ∈ g.edges ∧ e.source.low = s.low := by
  rw [edgesFrom, List.mem_reverse, List.mem_filter, decide_eq_true_iff, low_eq_low_iff]

theorem mem_edgesTo_iff {t : NodeId} {e : Edge} :
    e ∈ g.edgesTo t ↔ e ∈ g.edges ∧ e.target.low = t.low := by
  rw [edgesTo, List.mem_reverse, List.mem_filter, decide_eq_true_iff, low_eq_low_iff]

theorem newestFirst_filter (es : List Edge) (p : Edge → Bool) :
    ((es.mapIdx fun i e => e.renumber ⟨i⟩).filter p).reverse.Pairwise
      fun e f => f.id.number < e.id.number := by
  rw [List.pairwise_reverse]
  refine List.Pairwise.filter p ?_
  rw [List.pairwise_iff_getElem]
  intro i j hi hj hij
  simpa [Edge.renumber] using hij

theorem hasEdge_iff {s t : NodeId} {k : EdgeKind} : g.hasEdge s t k = true ↔
    ∃ e ∈ g.edges, e.source.low = s.low ∧ e.target = t ∧ e.kind = k := by
  simp only [hasEdge, List.any_eq_true, mem_edgesFrom_iff, Bool.and_eq_true, decide_eq_true_iff,
    and_assoc]

end Select

end Graph

/-! ## Edges in two records -/

/-- For each node, told by 32 bits, the positions of the edges that leave and reach it, the newest
first. -/
structure Adjacency where
  leaving : UInt32 → List Nat
  reaching : UInt32 → List Nat

namespace Adjacency

def empty : Adjacency := ⟨fun _ => [], fun _ => []⟩

def push (lists : UInt32 → List Nat) (i : NodeId) (x : EdgeId) : UInt32 → List Nat :=
  Function.update lists (.ofNat i.number) (x.number :: lists (.ofNat i.number))

def add (r : Adjacency) (g : Graph) : Addition → Adjacency
  | .node _ => r
  | .edge e =>
    match g.addEdge e with
    | some (x, _) => ⟨push r.leaving e.source x, push r.reaching e.target x⟩
    | none => r

def addAll (s : Graph × Adjacency) (as : List Addition) : Graph × Adjacency :=
  as.foldl (fun s a => (s.1.add a, s.2.add s.1 a)) s

/-- Lists of positions tell the edges that have an end at each node, the newest first. -/
def Lists (lists : UInt32 → List Nat) (es : List Edge) (endOf : Edge → NodeId) : Prop :=
  ∀ i : NodeId, (lists (.ofNat i.number)).map (es[·]?) =
    (es.filter fun e => slot (endOf e).number = slot i.number).reverse.map some

/-- The record tells the same edges as their own ends. -/
structure Tells (r : Adjacency) (g : Graph) : Prop where
  leaving : ∀ s : NodeId, (r.leaving (.ofNat s.number)).map (g.edges[·]?) = (g.edgesFrom s).map some
  reaching : ∀ t : NodeId, (r.reaching (.ofNat t.number)).map (g.edges[·]?) = (g.edgesTo t).map some

theorem ofNat_eq_ofNat_iff {a b : Nat} : UInt32.ofNat a = UInt32.ofNat b ↔ slot a = slot b := by
  rw [← UInt32.toNat_inj, UInt32.toNat_ofNat', UInt32.toNat_ofNat']
  rfl

theorem Lists.push {lists : UInt32 → List Nat} {es : List Edge} (endOf : Edge → NodeId)
    (h : Lists lists es endOf) (e : Edge) :
    Lists (Adjacency.push lists (endOf e) ⟨es.length⟩) (es ++ [e]) endOf := by
  intro i
  have hold : (lists (.ofNat i.number)).map ((es ++ [e])[·]?) =
      (lists (.ofNat i.number)).map (es[·]?) := by
    refine List.map_congr_left fun j hj => List.getElem?_append_left ?_
    -- what is listed is there, so its position is before the new one
    have hmem := List.mem_map_of_mem (f := (es[·]?)) hj
    rw [h i] at hmem
    obtain ⟨x, -, hx⟩ := List.mem_map.mp hmem
    exact (List.getElem?_eq_some_iff.mp hx.symm).1
  by_cases hi : slot (endOf e).number = slot i.number
  · have hindex : UInt32.ofNat i.number = .ofNat (endOf e).number := ofNat_eq_ofNat_iff.mpr hi.symm
    have hpush : Adjacency.push lists (endOf e) ⟨es.length⟩ (.ofNat i.number) =
        es.length :: lists (.ofNat i.number) := by
      rw [Adjacency.push, hindex, Function.update_self]
    rw [hpush, List.map_cons, hold, h i]
    simp [hi]
  · have hindex : UInt32.ofNat i.number ≠ .ofNat (endOf e).number :=
      fun heq => hi (ofNat_eq_ofNat_iff.mp heq.symm)
    rw [Adjacency.push, Function.update_of_ne hindex, hold, h i]
    simp [hi]

theorem Tells.add {r : Adjacency} {g : Graph} (h : r.Tells g) (a : Addition) :
    (r.add g a).Tells (g.add a) := by
  cases a with
  | node n => exact ⟨h.leaving, h.reaching⟩
  | edge e =>
    rw [Adjacency.add, Graph.add, Graph.tryEdge]
    cases hadd : g.addEdge e with
    | none => exact h
    | some x =>
      obtain ⟨id, g'⟩ := x
      obtain ⟨rfl, hedges, -⟩ := Graph.edges_addEdge hadd
      have hleaving := Lists.push Edge.source h.leaving (e.renumber g.nextEdge)
      have hreaching := Lists.push Edge.target h.reaching (e.renumber g.nextEdge)
      rw [show g.edges ++ [e.renumber g.nextEdge] = g'.edges from hedges.symm] at hleaving hreaching
      exact ⟨hleaving, hreaching⟩

theorem tells_addAll {s : Graph × Adjacency} (h : s.2.Tells s.1) (as : List Addition) :
    (addAll s as).1 = s.1.addAll as ∧ (addAll s as).2.Tells (s.1.addAll as) := by
  induction as generalizing s with
  | nil => exact ⟨rfl, h⟩
  | cons a as ih => exact ih (h.add a)

end Adjacency

namespace Graph

theorem selectsBy_low_of_any (as : List Addition) : SelectsBy (fun _ => True) NodeId.low as := by
  have hnumbered := numbered_addAll numbered_empty as
  have hids : (empty.addAll as).nodes.map (·.id) = empty.answers as := answers_eq numbered_empty as
  have hedges : (empty.addAll as).edges =
      (Addition.taken NodeId.low 0 as).mapIdx fun i e => e.renumber ⟨i⟩ := by
    simpa [empty] using edges_addAll empty as
  refine ⟨hids, hedges, fun e _ _ => ?_, fun i _ n => id_of_node? hnumbered,
    fun s _ e => mem_edgesFrom_iff, fun t _ e => mem_edgesTo_iff, fun i => ?_, fun s t k _ => ?_⟩
  · rw [← hids]
    exact refuses_iff hnumbered e
  · rw [edgesFrom, edgesTo, hedges]
    exact ⟨newestFirst_filter _ _, newestFirst_filter _ _⟩
  · rw [hasEdge_iff, hedges]
    constructor
    · rintro ⟨x, hx, hrest⟩
      obtain ⟨i, hi, rfl⟩ := List.mem_mapIdx.mp hx
      exact ⟨_, List.getElem_mem hi, hrest⟩
    · rintro ⟨e, he, hrest⟩
      obtain ⟨i, hi, rfl⟩ := List.getElem_of_mem he
      exact ⟨_, List.mem_mapIdx.mpr ⟨i, hi, rfl⟩, hrest⟩

theorem selectsBy_id_of_fits {as : List Addition} (h : ∀ e, .edge e ∈ as → e.Fits) :
    SelectsBy NodeId.Fits id as := by
  have hany := selectsBy_low_of_any as
  have htaken := Addition.taken_low h 0
  have hstored : ∀ e ∈ (empty.addAll as).edges, e.Fits := by
    intro e he
    rw [hany.edges] at he
    obtain ⟨i, hi, rfl⟩ := List.mem_mapIdx.mp he
    have hfits := h _ (Addition.mem_of_mem_taken (List.getElem_mem hi))
    exact hfits
  refine ⟨hany.nodes, htaken ▸ hany.edges, fun e hs ht => ?_, fun i hi n hn => ?_,
    fun s hs e => ?_, fun t ht e => ?_, hany.newestFirst, fun s t k hs => ?_⟩
  · rw [hany.refuses_iff e trivial trivial, hs.low_eq, ht.low_eq]
    rfl
  · rw [hany.id_of_node? i trivial n hn, hi.low_eq]
    rfl
  · rw [hany.mem_edgesFrom_iff s trivial, hs.low_eq]
    exact and_congr_right fun he => by rw [(hstored e he).1.low_eq]; rfl
  · rw [hany.mem_edgesTo_iff t trivial, ht.low_eq]
    exact and_congr_right fun he => by rw [(hstored e he).2.low_eq]; rfl
  · rw [hany.hasEdge_iff s t k trivial, htaken, hs.low_eq]
    refine exists_congr fun e => and_congr_right fun he => ?_
    rw [(h e (Addition.mem_of_mem_taken he)).1.low_eq]
    rfl

/-- Numbers select nodes by their low 32 bits, in both records of the edges alike; so numbers of 32
bits select just the node that got them. -/
theorem selectsBy_low (as : List Addition) : SelectsBy (fun _ => True) NodeId.low as ∧
    ((∀ e, .edge e ∈ as → e.Fits) → SelectsBy NodeId.Fits id as) ∧
    (Adjacency.addAll (empty, .empty) as).2.Tells (empty.addAll as) := by
  refine ⟨selectsBy_low_of_any as, selectsBy_id_of_fits, ?_⟩
  exact (Adjacency.tells_addAll (s := (empty, .empty)) ⟨fun _ => rfl, fun _ => rfl⟩ as).2

/-! ## A number that means another node -/

def strayed : List Addition :=
  [.node { kind := .method, name := "a", qualifiedName := "A#a()" },
    .edge { source := ⟨UInt32.size⟩, target := ⟨0⟩, kind := .calls }]

theorem not_selectsBy_strayed : empty.answers strayed = [⟨0⟩] ∧
    ((empty.addAll strayed).node? ⟨UInt32.size⟩).map (·.id) = some ⟨0⟩ ∧
    ((empty.addAll strayed).edgesFrom ⟨0⟩).map (·.source) = [⟨UInt32.size⟩] ∧
    (empty.addAll strayed).hasEdge ⟨0⟩ ⟨0⟩ .calls = true ∧
    ⟨⟨0⟩, .calls, ⟨0⟩⟩ ∉ (empty.addAll strayed).triples ∧
    ¬SelectsBy (fun _ => True) id strayed := by
  have hedges : (empty.addAll strayed).edges ≠ [] := by decide
  refine ⟨by decide, by decide, by decide, by decide, by decide, fun h => hedges ?_⟩
  rw [h.edges]
  decide

end Graph

end Lineage
