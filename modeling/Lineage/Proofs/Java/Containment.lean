import Lineage.Java.Snapshot
import Lineage.Proofs.Graph
/-! # Containment in a project

While the declarations of a project are assembled, every edge joins nodes of the kinds that its own
kind asks for, no two edges say the same, and every type, method and field is declared by exactly one
node, which was there before it. Main statements: `Contained.link`, `Contained.place`,
`Sound.addField`, `Sound.addMethod`.
-/
namespace Lineage

namespace EdgeKind

/-- The kinds of the nodes that an edge found in the code joins. -/
def ends : EdgeKind → List (NodeKind × NodeKind)
  | contains => [(.project, .file)]
  | hasPackage => [(.project, .package)]
  | inPackage => [(.type, .package)]
  | declaresType => [(.file, .type)]
  | declares => [(.type, .method), (.type, .field), (.type, .type)]
  | inherits | implements => [(.type, .type)]
  | calls | overrides | tests => [(.method, .method)]
  | reads | writes => [(.method, .field)]
  | hasParam | returnType | throws => [(.method, .type)]
  | renamed | moved | extracted | inlined | changedSignature | refactored | refactoredTo
  | evolvesFrom => []

def isContainment (k : EdgeKind) : Bool := k = .declaresType || k = .declares

def isSupertype (k : EdgeKind) : Bool := k = .inherits || k = .implements

end EdgeKind

def NodeKind.isDeclared : NodeKind → Bool
  | type | method | field => true
  | project | package | file => false

namespace Java

/-! ## Nodes and triples -/

def kindAt? (ns : List Node) (i : NodeId) : Option NodeKind := (ns[i.number]?).map (·.kind)

/-- The triple joins two nodes of the kinds that its own kind asks for. -/
def Joins (ns : List Node) (t : Triple) : Prop :=
  ∃ a b, kindAt? ns t.source = some a ∧ kindAt? ns t.target = some b ∧ (a, b) ∈ t.kind.ends

/-- The triples that say where a node is declared. -/
def holders (ts : List Triple) (i : NodeId) : List Triple :=
  ts.filter fun t => t.target = i && t.kind.isContainment

/-- Triples join the right nodes, and what is declared is declared once, in an earlier node. -/
structure Contained (ns : List Node) (ts : List Triple) : Prop where
  joins : ∀ t ∈ ts, Joins ns t
  loopless : ∀ t ∈ ts, t.kind.isSupertype → t.source ≠ t.target
  nodup : ts.Nodup
  held : ∀ i k, kindAt? ns i = some k → k.isDeclared → ∃ t, holders ts i = [t] ∧ t.source < i

section Kinds
variable {ns : List Node} {n : Node} {i : NodeId} {k : NodeKind}

theorem lt_of_kindAt? (h : kindAt? ns i = some k) : i.number < ns.length := by
  obtain ⟨n, hn, -⟩ := Option.map_eq_some_iff.mp h
  exact (List.getElem?_eq_some_iff.mp hn).1

theorem kindAt?_append (h : kindAt? ns i = some k) (new : List Node) :
    kindAt? (ns ++ new) i = some k := by
  rw [kindAt?, List.getElem?_append_left (lt_of_kindAt? h)]
  exact h

theorem kindAt?_length (ns : List Node) (n : Node) :
    kindAt? (ns ++ [n]) ⟨ns.length⟩ = some n.kind := by
  rw [kindAt?, List.getElem?_concat_length]
  rfl

theorem kindAt?_snoc (h : kindAt? (ns ++ [n]) i = some k) :
    kindAt? ns i = some k ∨ i = ⟨ns.length⟩ ∧ k = n.kind := by
  rcases Nat.lt_or_ge i.number ns.length with hlt | hge
  · rw [kindAt?, List.getElem?_append_left hlt] at h
    exact .inl h
  · have hlt := lt_of_kindAt? h
    rw [List.length_append, List.length_singleton] at hlt
    obtain rfl : i = ⟨ns.length⟩ := congrArg NodeId.mk (show i.number = ns.length by omega)
    rw [kindAt?_length, Option.some.injEq] at h
    exact .inr ⟨rfl, h.symm⟩

theorem Joins.append {t : Triple} (h : Joins ns t) (new : List Node) : Joins (ns ++ new) t := by
  obtain ⟨a, b, ha, hb, hk⟩ := h
  exact ⟨a, b, kindAt?_append ha new, kindAt?_append hb new, hk⟩

theorem Joins.lt {t : Triple} (h : Joins ns t) :
    t.source.number < ns.length ∧ t.target.number < ns.length := by
  obtain ⟨a, b, ha, hb, -⟩ := h
  exact ⟨lt_of_kindAt? ha, lt_of_kindAt? hb⟩

end Kinds

namespace Contained

variable {ns : List Node} {ts : List Triple} {n : Node} {t : Triple} (h : Contained ns ts)
include h

theorem holders_length : holders ts ⟨ns.length⟩ = [] := by
  rw [holders, List.filter_eq_nil_iff]
  intro t ht
  have hne : t.target ≠ ⟨ns.length⟩ := by
    intro he
    have hlt := (h.joins t ht).lt.2
    rw [he] at hlt
    exact Nat.lt_irrefl _ hlt
  simp [hne]

theorem add (hn : n.kind.isDeclared = false) : Contained (ns ++ [n]) ts where
  joins t ht := (h.joins t ht).append _
  loopless := h.loopless
  nodup := h.nodup
  held i k hi hk := by
    rcases kindAt?_snoc hi with hi | ⟨-, rfl⟩
    · exact h.held i k hi hk
    · rw [hn] at hk
      cases hk

theorem link (ht : Joins ns t) (hc : t.kind.isContainment = false)
    (hl : t.kind.isSupertype → t.source ≠ t.target) :
    Contained ns (if t ∈ ts then ts else ts ++ [t]) := by
  split
  · exact h
  rename_i hnew
  refine ⟨?_, ?_, ?_, ?_⟩
  · intro u hu
    rcases List.mem_append.mp hu with hu | hu
    · exact h.joins u hu
    · rw [List.mem_singleton.mp hu]
      exact ht
  · intro u hu
    rcases List.mem_append.mp hu with hu | hu
    · exact h.loopless u hu
    · rw [List.mem_singleton.mp hu]
      exact hl
  · exact h.nodup.append (List.nodup_singleton t) (by simpa using hnew)
  · intro i k hi hk
    obtain ⟨u, hu, hlt⟩ := h.held i k hi hk
    refine ⟨u, ?_, hlt⟩
    rw [holders, List.filter_append, ← holders, hu]
    simp [hc]

/-- A new node together with the triple that says where it is declared. -/
theorem place {o : NodeId} {a : NodeKind} {k : EdgeKind} (ho : kindAt? ns o = some a)
    (hk : (a, n.kind) ∈ k.ends) (hc : k.isContainment = true) (hs : k.isSupertype = false) :
    ⟨o, k, ⟨ns.length⟩⟩ ∉ ts ∧ Contained (ns ++ [n]) (ts ++ [⟨o, k, ⟨ns.length⟩⟩]) := by
  have hnew : ⟨o, k, ⟨ns.length⟩⟩ ∉ ts := fun hmem => Nat.lt_irrefl _ (h.joins _ hmem).lt.2
  refine ⟨hnew, ?_, ?_, ?_, ?_⟩
  · intro u hu
    rcases List.mem_append.mp hu with hu | hu
    · exact (h.joins u hu).append _
    · rw [List.mem_singleton.mp hu]
      exact ⟨a, n.kind, kindAt?_append ho _, kindAt?_length ns n, hk⟩
  · intro u hu hku
    rcases List.mem_append.mp hu with hu | hu
    · exact h.loopless u hu hku
    · rw [List.mem_singleton.mp hu, hs] at hku
      cases hku
  · exact h.nodup.append (List.nodup_singleton _) (by simpa using hnew)
  · intro i k' hi hk'
    rcases kindAt?_snoc hi with hi | ⟨rfl, -⟩
    · obtain ⟨u, hu, hlt⟩ := h.held i k' hi hk'
      have hne : (⟨ns.length⟩ : NodeId) ≠ i := by
        rintro rfl
        exact Nat.lt_irrefl _ (lt_of_kindAt? hi)
      refine ⟨u, ?_, hlt⟩
      rw [holders, List.filter_append, ← holders, hu]
      simp [hne]
    · refine ⟨⟨o, k, ⟨ns.length⟩⟩, ?_, lt_of_kindAt? ho⟩
      rw [holders, List.filter_append, ← holders, h.holders_length]
      simp [hc]

end Contained

/-! ## Assemblies -/

namespace Assembly

section Link
variable (a : Assembly) (t : Triple)

theorem link_eq : a.link t = { a with graph := (a.link t).graph } := by
  unfold link
  split <;> rfl

theorem link_withSymbols (s : Symbols) :
    { a with symbols := s }.link t = { a.link t with symbols := s } := by
  unfold link
  split <;> rfl

@[simp] theorem nodes_link : (a.link t).graph.nodes = a.graph.nodes := by
  unfold link
  split
  · rfl
  · exact Graph.nodes_tryEdge _ _

@[simp] theorem symbols_link : (a.link t).symbols = a.symbols := by rw [link_eq]

@[simp] theorem packages_link : (a.link t).packages = a.packages := by rw [link_eq]

variable {a t}

theorem triples_link (hs : t.source.number < a.graph.nodes.length)
    (ht : t.target.number < a.graph.nodes.length) : (a.link t).graph.triples =
      if t ∈ a.graph.triples then a.graph.triples else a.graph.triples ++ [t] := by
  have hend : a.graph.hasNode t.source ∧ a.graph.hasNode t.target :=
    ⟨Graph.hasNode_of_lt hs, Graph.hasNode_of_lt ht⟩
  unfold link
  simp only [List.contains_iff_mem]
  split
  · rfl
  · simp only [Graph.tryEdge, Graph.addEdge, hend.1, hend.2, Bool.and_self, if_true]
    simp only [Option.map_some, Option.getD_some, Graph.triples, List.map_append, List.map_cons,
      List.map_nil]
    rfl

end Link

/-- The nodes of the graph are contained as they should, and all tables lead to nodes of their kind. -/
structure Sound (a : Assembly) : Prop where
  numbered : Graph.Numbered a.graph.nodes
  contained : Contained a.graph.nodes a.graph.triples
  project : kindAt? a.graph.nodes projectId = some .project
  packages : ∀ e ∈ a.packages, kindAt? a.graph.nodes e.2 = some .package
  types : ∀ e ∈ a.symbols.types, kindAt? a.graph.nodes e.2 = some .type
  methods : ∀ e ∈ a.symbols.methods, kindAt? a.graph.nodes e.2.id = some .method
  fields : ∀ e ∈ a.symbols.fields, kindAt? a.graph.nodes e.2.id = some .field
  typeEntries : ∀ t ∈ a.types, kindAt? a.graph.nodes t.id = some .type
  methodEntries : ∀ m ∈ a.methods, kindAt? a.graph.nodes m.id = some .method

section Sound
variable {a : Assembly} (h : a.Sound)
include h

/-- Further nodes keep the kinds of the nodes that were there. -/
theorem Sound.withGraph {g : Graph} {m : List Node} (hg : g.nodes = a.graph.nodes ++ m)
    (hn : Graph.Numbered g.nodes) (hc : Contained g.nodes g.triples) :
    Sound { a with graph := g } := by
  have hkept : ∀ i k, kindAt? a.graph.nodes i = some k → kindAt? g.nodes i = some k := by
    intro i k hi
    rw [hg]
    exact kindAt?_append hi m
  exact
    { numbered := hn
      contained := hc
      project := hkept _ _ h.project
      packages := fun e he => hkept _ _ (h.packages e he)
      types := fun e he => hkept _ _ (h.types e he)
      methods := fun e he => hkept _ _ (h.methods e he)
      fields := fun e he => hkept _ _ (h.fields e he)
      typeEntries := fun t ht => hkept _ _ (h.typeEntries t ht)
      methodEntries := fun m hm => hkept _ _ (h.methodEntries m hm) }

theorem Sound.addNode {n : Node} (hn : n.kind.isDeclared = false) : (a.addNode n).2.Sound :=
  h.withGraph rfl (h.numbered.snoc n) (h.contained.add hn)

theorem Sound.link {t : Triple} (ht : Joins a.graph.nodes t)
    (hc : t.kind.isContainment = false) (hl : t.kind.isSupertype → t.source ≠ t.target) :
    (a.link t).Sound := by
  rw [link_eq]
  have hnodes : (a.link t).graph.nodes = a.graph.nodes := nodes_link a t
  refine h.withGraph (m := []) (by rw [hnodes, List.append_nil]) (by rw [hnodes]; exact h.numbered) ?_
  rw [hnodes, triples_link ht.lt.1 ht.lt.2]
  exact h.contained.link ht hc hl

theorem Sound.linkAll {ts : List Triple} (hts : ∀ t ∈ ts, Joins a.graph.nodes t ∧
    t.kind.isContainment = false ∧ (t.kind.isSupertype → t.source ≠ t.target)) :
    (a.linkAll ts).Sound := by
  induction ts generalizing a with
  | nil => exact h
  | cons t ts ih =>
    obtain ⟨ht, hc, hl⟩ := hts t List.mem_cons_self
    refine ih (h.link ht hc hl) fun u hu => ?_
    rw [nodes_link]
    exact hts u (List.mem_cons_of_mem _ hu)

theorem Sound.place {n : Node} {o : NodeId} {k : NodeKind} {e : EdgeKind}
    (ho : kindAt? a.graph.nodes o = some k) (hk : (k, n.kind) ∈ e.ends)
    (hc : e.isContainment = true) (hs : e.isSupertype = false) :
    ((a.addNode n).2.link ⟨o, e, (a.addNode n).1⟩).Sound := by
  have hnodes : (a.addNode n).2.graph.nodes = a.graph.nodes ++ [n.renumber ⟨a.graph.nodes.length⟩] :=
    rfl
  have htriples : (a.addNode n).2.graph.triples = a.graph.triples := rfl
  have hplace := h.contained.place (n := n.renumber ⟨a.graph.nodes.length⟩) ho hk hc hs
  have hnew : (⟨o, e, (a.addNode n).1⟩ : Triple) ∉ a.graph.triples := hplace.1
  have hlt : o.number < (a.addNode n).2.graph.nodes.length := by
    rw [hnodes]
    exact lt_of_kindAt? (kindAt?_append ho _)
  have hlt' : (a.addNode n).1.number < (a.addNode n).2.graph.nodes.length := by
    rw [hnodes, List.length_append]
    exact Nat.lt_succ_self _
  have hadded : (a.addNode n).2.link ⟨o, e, (a.addNode n).1⟩ =
      { a with graph := ((a.addNode n).2.link ⟨o, e, (a.addNode n).1⟩).graph } := by
    rw [link_eq]
    rfl
  rw [hadded]
  refine h.withGraph (m := [n.renumber ⟨a.graph.nodes.length⟩]) ?_ ?_ ?_
  · rw [nodes_link, hnodes]
  · rw [nodes_link]
    exact h.numbered.snoc n
  · rw [nodes_link, triples_link hlt hlt', htriples, if_neg hnew]
    exact hplace.2

theorem Sound.withSymbols {s : Symbols}
    (ht : ∀ e ∈ s.types, kindAt? a.graph.nodes e.2 = some .type)
    (hm : ∀ e ∈ s.methods, kindAt? a.graph.nodes e.2.id = some .method)
    (hf : ∀ e ∈ s.fields, kindAt? a.graph.nodes e.2.id = some .field) :
    Sound { a with symbols := s } :=
  { h with types := ht, methods := hm, fields := hf }

end Sound

/-! ## What the steps of an assembly add -/

/-- From one assembly to another there are further nodes, with the given keys; types of the given
names are registered, and packages of the given names. -/
structure Adds (a a' : Assembly) (keys : List EntityKey) (names packages : List String) : Prop where
  nodes : ∃ new, a'.graph.nodes = a.graph.nodes ++ new ∧ new.map Node.key = keys
  names : a'.symbols.types.map (·.1) = a.symbols.types.map (·.1) ++ names
  packages : a'.packages.map (·.1) = a.packages.map (·.1) ++ packages

section Adds
variable {a b c : Assembly} {ks ks' : List EntityKey} {ns ns' ps ps' : List String}

theorem Adds.refl (a : Assembly) : Adds a a [] [] [] :=
  ⟨⟨[], (List.append_nil _).symm, rfl⟩, (List.append_nil _).symm, (List.append_nil _).symm⟩

theorem Adds.trans (h : Adds a b ks ns ps) (h' : Adds b c ks' ns' ps') :
    Adds a c (ks ++ ks') (ns ++ ns') (ps ++ ps') := by
  obtain ⟨new, hnew, hk⟩ := h.nodes
  obtain ⟨new', hnew', hk'⟩ := h'.nodes
  refine ⟨⟨new ++ new', ?_, ?_⟩, ?_, ?_⟩
  · rw [hnew', hnew, List.append_assoc]
  · rw [List.map_append, hk, hk']
  · rw [h'.names, h.names, List.append_assoc]
  · rw [h'.packages, h.packages, List.append_assoc]

theorem Adds.keys (h : Adds a b ks ns ps) : b.graph.keys = a.graph.keys ++ ks := by
  obtain ⟨new, hnew, hk⟩ := h.nodes
  rw [Graph.keys, hnew, List.map_append, hk]
  rfl

theorem Adds.kindAt? (h : Adds a b ks ns ps) {i : NodeId} {k : NodeKind}
    (hi : Java.kindAt? a.graph.nodes i = some k) : Java.kindAt? b.graph.nodes i = some k := by
  obtain ⟨new, hnew, -⟩ := h.nodes
  rw [hnew]
  exact kindAt?_append hi new

theorem adds_addNode (a : Assembly) (n : Node) : Adds a (a.addNode n).2 [n.key] [] [] :=
  ⟨⟨[n.renumber ⟨a.graph.nodes.length⟩], rfl, rfl⟩, (List.append_nil _).symm,
    (List.append_nil _).symm⟩

theorem adds_link (a : Assembly) (t : Triple) : Adds a (a.link t) [] [] [] :=
  ⟨⟨[], by rw [nodes_link, List.append_nil], rfl⟩, by rw [symbols_link, List.append_nil],
    by rw [packages_link, List.append_nil]⟩

theorem adds_foldl_nil {α : Type} {f : Assembly → α → Assembly}
    (hf : ∀ a x, Adds a (f a x) [] [] []) (a : Assembly) (xs : List α) :
    Adds a (xs.foldl f a) [] [] [] := by
  induction xs generalizing a with
  | nil => exact .refl a
  | cons x xs ih => exact (hf a x).trans (ih _)

theorem adds_linkAll (a : Assembly) (ts : List Triple) : Adds a (a.linkAll ts) [] [] [] :=
  adds_foldl_nil adds_link a ts

theorem adds_foldl {α : Type} {f : Assembly → α → Assembly} {key : α → EntityKey}
    (hf : ∀ a x, Adds a (f a x) [key x] [] []) (a : Assembly) (xs : List α) :
    Adds a (xs.foldl f a) (xs.map key) [] [] := by
  induction xs generalizing a with
  | nil => exact .refl a
  | cons x xs ih => exact (hf a x).trans (ih _)

end Adds

/-! ## Members -/

section Members
variable {a : Assembly} {path : String} {t : TypeEntry}

@[simp] theorem kind_fieldNode (path : String) (t : TypeFacts) (f : FieldFacts) :
    (fieldNode path t f).kind = .field := rfl

@[simp] theorem kind_methodNode (path : String) (t : TypeFacts) (m : MethodFacts) :
    (methodNode path t m).kind = .method := by
  unfold methodNode
  dsimp only
  split <;> rfl

@[simp] theorem kind_withPackage (p : Option String) (n : Node) : (withPackage p n).kind = n.kind := by
  cases p <;> rfl

@[simp] theorem kind_typeNode (f : FileFacts) (t : TypeFacts) : (typeNode f t).kind = .type :=
  kind_withPackage f.package _

@[simp] theorem kind_fileNode (f : FileFacts) : (fileNode f).kind = .file :=
  kind_withPackage f.package _

theorem adds_addField (path : String) (t : TypeEntry) (a : Assembly) (f : FieldFacts) :
    Adds a (addField path t a f) [(fieldNode path t.facts f).key] [] [] :=
  ⟨((adds_addNode a (fieldNode path t.facts f)).trans (adds_link _ _)).nodes,
    ((adds_addNode a (fieldNode path t.facts f)).trans (adds_link _ _)).names,
    ((adds_addNode a (fieldNode path t.facts f)).trans (adds_link _ _)).packages⟩

theorem adds_addMethod (path : String) (t : TypeEntry) (a : Assembly) (m : MethodFacts) :
    Adds a (addMethod path t a m) [(methodNode path t.facts m).key] [] [] :=
  ⟨((adds_addNode a (methodNode path t.facts m)).trans (adds_link _ _)).nodes,
    ((adds_addNode a (methodNode path t.facts m)).trans (adds_link _ _)).names,
    ((adds_addNode a (methodNode path t.facts m)).trans (adds_link _ _)).packages⟩

variable (h : a.Sound) (ht : kindAt? a.graph.nodes t.id = some .type)
include h ht

theorem Sound.addField (f : FieldFacts) : (Assembly.addField path t a f).Sound := by
  have hplaced := h.place (n := fieldNode path t.facts f) (e := .declares) ht (by simp [EdgeKind.ends])
    rfl rfl
  have hnew : kindAt? ((a.addNode (fieldNode path t.facts f)).2.link
      ⟨t.id, .declares, (a.addNode (fieldNode path t.facts f)).1⟩).graph.nodes
      (a.addNode (fieldNode path t.facts f)).1 = some .field := by
    rw [nodes_link]
    exact kindAt?_length _ _
  refine hplaced.withSymbols hplaced.types hplaced.methods fun e he => ?_
  rcases List.mem_append.mp he with he | he
  · exact hplaced.fields e he
  · rw [List.mem_singleton.mp he]
    exact hnew

theorem Sound.addMethod (m : MethodFacts) : (Assembly.addMethod path t a m).Sound := by
  have hkind : (methodNode path t.facts m).kind = .method := kind_methodNode path t.facts m
  have hplaced := h.place (n := methodNode path t.facts m) (e := .declares) ht
    (by simp [EdgeKind.ends]) rfl rfl
  have hnew : kindAt? ((a.addNode (methodNode path t.facts m)).2.link
      ⟨t.id, .declares, (a.addNode (methodNode path t.facts m)).1⟩).graph.nodes
      (a.addNode (methodNode path t.facts m)).1 = some .method := by
    rw [nodes_link, ← hkind]
    exact kindAt?_length _ _
  refine { hplaced with methods := fun e he => ?_, methodEntries := fun e he => ?_ }
  · rcases List.mem_append.mp he with he | he
    · exact hplaced.methods e he
    · rw [List.mem_singleton.mp he]
      exact hnew
  · rcases List.mem_append.mp he with he | he
    · exact hplaced.methodEntries e he
    · rw [List.mem_singleton.mp he]
      exact hnew

end Members

theorem adds_addMembers (path : String) (t : TypeEntry) (a : Assembly) :
    Adds a (addMembers path t a)
      (t.facts.fields.map (fun f => (fieldNode path t.facts f).key) ++
        (distinctTails t.facts.methods).map fun m => (methodNode path t.facts m).key) [] [] :=
  (adds_foldl (adds_addField path t) a t.facts.fields).trans
    (adds_foldl (adds_addMethod path t) _ _)

/-- Steps that keep all nodes and ask for one node each keep an assembly sound together when each of
them does. -/
theorem Sound.foldl {α : Type} {f : Assembly → α → Assembly} {xs : List α} {o : α → NodeId}
    {k : NodeKind}
    (hkept : ∀ a x i k, kindAt? a.graph.nodes i = some k → kindAt? (f a x).graph.nodes i = some k)
    (hf : ∀ a, ∀ x ∈ xs, a.Sound → kindAt? a.graph.nodes (o x) = some k → (f a x).Sound)
    {a : Assembly} (h : a.Sound) (ho : ∀ x ∈ xs, kindAt? a.graph.nodes (o x) = some k) :
    (xs.foldl f a).Sound := by
  induction xs generalizing a with
  | nil => exact h
  | cons x xs ih =>
    refine ih (fun a y hy => hf a y (List.mem_cons_of_mem _ hy))
      (hf a x List.mem_cons_self h (ho x List.mem_cons_self)) ?_
    intro y hy
    exact hkept a x _ _ (ho y (List.mem_cons_of_mem _ hy))

theorem Sound.addMembers {a : Assembly} (h : a.Sound) (path : String) {t : TypeEntry}
    (ht : kindAt? a.graph.nodes t.id = some .type) : (Assembly.addMembers path t a).Sound := by
  have hfields : (t.facts.fields.foldl (Assembly.addField path t) a).Sound :=
    h.foldl (o := fun _ => t.id) (fun a f _ _ hi => (adds_addField path t a f).kindAt? hi)
      (fun _ f _ h ht => h.addField ht f) fun _ _ => ht
  have ht' := (adds_foldl (adds_addField path t) a t.facts.fields).kindAt? ht
  exact hfields.foldl (o := fun _ => t.id)
    (fun a m _ _ hi => (adds_addMethod path t a m).kindAt? hi)
    (fun _ m _ h ht => h.addMethod ht m) fun _ _ => ht'

end Assembly

end Java

end Lineage
