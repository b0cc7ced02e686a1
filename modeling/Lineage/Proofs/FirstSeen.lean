import Lineage.Proofs.Index
/-! # The first node of an entity

An index is the quotient of a version by the keys of its nodes: every class goes by its first node,
and all others are warned of once. What the first node has is kept, and it takes over from the
others what it lacks; but its last line goes with the first one, so a node without a first line
gives up its last line too. Main statements: `firstSeenQuotient_ofGraph`, `lineEnd_foldl_absorb`,
`firstSeenWins_iff`.
-/
namespace Lineage

/-! ## Classes of nodes -/

namespace Index

/-- The index sees a version as the classes of nodes of one key, each by its first node. -/
structure FirstSeenQuotient (g : Graph) (x : Index) : Prop where
  defined : ∀ i, (x.canonical? i).isSome ↔ i ∈ g.nodes.map (·.id)
  idempotent : ∀ i c, x.canonical? i = some c → x.canonical? c = some c
  smallest : ∀ n ∈ g.nodes, ∃ c ∈ g.nodes, x.canonical? n.id = some c.id ∧ c.key = n.key ∧
    ∀ m ∈ g.nodes, m.key = n.key → c.id ≤ m.id
  identifies : ∀ n ∈ g.nodes, ∀ m ∈ g.nodes,
    x.canonical? n.id = x.canonical? m.id ↔ n.key = m.key
  representatives : ∀ i, i ∈ x.ids ↔ ∃ n ∈ g.nodes, x.canonical? n.id = some i
  ascending : x.ids.Pairwise (· < ·)
  lookup : ∀ k, x.lookup? k = g.findKey? k
  folded : ∀ n ∈ g.nodes, ∃ c f, x.canonical? n.id = some c ∧ x.node? c = some f ∧ f.key = n.key
  warned : x.warnings = (g.nodes.filter (·.id ∉ x.ids)).map fun n => .identityCollision n.key
  counted : x.warnings.length + x.size = g.nodes.length

theorem firstSeenQuotient_ofGraph {g : Graph} (hg : Graph.Numbered g.nodes)
    (ht : ∀ n ∈ g.nodes, n.Typed) : FirstSeenQuotient g (ofGraph g) := by
  have hx : (ofGraph g).IsIndexOf g.nodes := isIndexOf_ofNodes hg.nodup ht
  refine
    { defined := fun i => hx.isSome_canonical?_iff
      idempotent := fun i c hc => canonical?_of_mem_ids (mem_ids_of_canonical? hc)
      smallest := fun n hn => ?_
      identifies := fun n hn m hm => ⟨fun he => ?_, fun hk => ?_⟩
      representatives := fun i => ⟨fun hi => ?_, fun ⟨n, _, hc⟩ => mem_ids_of_canonical? hc⟩
      ascending := hg.ascending.sublist (ids_sublist g.nodes)
      lookup := lookup?_ofGraph g
      folded := fun n hn => ?_
      warned := warnings_ofNodes hg.nodup
      counted := ?_ }
  · obtain ⟨i, hi⟩ := Graph.exists_findKey? hn
    obtain ⟨c, hc, rfl⟩ := Option.map_eq_some_iff.mp hi
    refine ⟨c, List.mem_of_find?_eq_some hc, (hx.canonical?_eq_findKey? hn).trans hi,
      by simpa using List.find?_some hc, fun m hm hk => ?_⟩
    exact hg.le_of_find?_eq_some hc hm (by simpa using hk)
  · obtain ⟨c, hc⟩ := Graph.exists_findKey? hn
    rw [hx.canonical?_eq_findKey? hn, hx.canonical?_eq_findKey? hm] at he
    exact hg.key_eq_of_findKey?_eq hc (he ▸ hc)
  · rw [hx.canonical?_eq_findKey? hn, hx.canonical?_eq_findKey? hm, hk]
  · obtain ⟨n, hn, rfl⟩ := List.mem_map.mp (hx.mem_of_mem_ids hi)
    exact ⟨n, hn, canonical?_of_mem_ids hi⟩
  · obtain ⟨i, hi⟩ := Graph.exists_findKey? hn
    have hlookup : (ofGraph g).lookup? n.key = some i := (lookup?_ofGraph g n.key).trans hi
    obtain ⟨e, he, rfl⟩ := Option.map_eq_some_iff.mp hlookup
    have hmem : e ∈ (ofGraph g).entities := List.mem_of_find?_eq_some he
    have hkey : e.key = n.key := by simpa using List.find?_some he
    exact ⟨e.id, e.node, (hx.canonical?_eq_findKey? hn).trans hi, node?_ofNodes hg.nodup hmem,
      (hx.key_node e hmem).trans hkey⟩
  · rw [warnings, List.length_map]
    exact length_collisions g.nodes

section Sample

def repeated : Graph :=
  let method (name : String) : Node :=
    { kind := .method, name, qualifiedName := "A#" ++ name ++ "()", filePath := "A.java" }
  let field (type : String) : Node :=
    { kind := .field, name := "x", qualifiedName := "A.x", filePath := "A.java"
      metadata := .ofList [(Meta.type, type)] }
  .ofLists [method "foo", field "int", method "foo", field "long", field "int", method "bar",
    field "int"] []

theorem firstSeenQuotient_repeated : Graph.Numbered repeated.nodes ∧
    (∀ n ∈ repeated.nodes, n.Typed) ∧ (ofGraph repeated).ids = [⟨0⟩, ⟨1⟩, ⟨3⟩, ⟨5⟩] ∧
    (ofGraph repeated).warnings = [.identityCollision ⟨.method, "A#foo()"⟩,
      .identityCollision ⟨.field, "A.x:int"⟩, .identityCollision ⟨.field, "A.x:int"⟩] ∧
    FirstSeenQuotient repeated (ofGraph repeated) := by
  have hg : Graph.Numbered repeated.nodes := (Graph.built_ofLists _ _).numbered
  have ht : ∀ n ∈ repeated.nodes, n.Typed := by
    unfold Node.Typed
    decide +kernel
  exact ⟨hg, ht, by decide +kernel, by decide +kernel, firstSeenQuotient_ofGraph hg ht⟩

end Sample

end Index

/-! ## What a class makes of its first node -/

namespace Node

/-- The node that a class takes its last line from: the first one that has a first line, or else the
last one. -/
def lineDonor (first : Node) : List Node → Node
  | [] => first
  | n :: rest => if first.lineStart.isSome then first else lineDonor n rest

section Absorb
variable (first : Node) (rest : List Node)

/-- What a node takes over only if it lacks it is that of the earliest of its class that has it. -/
theorem foldl_absorb {α : Type} {f : Node → Option α}
    (hf : ∀ n m : Node, f (n.absorb m) = (f n).or (f m)) :
    f (rest.foldl absorb first) = (first :: rest).findSome? f := by
  induction rest generalizing first with
  | nil => cases h : f first <;> simp [h]
  | cons n rest ih =>
    rw [List.foldl_cons, ih, List.findSome?_cons, List.findSome?_cons, List.findSome?_cons, hf]
    cases f first <;> rfl

theorem mem_versions_foldl_absorb (v : String) :
    v ∈ (rest.foldl absorb first).versions ↔ ∃ n ∈ first :: rest, v ∈ n.versions := by
  induction rest generalizing first with
  | nil => simp
  | cons n rest ih =>
    have hv : v ∈ (first.absorb n).versions ↔ v ∈ first.versions ∨ v ∈ n.versions :=
      TextSet.mem_union _ _ _
    simp only [List.foldl_cons, ih, List.exists_mem_cons_iff, hv, or_assoc]

/-- The last line is taken over together with the first one, or in place of a missing one. -/
theorem lineEnd_foldl_absorb :
    (rest.foldl absorb first).lineEnd = (lineDonor first rest).lineEnd := by
  induction rest generalizing first with
  | nil => rfl
  | cons n rest ih =>
    rw [List.foldl_cons, ih]
    -- If `first` has a first line, it is the donor before and after it meets `n`; else `n` is next.
    cases hs : first.lineStart with
    | some l =>
      cases rest with
      | nil => simp [lineDonor, absorb, hs]
      | cons m rest => simp [lineDonor, absorb, hs]
    | none =>
      cases rest with
      | nil => simp [lineDonor, absorb, hs]
      | cons m rest =>
        cases hn : n.lineStart <;> simp [lineDonor, absorb, hs, hn]

/-- A node without all that nodes take over from each other. -/
def stripped (n : Node) : Node :=
  { n with
    source := none, doc := none, summary := none, lineStart := none, lineEnd := none
    metadata := .empty, versions := .empty }

theorem stripped_foldl_absorb : (rest.foldl absorb first).stripped = first.stripped := by
  induction rest generalizing first with
  | nil => rfl
  | cons n rest ih => exact ih (first.absorb n)

/-- A node has what the first of its class had, its last line apart, and nothing else in its place;
its versions are those of the whole class. -/
structure Keeps (f : Node) : Prop where
  source : ∀ v ∈ first.source, v ∈ f.source
  doc : ∀ v ∈ first.doc, v ∈ f.doc
  summary : ∀ v ∈ first.summary, v ∈ f.summary
  lineStart : ∀ v ∈ first.lineStart, v ∈ f.lineStart
  metadata : ∀ k, ∀ v ∈ first.metadatum k, v ∈ f.metadatum k
  versions : ∀ v, v ∈ f.versions ↔ ∃ n ∈ first :: rest, v ∈ n.versions
  others : f.stripped = first.stripped

/-- A node has the last line of the first of its class as well. -/
structure FirstSeenWins (f : Node) : Prop extends Keeps first rest f where
  lineEnd : ∀ v ∈ first.lineEnd, v ∈ f.lineEnd

theorem mem_foldl_absorb {α : Type} {f : Node → Option α}
    (hf : ∀ n m : Node, f (n.absorb m) = (f n).or (f m)) {v : α} (hv : v ∈ f first) :
    v ∈ f (rest.foldl absorb first) := by
  rw [Option.mem_def] at hv
  rw [foldl_absorb first rest hf, List.findSome?_cons, hv, Option.mem_def]

theorem keeps_foldl_absorb : Keeps first rest (rest.foldl absorb first) where
  source _ := mem_foldl_absorb first rest fun _ _ => Option.orElse_eq_or
  doc _ := mem_foldl_absorb first rest fun _ _ => Option.orElse_eq_or
  summary _ := mem_foldl_absorb first rest fun _ _ => Option.orElse_eq_or
  lineStart _ := mem_foldl_absorb first rest fun _ _ => Option.orElse_eq_or
  metadata k _ :=
    mem_foldl_absorb (f := (·.metadatum k)) first rest fun n m => metadatum_absorb n m k
  versions := mem_versions_foldl_absorb first rest
  others := stripped_foldl_absorb first rest

theorem firstSeenWins_foldl_absorb_iff :
    FirstSeenWins first rest (rest.foldl absorb first) ↔
      first.lineEnd = none ∨ (lineDonor first rest).lineEnd = first.lineEnd := by
  constructor
  · intro h
    cases hl : first.lineEnd with
    | none => exact .inl rfl
    | some l =>
      have hkept : l ∈ (rest.foldl absorb first).lineEnd := h.lineEnd l hl
      rw [lineEnd_foldl_absorb] at hkept
      exact .inr hkept
  · intro h
    refine ⟨keeps_foldl_absorb first rest, fun v hv => ?_⟩
    rw [lineEnd_foldl_absorb]
    rcases h with h | h
    · rw [h] at hv
      cases hv
    · rw [h]
      exact hv

end Absorb

end Node

namespace Index

/-- The canonical node of a class is its first one with what that lacks from the others. It keeps
all it had but its last line, which it has from the donor. -/
theorem firstSeenWins_iff {g : Graph} (hg : Graph.Numbered g.nodes) {k : EntityKey} {first : Node}
    {rest : List Node} (hc : g.nodes.filter (·.key = k) = first :: rest) :
    ∃ f, (ofGraph g).lookup? k = some first.id ∧ (ofGraph g).node? first.id = some f ∧
      Node.Keeps first rest f ∧ f.lineEnd = (Node.lineDonor first rest).lineEnd ∧
      (Node.FirstSeenWins first rest f ↔
        first.lineEnd = none ∨ (Node.lineDonor first rest).lineEnd = first.lineEnd) := by
  have hfind := find?_ofNodes hg.nodup k
  rw [hc] at hfind
  have hmem := List.mem_of_find?_eq_some hfind
  exact ⟨_, congrArg (Option.map Entity.id) hfind, node?_ofNodes hg.nodup hmem,
    Node.keeps_foldl_absorb first rest, Node.lineEnd_foldl_absorb first rest,
    Node.firstSeenWins_foldl_absorb_iff first rest⟩

section Sample

def foo : EntityKey := ⟨.method, "A#foo()"⟩

def copy (id : Nat) (first last : Option UInt32) (source : Option String) : Node :=
  { id := ⟨id⟩, kind := .method, name := "foo", qualifiedName := "A#foo()", filePath := "A.java"
    lineStart := first, lineEnd := last, source }

def copies : Graph :=
  .ofLists [copy 0 none none (some "old"), copy 1 (some 3) (some 5) (some "new"),
    copy 2 (some 7) (some 9) none] []

theorem firstSeenWins_copies : Graph.Numbered copies.nodes ∧
    copies.nodes.filter (·.key = foo) = [copy 0 none none (some "old"),
      copy 1 (some 3) (some 5) (some "new"), copy 2 (some 7) (some 9) none] ∧
    ∃ f, (ofGraph copies).node? ⟨0⟩ = some f ∧
      (f.source, f.lineStart, f.lineEnd) = (some "old", some 3, some 5) ∧
      Node.FirstSeenWins (copy 0 none none (some "old"))
        [copy 1 (some 3) (some 5) (some "new"), copy 2 (some 7) (some 9) none] f := by
  have hg : Graph.Numbered copies.nodes := (Graph.built_ofLists _ _).numbered
  have hc : copies.nodes.filter (·.key = foo) = [copy 0 none none (some "old"),
      copy 1 (some 3) (some 5) (some "new"), copy 2 (some 7) (some 9) none] := by decide +kernel
  obtain ⟨f, -, hf, -, -, hwins⟩ := firstSeenWins_iff hg hc
  have hvalues : ((ofGraph copies).node? ⟨0⟩).map (fun f => (f.source, f.lineStart, f.lineEnd)) =
      some (some "old", some 3, some 5) := by decide +kernel
  rw [show (ofGraph copies).node? ⟨0⟩ = some f from hf] at hvalues
  exact ⟨hg, hc, f, hf, Option.some.inj hvalues, hwins.mpr (.inl rfl)⟩

def headless : Graph := .ofLists [copy 0 none (some 5) none, copy 1 (some 3) (some 9) none] []

theorem not_firstSeenWins_headless : ∃ f, (ofGraph headless).node? ⟨0⟩ = some f ∧
    headless.nodes.filter (·.key = foo) =
      [copy 0 none (some 5) none, copy 1 (some 3) (some 9) none] ∧
    (f.lineStart, f.lineEnd) = (some 3, some 9) ∧
    ¬Node.FirstSeenWins (copy 0 none (some 5) none) [copy 1 (some 3) (some 9) none] f := by
  have hvalues : ((ofGraph headless).node? ⟨0⟩).map (fun f => (f.lineStart, f.lineEnd)) =
      some (some 3, some 9) := by decide +kernel
  obtain ⟨f, hf, hlines⟩ := Option.map_eq_some_iff.mp hvalues
  have hend : f.lineEnd = some 9 := congrArg Prod.snd hlines
  refine ⟨f, hf, by decide +kernel, hlines, fun h => ?_⟩
  have hkept : 5 ∈ f.lineEnd := h.lineEnd 5 rfl
  rw [hend] at hkept
  exact absurd hkept (by decide)

end Sample

end Index
end Lineage
