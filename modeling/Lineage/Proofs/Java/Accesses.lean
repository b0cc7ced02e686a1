import Lineage.Proofs.Java.Variables
/-! # Accesses to fields

A bare name that stands as an expression is found as a read or a write, unless it stands for the
iterable of a loop, for the whole of a lambda, before the colons of a method reference, in a switch
label or in the head of a class inside the body, or such a class has a field of the name. Main
statement: `notices_project`.
-/
namespace Lineage.Java

namespace Spot

/-- A bare name that stands as an expression: it names nothing that is declared here, and neither a
method, a label, an annotation nor a part of a longer name. -/
def IsExpression (s : Spot) : Prop :=
  s.tree.kind = .identifier ∧ s.tree.role ≠ some .name ∧
    match s.parent with
    | .fieldAccess => s.tree.role ≠ some .field
    | .lambdaExpression => s.tree.role = some .body
    | .methodReference | .instanceofExpression => s.before = []
    | .elementValuePair => s.before ≠ []
    | .scopedIdentifier | .labeledStatement | .breakStatement | .continueStatement
    | .inferredParameters | .catchFormalParameter | .receiverParameter | .annotationCall
    | .annotationMark | .typePattern | .recordPattern | .recordPatternComponent => False
    | _ => True

def overlooking : List Kind :=
  [.enhancedForStatement, .lambdaExpression, .methodReference, .switchLabel]

theorem IsExpression.bare?_iff {s : Spot} (h : s.IsExpression) :
    s.bare? = some s.tree.text ↔ s.parent ∉ overlooking := by
  obtain ⟨⟨before, t⟩, parent⟩ := s
  obtain ⟨hk, hrole, hplace⟩ := h
  simp only [bare?, hk, true_and]
  cases parent <;> simp_all [Extract.isValue, overlooking]

theorem mem_ownUses_iff {s : Spot} {x : String} {w : Bool} :
    ⟨x, w⟩ ∈ s.ownUses ↔ w = decide s.IsTarget ∧ s.own? = some x := by
  rw [ownUses]
  cases s.own? <;> simp [eq_comm, and_comm]

theorem mem_bareUses_iff {s : Spot} {x : String} {w : Bool} :
    ⟨x, w⟩ ∈ s.bareUses ↔ w = decide s.IsTarget ∧ s.bare? = some x := by
  rw [bareUses]
  cases s.bare? <;> simp [eq_comm, and_comm]

end Spot

section Uses
variable {d u : Tree} {before : List Tree} {ownerName : String} {found : List FieldFacts}

/-- A use is an access to the object's own field, or a bare name that is not hidden. -/
theorem mem_fieldUses_iff {x : String} {w : Bool} :
    ⟨x, w⟩ ∈ (Extract.method before ownerName found u).body.fieldUses ↔
      ∃ s ∈ u.spots, w = decide s.IsTarget ∧
        (s.own? = some x ∨ s.bare? = some x ∧ ¬ u.Introduces x ∧ ¬ u.Encloses x) := by
  have hmem : ∀ us : List FieldUse, ⟨x, w⟩ ∈ usesOf x us ↔ ⟨x, w⟩ ∈ us := by
    intro us
    simp [usesOf]
  rw [← hmem, usesOf_method, List.mem_flatMap]
  refine exists_congr fun s => and_congr_right fun _ => ?_
  rw [List.mem_append, hmem, Spot.mem_ownUses_iff, and_or_left, ← not_or, ← Tree.mem_hidden_iff]
  refine or_congr_right ?_
  by_cases hx : x ∈ u.hidden
  · simp [hx]
  · simp [hx, hmem, Spot.mem_bareUses_iff]

def Kind.isTypeBody : Kind → Bool
  | .classBody | .interfaceBody | .enumBody | .annotationTypeBody => true
  | _ => false

namespace Tree
variable {closed closed' : Kind → Bool}

mutual

/-- Where nothing of other closed kinds stands, the places are also outside of these. -/
theorem spotsIn_subset (parent : Kind) (before : List Tree) :
    ∀ t, (∀ s ∈ spotsIn closed parent before t, closed' s.tree.kind = false) →
      spotsIn closed parent before t ⊆ spotsIn closed' parent before t
  | .node k r text a b cs => by
    intro h
    rw [spotsIn] at h ⊢
    split
    · exact List.nil_subset _
    · rename_i hk
      rw [if_neg hk, List.forall_mem_cons] at h
      have hopen : closed' k = false := h.1
      rw [spotsIn, hopen, if_neg Bool.false_ne_true]
      refine List.cons_subset_cons _ ?_
      split
      · exact List.nil_subset _
      · rename_i hidentifier
        rw [if_neg hidentifier] at h
        exact spotsOf_subset k [] cs h.2

theorem spotsOf_subset (parent : Kind) (before : List Tree) :
    ∀ ts, (∀ s ∈ spotsOf closed parent before ts, closed' s.tree.kind = false) →
      spotsOf closed parent before ts ⊆ spotsOf closed' parent before ts
  | [] => fun _ => List.nil_subset _
  | t :: ts => by
    intro h
    rw [spotsOf, List.forall_mem_append] at h
    rw [spotsOf, spotsOf]
    refine List.append_subset.mpr ⟨?_, ?_⟩
    · refine List.Subset.trans ?_ (List.subset_append_left _ _)
      split
      · rename_i hvisited
        rw [if_pos hvisited] at h
        exact spotsIn_subset parent before t h.1
      · exact List.nil_subset _
    · exact List.Subset.trans (spotsOf_subset parent (t :: before) ts h.2)
        (List.subset_append_right _ _)

end

theorem spotsOutside_subset {u : Tree}
    (h : ∀ s ∈ u.spotsOutside closed, closed' s.tree.kind = false) :
    u.spotsOutside closed ⊆ u.spotsOutside closed' := by
  unfold spotsOutside at h ⊢
  cases hb : u.child? .body with
  | none => exact List.nil_subset _
  | some b =>
    rw [hb] at h
    exact spotsIn_subset u.kind [] b h

end Tree

/-- A method mentions, outside of the bodies of types inside, a name that no variable of it has. -/
structure Spot.Mentions (s : Spot) (d u : Tree) : Prop where
  mem : s ∈ u.spotsOutside Kind.isTypeBody
  expression : s.IsExpression
  free : ¬ u.HasVariable d s.tree.text

/-- Every mention of a name is a use of it. -/
def Tree.AllSeen (u d : Tree) (us : List FieldUse) : Prop :=
  ∀ s : Spot, s.Mentions d u → ⟨s.tree.text, s.IsTarget⟩ ∈ us

/-- The place is passed over: it is in the head of a type inside, or its parent hides it, or it has
the name of a field of a type inside. -/
inductive Spot.IsMissed (s : Spot) (u : Tree) : Prop
  | head (h : s ∉ u.spots)
  | overlooked (h : s.parent ∈ overlooking)
  | enclosed (h : u.Encloses s.tree.text)

theorem Spot.Mentions.mem_fieldUses {s : Spot} (h : s.Mentions d u) (hs : ¬ s.IsMissed u) :
    ⟨s.tree.text, s.IsTarget⟩ ∈ (Extract.method before ownerName found u).body.fieldUses := by
  have hmem : s ∈ u.spots := by
    by_contra hmem
    exact hs (.head hmem)
  have hbare := h.expression.bare?_iff.mpr fun hp => hs (.overlooked hp)
  refine mem_fieldUses_iff.mpr ⟨s, hmem, rfl, .inr ⟨hbare, fun hi => ?_, fun hc => ?_⟩⟩
  · exact h.free (.introduced hi)
  · exact hs (.enclosed hc)

theorem allSeen_iff : u.AllSeen d (Extract.method before ownerName found u).body.fieldUses ↔
    ∀ s : Spot, s.Mentions d u → s.IsMissed u →
      ∃ s' ∈ u.spots, (s.IsTarget ↔ s'.IsTarget) ∧ (s'.own? = some s.tree.text ∨
        s'.bare? = some s.tree.text ∧ ¬ u.Encloses s.tree.text) := by
  constructor
  · intro h s hs _
    obtain ⟨s', hs', htarget, huse⟩ := mem_fieldUses_iff.mp (h s hs)
    exact ⟨s', hs', decide_eq_decide.mp htarget, huse.imp_right fun h => ⟨h.1, h.2.2⟩⟩
  · intro h s hs
    by_cases hmissed : s.IsMissed u
    · obtain ⟨s', hs', htarget, huse⟩ := h s hs hmissed
      refine mem_fieldUses_iff.mpr ⟨s', hs', decide_eq_decide.mpr htarget, ?_⟩
      exact huse.imp_right fun h => ⟨h.1, fun hi => hs.free (.introduced hi), h.2⟩
    · exact hs.mem_fieldUses hmissed

end Uses

namespace Project

def AllSeen (p : Project) : Prop :=
  ∀ d q f t m, p.Finds d q f t m → q.tree.AllSeen d m.body.fieldUses

/-- Which accesses to fields are found in the methods of a project. -/
structure Notices (p : Project) : Prop where
  found : ∀ d f, p.Holds d f → ∀ q ∈ d.members, q.tree.kind.isCallable → ∃ t m, p.Finds d q f t m
  seen : ∀ d q f t m, p.Finds d q f t m → ∀ s : Spot, s.Mentions d q.tree →
    ¬ s.IsMissed q.tree → ⟨s.tree.text, s.IsTarget⟩ ∈ m.body.fieldUses
  uses_iff : ∀ d q f t m, p.Finds d q f t m → ∀ x w, ⟨x, w⟩ ∈ m.body.fieldUses ↔
    ∃ s ∈ q.tree.spots, w = decide s.IsTarget ∧
      (s.own? = some x ∨ s.bare? = some x ∧ ¬ q.tree.Introduces x ∧ ¬ q.tree.Encloses x)
  all_iff : ∀ d q f t m, p.Finds d q f t m → (q.tree.AllSeen d m.body.fieldUses ↔
    ∀ s : Spot, s.Mentions d q.tree → s.IsMissed q.tree →
      ∃ s' ∈ q.tree.spots, (s.IsTarget ↔ s'.IsTarget) ∧ (s'.own? = some s.tree.text ∨
        s'.bare? = some s.tree.text ∧ ¬ q.tree.Encloses s.tree.text))

theorem notices_project (p : Project) : p.Notices where
  found d f h q hq hc := exists_finds h hq hc
  seen d q f t m h s hs hmissed := by
    obtain ⟨-, found, rfl⟩ := h.reflects
    exact hs.mem_fieldUses hmissed
  uses_iff d q f t m h x w := by
    obtain ⟨-, found, rfl⟩ := h.reflects
    exact mem_fieldUses_iff
  all_iff d q f t m h := by
    obtain ⟨-, found, rfl⟩ := h.reflects
    exact allSeen_iff

def assigned : Project :=
  ⟨Tree.ofSource?, "app", [("A.java", "class A \x7b int n; void f() \x7b n = 1; \x7d \x7d")]⟩

/-- A method without types inside assigns to a name that it declares nowhere. -/
def AssignsTo (u : Tree) (x : String) : Prop :=
  (u.Explicit ∧ x ∉ u.hidden ∧ ∀ s ∈ u.spots, s.tree.kind.isTypeBody = false) ∧
    ∃ s ∈ u.spots, (s.tree.kind = .identifier ∧ s.tree.role = some .left ∧
      s.parent = .assignmentExpression) ∧ s.tree.text = x

instance (u : Tree) (x : String) : Decidable (AssignsTo u x) :=
  inferInstanceAs (Decidable (_ ∧ _))

theorem notices_assigned : assigned.Notices ∧ ∃ d q f t m, assigned.Finds d q f t m ∧
    ∃ s : Spot, s.Mentions d q.tree ∧ ¬s.IsMissed q.tree ∧ s.IsTarget ∧
      ⟨"n", true⟩ ∈ m.body.fieldUses := by
  have hnotices := notices_project assigned
  obtain ⟨source, hsource, unit, hunit, d, hd, htype, q, hq, hc, hassigns⟩ :
      ∃ source ∈ assigned.sources, ∃ unit ∈ assigned.parser source.2,
        ∃ d ∈ unit.children, d.IsType ∧ ∃ q ∈ d.members, q.tree.kind.isCallable ∧
          AssignsTo q.tree "n" := by
    decide +kernel
  obtain ⟨⟨hexplicit, hn, hplain⟩, s, hs, ⟨hk, hrole, hparent⟩, htext⟩ := hassigns
  obtain ⟨t, m, hfinds⟩ :=
    hnotices.found d _ ⟨source, hsource, unit, hunit, .here hd htype, rfl⟩ q hq hc
  rw [← htext, Tree.mem_hidden_iff, not_or] at hn
  have hmentions : s.Mentions d q.tree :=
    ⟨Tree.spotsOutside_subset hplain hs, ⟨hk, by simp [hrole], by simp [hparent]⟩,
      fun hx => hn.1 (hexplicit.introduces hx)⟩
  have hmissed : ¬s.IsMissed q.tree := by
    rintro (h | h | h)
    · exact h hs
    · simp [hparent, Spot.overlooking] at h
    · exact hn.2 h
  have htarget : s.IsTarget := .inl ⟨hparent, hrole⟩
  have huse := hnotices.seen d q _ t m hfinds s hmentions hmissed
  refine ⟨hnotices, d, q, _, t, m, hfinds, s, hmentions, hmissed, htarget, ?_⟩
  rwa [htext, decide_eq_true htarget] at huse

def onlyOverlooked : Project :=
  ⟨Tree.ofSource?, "app", [("A.java", "class A \x7b int[] items; int n; void f() \x7b " ++
    "for (int i : items) \x7b\x7d g(() -> n); h(items::clone); \x7d \x7d")]⟩

/-- The loops of a method go through a field that stands for a value nowhere in it. -/
def LosesIterable (u : Tree) : Prop :=
  u.kind ≠ .compactConstructorDeclaration ∧ ∃ s ∈ u.spotsOutside Kind.isTypeBody,
    (s.tree.kind = .identifier ∧ s.tree.role = none ∧ s.parent = .enhancedForStatement) ∧
      s.tree.text ∉ u.hidden ∧
        ∀ s' ∈ u.spots, s'.own? ≠ some s.tree.text ∧ s'.bare? ≠ some s.tree.text

instance (u : Tree) : Decidable (LosesIterable u) := inferInstanceAs (Decidable (_ ∧ _))

theorem not_allSeen_onlyOverlooked : ¬ onlyOverlooked.AllSeen := by
  intro h
  obtain ⟨source, hsource, unit, hunit, d, hd, htype, q, hq, hc, hloses⟩ :
      ∃ source ∈ onlyOverlooked.sources, ∃ unit ∈ onlyOverlooked.parser source.2,
        ∃ d ∈ unit.children, d.IsType ∧ ∃ q ∈ d.members, q.tree.kind.isCallable ∧
          LosesIterable q.tree := by
    decide +kernel
  obtain ⟨hplain, s, hs, ⟨hk, hrole, hparent⟩, hhidden, hunused⟩ := hloses
  obtain ⟨t, m, hfinds⟩ :=
    exists_finds ⟨source, hsource, unit, hunit, .here hd htype, rfl⟩ hq hc
  have hmentions : s.Mentions d q.tree := by
    refine ⟨hs, ⟨hk, by simp [hrole], by simp [hparent]⟩, fun hx => ?_⟩
    cases hx with
    | introduced hi => exact hhidden (Tree.mem_hidden_iff.mpr (.inl hi))
    | component hcompact _ => exact hplain hcompact
    | bound hs' hb hx => exact (hunused _ hs').2 (hx ▸ hb.bare?)
  have huse := h d q _ t m hfinds s hmentions
  obtain ⟨-, found, rfl⟩ := hfinds.reflects
  obtain ⟨s', hs', -, hown | hbare⟩ := mem_fieldUses_iff.mp huse
  · exact (hunused s' hs').1 hown
  · exact (hunused s' hs').2 hbare.1

end Project

end Lineage.Java
