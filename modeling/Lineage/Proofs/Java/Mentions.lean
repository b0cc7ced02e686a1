import Lineage.Proofs.Java.Contents
/-! # Names in bodies

What a body reads and writes is told place by place: an access to a field of the object itself always
counts, and a bare name counts where it stands for a value, unless it is hidden by a name that is
declared somewhere in the method. Main statements: `usesOf_method`, `mem_hidden_iff`.
-/
namespace Lineage.Java

/-- A tree of a body where it stands: the kind of its parent, and the trees before it there, the
nearest first. -/
structure Spot extends Placed where
  parent : Kind

open Extract

/-! ## Places in a body -/

namespace Tree

mutual

/-- The trees in a tree from the outside in. What stands in nodes of a closed kind is left out, and
so is the name of an accessed field. -/
def spotsIn (closed : Kind → Bool) (parent : Kind) (before : List Tree) : Tree → List Spot
  | .node k r text a b cs =>
    if closed k then []
    else ⟨⟨before, .node k r text a b cs⟩, parent⟩ ::
      if k = .identifier then [] else spotsOf closed k [] cs

def spotsOf (closed : Kind → Bool) (parent : Kind) (before : List Tree) : List Tree → List Spot
  | [] => []
  | t :: ts =>
    (if isVisited parent t.role then spotsIn closed parent before t else []) ++
      spotsOf closed parent (t :: before) ts

end

end Tree

namespace Spot

def IsTarget (s : Spot) : Prop :=
  s.parent = .assignmentExpression ∧ s.tree.role = some .left ∨ s.parent = .updateExpression

instance (s : Spot) : Decidable s.IsTarget := inferInstanceAs (Decidable (_ ∨ _))

/-- The field of the object itself that is accessed here. -/
def own? (s : Spot) : Option String :=
  if s.tree.kind = .fieldAccess ∧ (s.tree.child? .object).any (·.kind = .this) then
    (s.tree.child? .field).map Tree.text
  else none

/-- The bare name that stands for a value here. -/
def bare? (s : Spot) : Option String :=
  if s.tree.kind = .identifier ∧ isValue s.parent s.tree.role then some s.tree.text else none

def ownUses (s : Spot) : List FieldUse := s.own?.toList.map (⟨·, s.IsTarget⟩)

def bareUses (s : Spot) : List FieldUse := s.bare?.toList.map (⟨·, s.IsTarget⟩)

theorem isWrite_eq (s : Spot) : isWrite s.parent s.tree.role = decide s.IsTarget := by
  obtain ⟨p, parent⟩ := s
  cases parent <;> simp [isWrite, IsTarget]

end Spot

def usesOf (x : String) (us : List FieldUse) : List FieldUse := us.filter (·.name = x)

@[simp] theorem usesOf_nil (x : String) : usesOf x [] = [] := rfl

theorem usesOf_flatMap (x : String) (f : Spot → List FieldUse) (ss : List Spot) :
    usesOf x (ss.flatMap f) = ss.flatMap fun s => usesOf x (f s) := by
  simp [usesOf, List.filter_flatMap]

namespace Extract

@[simp] theorem fieldUses_append (a b : BodyFacts) :
    (a ++ b).fieldUses = a.fieldUses ++ b.fieldUses := rfl

@[simp] theorem fieldUses_empty : ({} : BodyFacts).fieldUses = [] := rfl

/-- What one place says, apart from those inside of it. -/
theorem fieldUses_ownFacts (names : List String) (s : Spot) :
    (ownFacts names s.parent s.tree).fieldUses =
      s.ownUses ++ s.bareUses.filter (·.name ∉ names) := by
  have hplain : s.tree.kind ≠ .fieldAccess → s.tree.kind ≠ .identifier →
      s.ownUses ++ s.bareUses.filter (·.name ∉ names) = [] := by
    intro haccess hidentifier
    simp [Spot.ownUses, Spot.bareUses, Spot.own?, Spot.bare?, haccess, hidentifier]
  unfold ownFacts
  split
  · rename_i hk
    exact (hplain (by simp [hk]) (by simp [hk])).symm
  · rename_i hk
    exact (hplain (by simp [hk]) (by simp [hk])).symm
  · rename_i hk
    have hbare : s.bareUses = [] := by simp [Spot.bareUses, Spot.bare?, hk]
    rw [hbare, List.filter_nil, List.append_nil, Spot.ownUses, Spot.own?]
    by_cases hthis : (s.tree.child? .object).any (·.kind = .this)
    · cases s.tree.child? .field <;> simp [hk, hthis, s.isWrite_eq]
    · simp [hthis]
  · rename_i hk
    have hown : s.ownUses = [] := by simp [Spot.ownUses, Spot.own?, hk]
    rw [hown, List.nil_append, Spot.bareUses, Spot.bare?]
    by_cases hvalue : isValue s.parent s.tree.role
    · by_cases hname : s.tree.text ∈ names <;> simp [hk, hvalue, hname, s.isWrite_eq]
    · simp [hvalue]
  · exact (hplain ‹_› ‹_›).symm

mutual

theorem fieldUses_bodyFacts (names : List String) (parent : Kind) (before : List Tree) :
    ∀ t, (bodyFacts names parent t).fieldUses =
      (Tree.spotsIn isNestedType parent before t).flatMap fun s =>
        s.ownUses ++ s.bareUses.filter (·.name ∉ names)
  | .node k r text a b cs => by
    have hown := fieldUses_ownFacts names ⟨⟨before, .node k r text a b cs⟩, parent⟩
    unfold bodyFacts Tree.spotsIn
    split
    · rfl
    · split
      · simpa using hown
      · rw [fieldUses_append, List.flatMap_cons, hown, fieldUses_bodyFactsOfAll names k [] cs]

theorem fieldUses_bodyFactsOfAll (names : List String) (parent : Kind) (before : List Tree) :
    ∀ ts, (bodyFactsOfAll names parent ts).fieldUses =
      (Tree.spotsOf isNestedType parent before ts).flatMap fun s =>
        s.ownUses ++ s.bareUses.filter (·.name ∉ names)
  | [] => rfl
  | t :: ts => by
    unfold bodyFactsOfAll Tree.spotsOf
    rw [fieldUses_append, List.flatMap_append,
      fieldUses_bodyFactsOfAll names parent (t :: before) ts]
    split
    · rw [fieldUses_bodyFacts names parent before t]
    · rfl

end

end Extract

/-! ## Names that hide fields -/

namespace Tree

/-- Trees at any depth, each with the kind of its parent. -/
inductive Holds (k : Kind) (b : Tree) : Kind → Tree → Prop
  | self : Holds k b k b
  | child {q : Kind} {t c : Tree} (h : Holds k b q t) (hc : c ∈ t.children) : Holds k b t.kind c

theorem Holds.of_child {k q : Kind} {b c t : Tree} (hc : c ∈ b.children)
    (h : c.Holds b.kind q t) : b.Holds k q t := by
  induction h with
  | self => exact .child .self hc
  | child _ hd ih => exact .child ih hd

theorem holds_iff {k q : Kind} {b t : Tree} :
    b.Holds k q t ↔ q = k ∧ t = b ∨ ∃ c ∈ b.children, c.Holds b.kind q t := by
  constructor
  · intro h
    induction h with
    | self => exact .inl ⟨rfl, rfl⟩
    | child h hc ih =>
      rcases ih with ⟨rfl, rfl⟩ | ⟨d, hd, ih⟩
      · exact .inr ⟨_, hc, .self⟩
      · exact .inr ⟨d, hd, .child ih hc⟩
  · rintro (⟨rfl, rfl⟩ | ⟨c, hc, h⟩)
    · exact .self
    · exact .of_child hc h

/-- A node declares a name that hides fields. -/
def Names (t : Tree) (x : String) : Prop := declaredName? t = some x ∨ x ∈ lambdaNames t

end Tree

namespace Extract

mutual

theorem mem_locals_iff {x : String} (k : Kind) :
    ∀ b, x ∈ locals b ↔ ∃ q t, b.Holds k q t ∧ t.Names x
  | .node k' r text a b cs => by
    rw [locals, List.mem_append, List.mem_append, mem_localsOfAll_iff k' cs, Option.mem_toList]
    constructor
    · rintro ((h | h) | ⟨q, t, c, hc, h, ht⟩)
      · exact ⟨k, _, .self, .inl h⟩
      · exact ⟨k, _, .self, .inr h⟩
      · exact ⟨q, t, .of_child hc h, ht⟩
    · rintro ⟨q, t, h, ht⟩
      rcases Tree.holds_iff.mp h with ⟨-, rfl⟩ | ⟨c, hc, h⟩
      · exact .inl ht
      · exact .inr ⟨q, t, c, hc, h, ht⟩

theorem mem_localsOfAll_iff {x : String} (k : Kind) :
    ∀ cs, x ∈ localsOfAll cs ↔ ∃ q t, ∃ c ∈ cs, c.Holds k q t ∧ t.Names x
  | [] => by simp [localsOfAll]
  | c :: cs => by
    rw [localsOfAll, List.mem_append, mem_locals_iff k c, mem_localsOfAll_iff k cs]
    simp only [List.mem_cons, exists_eq_or_imp, exists_or]

end

end Extract

namespace Tree

def parameterNames (u : Tree) : List String := u.parameters.flatMap paramNames

def spotsOutside (closed : Kind → Bool) (u : Tree) : List Spot :=
  ((u.child? .body).map (spotsIn closed u.kind [])).getD []

def spots (u : Tree) : List Spot := u.spotsOutside isNestedType

/-- The names that hide fields in the body of a method. -/
def hidden (u : Tree) : List String :=
  u.parameterNames ++ ((u.child? .body).map locals).getD []

def BodyHolds (u : Tree) (q : Kind) (t : Tree) : Prop :=
  ∃ b, u.child? .body = some b ∧ b.Holds u.kind q t

/-- A tree declares a variable; `q` is the kind of its parent. -/
inductive Declares (q : Kind) (t : Tree) (x : String) : Prop
  | variable (hk : t.kind = .variableDeclarator) (hq : ¬ q.isVariables) (hx : nameOf? t = some x)
  | caught (hk : t.kind = .catchFormalParameter) (hx : nameOf? t = some x)
  | element (hk : t.kind = .enhancedForStatement) (hx : nameOf? t = some x)
  | parameter (hk : t.kind = .lambdaExpression) (hx : x ∈ lambdaNames t)

/-- A parameter of a method, or a variable that is declared as such in its body. -/
def Introduces (u : Tree) (x : String) : Prop :=
  x ∈ u.parameterNames ∨ ∃ q t, u.BodyHolds q t ∧ t.Declares q x

def Encloses (u : Tree) (x : String) : Prop :=
  ∃ q t, u.BodyHolds q t ∧ t.kind = .variableDeclarator ∧ q.isVariables ∧ nameOf? t = some x

theorem names_iff (q : Kind) (t : Tree) (x : String) : t.Names x ↔
    t.Declares q x ∨ t.kind = .variableDeclarator ∧ q.isVariables ∧ nameOf? t = some x := by
  constructor
  · rintro (h | h)
    · unfold declaredName? at h
      split at h
      · rename_i hk
        by_cases hq : q.isVariables
        · exact .inr ⟨hk, hq, h⟩
        · exact .inl (.variable hk hq h)
      · exact .inl (.caught ‹_› h)
      · exact .inl (.element ‹_› h)
      · cases h
    · by_cases hk : t.kind = .lambdaExpression
      · exact .inl (.parameter hk h)
      · simp [lambdaNames, hk] at h
  · rintro ((⟨hk, -, hx⟩ | ⟨hk, hx⟩ | ⟨hk, hx⟩ | ⟨hk, hx⟩) | ⟨hk, -, hx⟩)
    · exact .inl (by rwa [declaredName?, hk])
    · exact .inl (by rwa [declaredName?, hk])
    · exact .inl (by rwa [declaredName?, hk])
    · exact .inr hx
    · exact .inl (by rwa [declaredName?, hk])

theorem mem_hidden_iff {u : Tree} {x : String} :
    x ∈ u.hidden ↔ u.Introduces x ∨ u.Encloses x := by
  rw [hidden, List.mem_append, Introduces, or_assoc]
  refine or_congr_right ?_
  cases hb : u.child? .body with
  | none => simp [BodyHolds, Encloses, hb]
  | some b =>
    have hholds : ∀ q t, u.BodyHolds q t ↔ b.Holds u.kind q t := by simp [BodyHolds, hb]
    simp only [Option.map_some, Option.getD_some, mem_locals_iff u.kind b, Encloses, hholds]
    constructor
    · rintro ⟨q, t, h, ht⟩
      exact ((names_iff q t x).mp ht).imp (⟨q, t, h, ·⟩) (⟨q, t, h, ·⟩)
    · rintro (⟨q, t, h, ht⟩ | ⟨q, t, h, ht⟩)
      · exact ⟨q, t, h, (names_iff q t x).mpr (.inl ht)⟩
      · exact ⟨q, t, h, (names_iff q t x).mpr (.inr ht)⟩

end Tree

/-- A method's uses of a name: a bare name counts unless it is hidden. -/
theorem usesOf_method (before : List Tree) (ownerName : String) (found : List FieldFacts) (u : Tree)
    (x : String) : usesOf x (method before ownerName found u).body.fieldUses =
      u.spots.flatMap fun s =>
        usesOf x s.ownUses ++ if x ∈ u.hidden then [] else usesOf x s.bareUses := by
  have hfilter : ∀ us : List FieldUse, usesOf x (us.filter (·.name ∉ u.hidden)) =
      if x ∈ u.hidden then [] else usesOf x us := by
    intro us
    unfold usesOf
    rw [List.filter_filter]
    split
    · rename_i hx
      refine List.filter_eq_nil_iff.mpr fun a _ ha => ?_
      obtain ⟨rfl, hnew⟩ : a.name = x ∧ a.name ∉ u.hidden := by simpa using ha
      exact hnew hx
    · rename_i hx
      refine List.filter_congr fun a _ => ?_
      by_cases ha : a.name = x
      · simp [ha, hx]
      · simp [ha]
  cases hb : u.child? .body with
  | none => simp [method, Tree.spots, Tree.spotsOutside, hb]
  | some b =>
    have hspots : u.spots = b.spotsIn isNestedType u.kind [] := by
      simp [Tree.spots, Tree.spotsOutside, hb]
    have huses : (method before ownerName found u).body.fieldUses =
        u.spots.flatMap fun s => s.ownUses ++ s.bareUses.filter (·.name ∉ u.hidden) := by
      rw [hspots, ← fieldUses_bodyFacts u.hidden u.kind [] b]
      simp [method, Tree.hidden, Tree.parameterNames, Tree.parameters, hb]
    rw [huses, usesOf_flatMap]
    refine congrArg u.spots.flatMap (funext fun s => ?_)
    rw [← hfilter]
    exact List.filter_append ..

end Lineage.Java
