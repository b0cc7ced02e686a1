import Lineage.Java.Extract
import Mathlib.Data.List.Forall2
/-! # What type declarations contain

The types of a file are the type declarations of its source, each with the fields and methods among
its own members, in the order in which they are written. A member is told by its own tree, except
for a constructor without parameters of its own: it takes the fields that are found before it. Each
type follows the type around it. Main statements: `reflecting_ofSource`, `outerFirst_ofSource`.
-/
namespace Lineage.Java

/-- A tree and the trees before it, the nearest first. -/
structure Placed where
  before : List Tree
  tree : Tree

namespace Tree

mutual

def membersIn (before : List Tree) : Tree → List Placed
  | .node k r text a b cs =>
    if k = .enumBodyDeclarations then membersOf [] cs else [⟨before, .node k r text a b cs⟩]

def membersOf (before : List Tree) : List Tree → List Placed
  | [] => []
  | t :: ts => membersIn before t ++ membersOf (t :: before) ts

end

def bodyMembers (c : Tree) : List Placed :=
  if c.role = some .body then membersOf [] c.children else []

/-- What stands in the body of a type declaration, also behind the constants of an enum. -/
def members (t : Tree) : List Placed := t.children.flatMap bodyMembers

def IsType (t : Tree) : Prop :=
  (TypeKind.ofKind? t.kind).isSome ∧ (Extract.nameOf? t).isSome

instance (t : Tree) : Decidable t.IsType := inferInstanceAs (Decidable (_ ∧ _))

def parameters (t : Tree) : List Tree := ((t.child? .parameters).map named).getD []

def components (t : Tree) : List FieldFacts :=
  if t.kind = .recordDeclaration then t.parameters.filterMap Extract.recordComponent? else []

end Tree

def Kind.isCallable : Kind → Bool
  | .methodDeclaration | .constructorDeclaration | .compactConstructorDeclaration => true
  | _ => false

def Tree.callables (d : Tree) : List Placed := d.members.filter (·.tree.kind.isCallable)

def Kind.isVariables : Kind → Bool
  | .fieldDeclaration | .constantDeclaration => true
  | _ => false

namespace Extract

def fieldsIn (m : Placed) : List FieldFacts :=
  if m.tree.kind.isVariables then fields m.tree else []

def fieldsOf (ms : List Placed) : List FieldFacts := ms.flatMap fieldsIn

def methodsIn (ownerName : String) (found : List FieldFacts) (m : Placed) : List MethodFacts :=
  if m.tree.kind.isCallable then [method m.before ownerName found m.tree] else []

/-- The methods among members, given the fields found before them. -/
def methodsOf (ownerName : String) : List FieldFacts → List Placed → List MethodFacts
  | _, [] => []
  | found, m :: ms => methodsIn ownerName found m ++ methodsOf ownerName (found ++ fieldsIn m) ms

@[simp] theorem fieldsOf_nil : fieldsOf [] = [] := rfl

@[simp] theorem fieldsOf_append (ms ms' : List Placed) :
    fieldsOf (ms ++ ms') = fieldsOf ms ++ fieldsOf ms' := List.flatMap_append

theorem methodsOf_append (ownerName : String) (found : List FieldFacts) (ms ms' : List Placed) :
    methodsOf ownerName found (ms ++ ms') =
      methodsOf ownerName found ms ++ methodsOf ownerName (found ++ fieldsOf ms) ms' := by
  induction ms generalizing found with
  | nil => simp [methodsOf]
  | cons m ms ih =>
    rw [List.cons_append, methodsOf, ih, methodsOf, List.append_assoc, List.append_assoc]
    rfl

/-- A method comes from a member, given the fields of the members before it. -/
theorem mem_methodsOf_iff {ownerName : String} {found : List FieldFacts} {ms : List Placed}
    {m : MethodFacts} : m ∈ methodsOf ownerName found ms ↔ ∃ init p rest, ms = init ++ p :: rest ∧
      p.tree.kind.isCallable ∧ m = method p.before ownerName (found ++ fieldsOf init) p.tree := by
  constructor
  · intro h
    induction ms generalizing found with
    | nil => cases h
    | cons q ms ih =>
      rcases List.mem_append.mp h with h | h
      · unfold methodsIn at h
        split at h
        · rename_i hq
          exact ⟨[], q, ms, rfl, hq, by simpa using h⟩
        · cases h
      · obtain ⟨init, p, rest, rfl, hp, rfl⟩ := ih h
        refine ⟨q :: init, p, rest, rfl, hp, ?_⟩
        rw [List.append_assoc]
        rfl
  · rintro ⟨init, p, rest, rfl, hp, rfl⟩
    rw [methodsOf_append]
    refine List.mem_append_right _ (List.mem_append_left _ ?_)
    simp [methodsIn, hp]

theorem forall₂_methodsOf_iff {ownerName : String} {R : Placed → MethodFacts → Prop}
    {found : List FieldFacts} {ms : List Placed} :
    List.Forall₂ R (ms.filter (·.tree.kind.isCallable)) (methodsOf ownerName found ms) ↔
      ∀ init p rest, ms = init ++ p :: rest → p.tree.kind.isCallable →
        R p (method p.before ownerName (found ++ fieldsOf init) p.tree) := by
  -- general in the fields found before, as each member adds its own to them
  induction ms generalizing found with
  | nil => exact ⟨fun _ init p rest h => by simp at h, fun _ => .nil⟩
  | cons q ms ih =>
    have hrest : (∀ init p rest, ms = init ++ p :: rest → p.tree.kind.isCallable →
        R p (method p.before ownerName (found ++ fieldsIn q ++ fieldsOf init) p.tree)) ↔
          ∀ init p rest, q :: ms = q :: init ++ p :: rest → p.tree.kind.isCallable →
            R p (method p.before ownerName (found ++ fieldsOf (q :: init)) p.tree) := by
      simp only [List.cons_append, List.cons.injEq, true_and, List.append_assoc]
      rfl
    have hall : List.Forall₂ R ((q :: ms).filter (·.tree.kind.isCallable))
        (methodsOf ownerName found (q :: ms)) ↔
          (q.tree.kind.isCallable → R q (method q.before ownerName found q.tree)) ∧
            List.Forall₂ R (ms.filter (·.tree.kind.isCallable))
              (methodsOf ownerName (found ++ fieldsIn q) ms) := by
      by_cases hq : q.tree.kind.isCallable <;> simp [methodsOf, methodsIn, hq]
    rw [hall, ih, hrest]
    constructor
    · rintro ⟨hfirst, hrest⟩ init p rest hsplit hp
      cases init with
      | nil =>
        obtain ⟨rfl, rfl⟩ := List.cons.inj hsplit
        simpa using hfirst hp
      | cons q' init =>
        obtain ⟨rfl, -⟩ := List.cons.inj hsplit
        exact hrest init p rest hsplit hp
    · intro h
      exact ⟨fun hq => by simpa using h [] q ms rfl hq, fun init => h (q :: init)⟩

end Extract

open Extract

/-! ## Types with their members -/

/-- A method is told by a member of its type, given the fields that are found before it. -/
def MethodFacts.Reflects (m : MethodFacts) (t : TypeFacts) (p : Placed) : Prop :=
  p.tree.kind.isCallable ∧ ∃ found, m = method p.before t.name found p.tree

namespace TypeFacts

def fill (ms : List Placed) (t : TypeFacts) : TypeFacts :=
  { t with fields := t.fields ++ fieldsOf ms, methods := t.methods ++ methodsOf t.name t.fields ms }

/-- A type is told by its declaration and by all its members. -/
structure Reflects (t : TypeFacts) (d : Tree) : Prop where
  kind : TypeKind.ofKind? d.kind = some t.kind
  name : nameOf? d = some t.name
  fields : t.fields = d.components ++ fieldsOf d.members
  methods : t.methods = methodsOf t.name d.components d.members

theorem Reflects.forall₂_methods_iff {t : TypeFacts} {d : Tree} (h : t.Reflects d)
    {R : Placed → MethodFacts → Prop} : List.Forall₂ R d.callables t.methods ↔
      ∀ init p rest, d.members = init ++ p :: rest → p.tree.kind.isCallable →
        R p (method p.before t.name (d.components ++ fieldsOf init) p.tree) := by
  rw [h.methods]
  exact forall₂_methodsOf_iff

theorem Reflects.exists_method {t : TypeFacts} {d : Tree} (h : t.Reflects d) {p : Placed}
    (hp : p ∈ d.members) (hc : p.tree.kind.isCallable) : ∃ m ∈ t.methods, m.Reflects t p := by
  obtain ⟨init, rest, hsplit⟩ := List.append_of_mem hp
  rw [h.methods]
  exact ⟨_, mem_methodsOf_iff.mpr ⟨init, p, rest, hsplit, hc, rfl⟩, hc, _, rfl⟩

theorem Reflects.exists_member {t : TypeFacts} {d : Tree} (h : t.Reflects d) {m : MethodFacts}
    (hm : m ∈ t.methods) : ∃ p ∈ d.members, m.Reflects t p := by
  rw [h.methods] at hm
  obtain ⟨init, p, rest, hsplit, hc, rfl⟩ := mem_methodsOf_iff.mp hm
  exact ⟨p, hsplit ▸ List.mem_append_right _ List.mem_cons_self, hc, _, rfl⟩

theorem fill_eq_self {ms : List Placed}
    (h : ∀ m ∈ ms, ¬ m.tree.kind.isVariables ∧ ¬ m.tree.kind.isCallable) (t : TypeFacts) :
    t.fill ms = t := by
  have hfields : fieldsOf ms = [] := by
    refine List.flatMap_eq_nil_iff.mpr fun m hm => ?_
    simp [fieldsIn, (h m hm).1]
  have hmethods : methodsOf t.name t.fields ms = [] := by
    refine List.eq_nil_iff_forall_not_mem.mpr fun m hm => ?_
    obtain ⟨init, p, rest, rfl, hp, -⟩ := mem_methodsOf_iff.mp hm
    exact (h p (by simp)).2 hp
  simp [fill, hfields, hmethods]

theorem fill_append (ms ms' : List Placed) (t : TypeFacts) :
    t.fill (ms ++ ms') = (t.fill ms).fill ms' := by
  simp [fill, methodsOf_append, List.append_assoc]

end TypeFacts

/-- A type declaration among trees, or inside of one of them. -/
inductive Nested : List Tree → Tree → Prop
  | here {ts : List Tree} {t : Tree} (ht : t ∈ ts) (h : t.IsType) : Nested ts t
  | inner {ts : List Tree} {t d : Tree} (ht : t ∈ ts) (h : t.IsType)
    (hd : Nested (t.members.map Placed.tree) d) : Nested ts d

theorem Nested.mono {ts ts' : List Tree} {d : Tree} (h : Nested ts d) (hle : ts ⊆ ts') :
    Nested ts' d := by
  cases h with
  | here ht h => exact .here (hle ht) h
  | inner ht h hd => exact .inner (hle ht) h hd

theorem nested_append_iff {ts ts' : List Tree} {d : Tree} :
    Nested (ts ++ ts') d ↔ Nested ts d ∨ Nested ts' d := by
  constructor
  · intro h
    cases h with
    | here ht h => exact (List.mem_append.mp ht).imp (Nested.here · h) (Nested.here · h)
    | inner ht h hd =>
      exact (List.mem_append.mp ht).imp (Nested.inner · h hd) (Nested.inner · h hd)
  · rintro (h | h)
    · exact h.mono (List.subset_append_left ts ts')
    · exact h.mono (List.subset_append_right ts ts')

/-- Some types are those declared among some trees. -/
structure Reflecting (ts : List Tree) (types : List TypeFacts) : Prop where
  sound : ∀ t ∈ types, ∃ d, Nested ts d ∧ t.Reflects d
  complete : ∀ d, Nested ts d → ∃ t ∈ types, t.Reflects d

namespace Reflecting

theorem nil {ts : List Tree} (h : ∀ t ∈ ts, ¬ t.IsType) : Reflecting ts [] where
  sound := List.forall_mem_nil _
  complete d hd := by
    cases hd with
    | here ht hd => exact absurd hd (h _ ht)
    | inner ht hd _ => exact absurd hd (h _ ht)

theorem append {ts ts' : List Tree} {types types' : List TypeFacts} (h : Reflecting ts types)
    (h' : Reflecting ts' types') : Reflecting (ts ++ ts') (types ++ types') where
  sound t ht := by
    rcases List.mem_append.mp ht with ht | ht
    · obtain ⟨d, hd, htd⟩ := h.sound t ht
      exact ⟨d, nested_append_iff.mpr (.inl hd), htd⟩
    · obtain ⟨d, hd, htd⟩ := h'.sound t ht
      exact ⟨d, nested_append_iff.mpr (.inr hd), htd⟩
  complete d hd := by
    rcases nested_append_iff.mp hd with hd | hd
    · obtain ⟨t, ht, htd⟩ := h.complete d hd
      exact ⟨t, List.mem_append_left _ ht, htd⟩
    · obtain ⟨t, ht, htd⟩ := h'.complete d hd
      exact ⟨t, List.mem_append_right _ ht, htd⟩

theorem cons {d : Tree} {t : TypeFacts} {types : List TypeFacts} (hd : d.IsType)
    (ht : t.Reflects d) (h : Reflecting (d.members.map Placed.tree) types) :
    Reflecting [d] (t :: types) where
  sound u hu := by
    rcases List.mem_cons.mp hu with rfl | hu
    · exact ⟨d, .here List.mem_cons_self hd, ht⟩
    · obtain ⟨e, he, hue⟩ := h.sound u hu
      exact ⟨e, .inner List.mem_cons_self hd he, hue⟩
  complete e he := by
    cases he with
    | here hmem _ =>
      rw [List.mem_singleton.mp hmem]
      exact ⟨t, List.mem_cons_self, ht⟩
    | inner hmem _ he =>
      rw [List.mem_singleton.mp hmem] at he
      obtain ⟨u, hu, hue⟩ := h.complete e he
      exact ⟨u, List.mem_cons_of_mem _ hu, hue⟩

end Reflecting

/-- Every type follows the type around it; `n` types stand before all of them. -/
def OuterFirst : Nat → List TypeFacts → Prop
  | _, [] => True
  | n, t :: ts => (∀ i ∈ t.outer, i < n) ∧ OuterFirst (n + 1) ts

theorem OuterFirst.append {n : Nat} {types types' : List TypeFacts} (h : OuterFirst n types)
    (h' : OuterFirst (n + types.length) types') : OuterFirst n (types ++ types') := by
  induction types generalizing n with
  | nil => exact h'
  | cons t ts ih =>
    refine ⟨h.1, ih h.2 ?_⟩
    rwa [List.length_cons, Nat.add_comm ts.length, ← Nat.add_assoc] at h'

/-- A name behind what its full form begins with. -/
def qualified (qualifier : Option String) (name : String) : String :=
  match qualifier with
  | some q => q ++ "." ++ name
  | none => name

/-- The types that trees declare, each followed by those in its body; `n` types stand before them. -/
inductive Listing : Option Nat → Option String → Nat → List Tree → List TypeFacts → Prop
  | nil {outer : Option Nat} {qualifier : Option String} {n : Nat} : Listing outer qualifier n [] []
  | skip {outer : Option Nat} {qualifier : Option String} {n : Nat} {t : Tree} {ts : List Tree}
    {types : List TypeFacts} (ht : ¬t.IsType) (h : Listing outer qualifier n ts types) :
    Listing outer qualifier n (t :: ts) types
  | type {outer : Option Nat} {qualifier : Option String} {n : Nat} {d : Tree} {ts : List Tree}
    {t : TypeFacts} {inner types : List TypeFacts} (hd : d.IsType) (ht : t.Reflects d)
    (houter : t.outer = outer) (hname : t.qualifiedName = qualified qualifier t.name)
    (hinner : Listing (some n) (some t.qualifiedName) (n + 1) (d.members.map Placed.tree) inner)
    (h : Listing outer qualifier (n + 1 + inner.length) ts types) :
    Listing outer qualifier n (d :: ts) (t :: (inner ++ types))

namespace Listing

variable {outer : Option Nat} {qualifier : Option String} {n : Nat} {ts ts' : List Tree}
  {types types' : List TypeFacts}

theorem append (h : Listing outer qualifier n ts types)
    (h' : Listing outer qualifier (n + types.length) ts' types') :
    Listing outer qualifier n (ts ++ ts') (types ++ types') := by
  induction h with
  | nil => exact h'
  | skip ht _ ih => exact .skip ht (ih h')
  | @type _ _ n _ _ _ inner types hd ht houter hname hinner _ _ ih =>
    rw [List.cons_append, List.cons_append, List.append_assoc]
    refine .type hd ht houter hname hinner (ih ?_)
    have hlen : n + 1 + inner.length + types.length = n + (inner ++ types).length + 1 := by
      rw [List.length_append]
      omega
    rw [hlen]
    exact h'

theorem reflecting (h : Listing outer qualifier n ts types) : Reflecting ts types := by
  induction h with
  | nil => exact .nil (List.forall_mem_nil _)
  | skip ht _ ih => exact (Reflecting.nil (List.forall_mem_singleton.mpr ht)).append ih
  | type hd ht _ _ _ _ ihinner ih => exact (Reflecting.cons hd ht ihinner).append ih

theorem outerFirst (h : Listing outer qualifier n ts types) (hn : ∀ i ∈ outer, i < n) :
    OuterFirst n types := by
  induction h with
  | nil => trivial
  | skip _ _ ih => exact ih hn
  | type _ _ houter _ _ _ ihinner ih =>
    refine ⟨houter ▸ hn, (ihinner ?_).append (ih fun i hi => ?_)⟩
    · rintro i ⟨⟩
      exact Nat.lt_succ_self _
    · have hlt := hn i hi
      omega

end Listing

/-! ## Reading declarations -/

namespace Extract

/-- The types, of which the one around has further members. -/
def fillAt (owner : Option Nat) (ms : List Placed) (types : List TypeFacts) : List TypeFacts :=
  owner.elim types fun i => types.modify i (TypeFacts.fill ms)

def Scope.Stands (scope : Scope) (types : List TypeFacts) : Prop :=
  ∀ i ∈ scope.owner, ∃ t, types[i]? = some t ∧ t.name = scope.ownerName

/-- Members are added to the type around them, and their own types at the end. -/
def Grows (scope : Scope) (ms : List Placed) (types types' : List TypeFacts) : Prop :=
  ∃ new, types' = fillAt scope.owner ms types ++ new ∧
    Listing scope.owner scope.qualifier types.length (ms.map Placed.tree) new

variable {scope : Scope} {types types' types'' : List TypeFacts} {ms ms' : List Placed}

theorem length_fillAt (owner : Option Nat) (ms : List Placed) (types : List TypeFacts) :
    (fillAt owner ms types).length = types.length := by
  cases owner with
  | none => rfl
  | some i => exact List.length_modify _ _ _

theorem fillAt_append_right (h : scope.Stands types) (ms : List Placed) (new : List TypeFacts) :
    fillAt scope.owner ms (types ++ new) = fillAt scope.owner ms types ++ new := by
  cases howner : scope.owner with
  | none => rfl
  | some i =>
    obtain ⟨t, ht, -⟩ := h i howner
    have hi := (List.getElem?_eq_some_iff.mp ht).1
    refine List.ext_getElem? fun j => ?_
    simp only [fillAt, Option.elim_some, List.getElem?_append, List.getElem?_modify,
      List.length_modify]
    by_cases hj : j < types.length
    · simp [hj]
    · have hne : i ≠ j := by omega
      simp [hj, hne]

theorem fillAt_fillAt (owner : Option Nat) (ms ms' : List Placed) (types : List TypeFacts) :
    fillAt owner ms' (fillAt owner ms types) = fillAt owner (ms ++ ms') types := by
  cases owner with
  | none => rfl
  | some i =>
    simp only [fillAt, Option.elim_some, List.modify_modify_eq]
    refine congrArg (types.modify i) (funext fun t => ?_)
    exact (TypeFacts.fill_append ms ms' t).symm

theorem fillAt_eq_self (h : ∀ m ∈ ms, ¬ m.tree.kind.isVariables ∧ ¬ m.tree.kind.isCallable)
    (owner : Option Nat) (types : List TypeFacts) : fillAt owner ms types = types := by
  cases owner with
  | none => rfl
  | some i =>
    have hid : TypeFacts.fill ms = id := funext (TypeFacts.fill_eq_self h)
    rw [fillAt, Option.elim_some, hid, List.modify_id]

theorem Scope.Stands.fillAt (h : scope.Stands types) (ms : List Placed) (new : List TypeFacts) :
    scope.Stands (Extract.fillAt scope.owner ms types ++ new) := by
  intro i hi
  obtain ⟨t, ht, hname⟩ := h i hi
  have howner : scope.owner = some i := hi
  have hlt := (List.getElem?_eq_some_iff.mp ht).1
  refine ⟨t.fill ms, ?_, hname⟩
  rw [howner, Extract.fillAt, Option.elim_some, List.getElem?_append_left (by simpa using hlt),
    List.getElem?_modify_eq, ht]
  rfl

theorem Grows.nil (scope : Scope) (types : List TypeFacts) : Grows scope [] types types :=
  ⟨[], by rw [fillAt_eq_self (List.forall_mem_nil _), List.append_nil], .nil⟩

theorem Grows.stands (h : Grows scope ms types types') (hs : scope.Stands types) :
    scope.Stands types' := by
  obtain ⟨new, rfl, -⟩ := h
  exact hs.fillAt ms new

theorem Grows.trans (hs : scope.Stands types) (h : Grows scope ms types types')
    (h' : Grows scope ms' types' types'') : Grows scope (ms ++ ms') types types'' := by
  obtain ⟨new, rfl, hnew⟩ := h
  obtain ⟨new', rfl, hnew'⟩ := h'
  have hs' := hs.fillAt ms []
  rw [List.append_nil] at hs'
  rw [List.length_append, length_fillAt] at hnew'
  refine ⟨new ++ new', ?_, ?_⟩
  · rw [fillAt_append_right hs', fillAt_fillAt, List.append_assoc]
  · rw [List.map_append]
    exact hnew.append hnew'

theorem fill_singleton_callable {t : Tree} (ht : t.kind.isCallable) (before : List Tree)
    (o : TypeFacts) : o.fill [⟨before, t⟩] =
      { o with methods := o.methods ++ [method before o.name o.fields t] } := by
  have hvariables : t.kind.isVariables = false := by
    revert ht
    cases t.kind <;> simp [Kind.isCallable, Kind.isVariables]
  simp [TypeFacts.fill, methodsOf, methodsIn, fieldsOf, fieldsIn, ht, hvariables]

theorem fill_singleton_variables {t : Tree} (ht : t.kind.isVariables) (before : List Tree)
    (o : TypeFacts) : o.fill [⟨before, t⟩] = { o with fields := o.fields ++ fields t } := by
  have hcallable : t.kind.isCallable = false := by
    revert ht
    cases t.kind <;> simp [Kind.isCallable, Kind.isVariables]
  simp [TypeFacts.fill, methodsOf, methodsIn, fieldsOf, fieldsIn, ht, hcallable]

theorem addOwn_eq (h : scope.Stands types) (before : List Tree) (t : Tree) :
    addOwn scope before types t = fillAt scope.owner [⟨before, t⟩] types := by
  unfold addOwn
  cases howner : scope.owner with
  | none => rfl
  | some i =>
    obtain ⟨o, ho, hname⟩ := h i howner
    have hcallable : t.kind.isCallable →
        addMethod i (method before scope.ownerName (((types[i]?).map (·.fields)).getD []) t) types =
          fillAt (some i) [⟨before, t⟩] types := by
      intro ht
      refine List.ext_getElem? fun j => ?_
      rw [addMethod, fillAt, Option.elim_some, List.getElem?_modify, List.getElem?_modify]
      by_cases hj : i = j
      · subst hj
        simp [ho, fill_singleton_callable ht, hname]
      · simp [hj]
    have hvariables : t.kind.isVariables →
        addFields i (fields t) types = fillAt (some i) [⟨before, t⟩] types := by
      intro ht
      rw [addFields, fillAt, Option.elim_some]
      exact congrArg (types.modify i) (funext fun o => (fill_singleton_variables ht before o).symm)
    dsimp only
    split
    · exact hcallable (by simp [*, Kind.isCallable])
    · exact hcallable (by simp [*, Kind.isCallable])
    · exact hcallable (by simp [*, Kind.isCallable])
    · exact hvariables (by simp [*, Kind.isVariables])
    · exact hvariables (by simp [*, Kind.isVariables])
    · refine (fillAt_eq_self (fun m hm => ?_) _ _).symm
      rw [List.mem_singleton.mp hm]
      cases hk : t.kind <;> simp_all [Kind.isCallable, Kind.isVariables]

theorem components_typeFacts (before : List Tree) (qualifier : Option String) (outer : Option Nat)
    {kind : TypeKind} (name : String) {t : Tree} (hkind : TypeKind.ofKind? t.kind = some kind) :
    (typeFacts before qualifier outer kind name t).fields = t.components := by
  have hrecord : kind = .record ↔ t.kind = .recordDeclaration := by
    revert hkind
    cases t.kind <;> simp [TypeKind.ofKind?] <;> rintro rfl <;> simp
  simp [typeFacts, Tree.components, Tree.parameters, hrecord]

/-- A type declaration is added first, then what is in its body. -/
theorem addDeclaration_of_isType {t : Tree} (ht : t.IsType) (scope : Scope) (before : List Tree)
    (types : List TypeFacts) : ∃ o, TypeFacts.Reflects (o.fill t.members) t ∧
      o.outer = scope.owner ∧ o.qualifiedName = qualified scope.qualifier o.name ∧
      addDeclaration scope before types t =
        addBodies ⟨some types.length, o.name, some o.qualifiedName⟩ (types ++ [o]) t.children := by
  obtain ⟨⟨kind, hkind⟩, name, hname⟩ :=
    ht.imp Option.isSome_iff_exists.mp Option.isSome_iff_exists.mp
  refine ⟨typeFacts before scope.qualifier scope.owner kind name t, ?_, rfl, rfl, ?_⟩
  · have hfields := components_typeFacts before scope.qualifier scope.owner name hkind
    refine ⟨hkind, hname, ?_, ?_⟩
    · rw [TypeFacts.fill, hfields]
    · rw [TypeFacts.fill, hfields]
      rfl
  · cases t with
    | node k r text a b cs =>
      have hkind' : TypeKind.ofKind? k = some kind := hkind
      rw [addDeclaration, hkind', hname]
      rfl

theorem addDeclaration_of_not_isType {k : Kind} {r : Option Role} {text : String} {a b : Nat}
    {cs : List Tree} (ht : ¬ (Tree.node k r text a b cs).IsType) (scope : Scope)
    (before : List Tree) (types : List TypeFacts) :
    addDeclaration scope before types (.node k r text a b cs) =
      if k = .enumBodyDeclarations then addDeclarations scope [] types cs
      else addOwn scope before types (.node k r text a b cs) := by
  rw [addDeclaration]
  dsimp only
  split
  · rename_i hkind hname
    refine absurd ⟨?_, ?_⟩ ht
    · simp [Tree.kind, hkind]
    · simp [hname]
  · rfl

theorem membersIn_of_isType {t : Tree} (ht : t.IsType) (before : List Tree) :
    Tree.membersIn before t = [⟨before, t⟩] ∧ ¬ t.kind.isVariables ∧ ¬ t.kind.isCallable := by
  obtain ⟨hkind, -⟩ := ht
  cases t with
  | node k r text a b cs =>
    revert hkind
    rw [Tree.membersIn]
    cases k <;> simp [Tree.kind, TypeKind.ofKind?, Kind.isVariables, Kind.isCallable]

/-- The types in a declaration's body follow the declaration. -/
theorem Grows.ofType {t : Tree} (ht : t.IsType) {o : TypeFacts}
    (ho : TypeFacts.Reflects (o.fill t.members) t) (houter : o.outer = scope.owner)
    (hname : o.qualifiedName = qualified scope.qualifier o.name) (before : List Tree)
    (h : Grows ⟨some types.length, o.name, some o.qualifiedName⟩ t.members (types ++ [o]) types') :
    Grows scope (Tree.membersIn before t) types types' := by
  obtain ⟨new, rfl, hnew⟩ := h
  obtain ⟨hmembers, hplain⟩ := membersIn_of_isType ht before
  rw [hmembers]
  have hself : fillAt scope.owner [⟨before, t⟩] types = types :=
    fillAt_eq_self (by simpa using hplain) _ _
  rw [List.length_append, List.length_singleton] at hnew
  refine ⟨o.fill t.members :: (new ++ []), ?_, .type ht ho houter hname hnew .nil⟩
  rw [hself]
  simp [fillAt, List.modify_eq_take_drop]

mutual

theorem grows_addDeclaration {scope : Scope} {types : List TypeFacts} (hs : scope.Stands types)
    (before : List Tree) :
    ∀ t, Grows scope (Tree.membersIn before t) types (addDeclaration scope before types t)
  | .node k r text a b cs => by
    by_cases ht : (Tree.node k r text a b cs).IsType
    · obtain ⟨o, ho, houter, hname, heq⟩ := addDeclaration_of_isType ht scope before types
      rw [heq]
      -- the type is the last one when its body is read, so the members in the body are its own
      refine .ofType ht ho houter hname before (grows_addBodies ?_ cs)
      intro i hi
      cases hi
      exact ⟨o, List.getElem?_concat_length, rfl⟩
    · rw [addDeclaration_of_not_isType ht, Tree.membersIn]
      split
      · exact grows_addDeclarations hs [] cs
      · rw [addOwn_eq hs]
        exact ⟨[], (List.append_nil _).symm, .skip ht .nil⟩

theorem grows_addBodies {scope : Scope} {types : List TypeFacts} (hs : scope.Stands types) :
    ∀ cs, Grows scope (cs.flatMap Tree.bodyMembers) types (addBodies scope types cs)
  | [] => .nil scope types
  | .node k r text a b cs :: ts => by
    unfold addBodies
    have hfirst : Grows scope (Tree.bodyMembers (.node k r text a b cs)) types
        (if r = some .body then addDeclarations scope [] types cs else types) := by
      by_cases hr : r = some .body
      · have hmembers : Tree.bodyMembers (.node k r text a b cs) = Tree.membersOf [] cs := if_pos hr
        rw [if_pos hr, hmembers]
        exact grows_addDeclarations hs [] cs
      · have hmembers : Tree.bodyMembers (.node k r text a b cs) = [] := if_neg hr
        rw [if_neg hr, hmembers]
        exact .nil scope types
    exact hfirst.trans hs (grows_addBodies (hfirst.stands hs) ts)

theorem grows_addDeclarations {scope : Scope} {types : List TypeFacts} (hs : scope.Stands types)
    (before : List Tree) :
    ∀ ts, Grows scope (Tree.membersOf before ts) types (addDeclarations scope before types ts)
  | [] => .nil scope types
  | t :: ts => by
    have hfirst := grows_addDeclaration hs before t
    exact hfirst.trans hs (grows_addDeclarations (hfirst.stands hs) (t :: before) ts)

end

theorem exists_listing_part (package : Option String) (before : List Tree)
    (types : List TypeFacts) (t : Tree) :
    ∃ new, (if (TypeKind.ofKind? t.kind).isSome then
        addDeclaration ⟨none, "", package⟩ before types t else types) = types ++ new ∧
      Listing none package types.length [t] new := by
  split
  · rename_i hkind
    have hs : Scope.Stands ⟨none, "", package⟩ types := nofun
    obtain ⟨new, hnew, hlisting⟩ := grows_addDeclaration hs before t
    refine ⟨new, hnew, ?_⟩
    cases t with
    | node k r text a b cs =>
      have hk : k ≠ .enumBodyDeclarations := by
        rintro rfl
        simp [Tree.kind, TypeKind.ofKind?] at hkind
      simpa [Tree.membersIn, hk] using hlisting
  · rename_i hkind
    exact ⟨[], (List.append_nil _).symm, .skip (by simp [Tree.IsType, hkind]) .nil⟩

theorem reflecting_unitTypes (package : Option String) (before : List Tree)
    (types : List TypeFacts) (parts : List Tree) :
    ∃ new, unitTypes package before types parts = types ++ new ∧ Reflecting parts new ∧
      OuterFirst types.length new := by
  induction parts generalizing package before types with
  | nil => exact ⟨[], (List.append_nil _).symm, .nil (List.forall_mem_nil _), trivial⟩
  | cons t ts ih =>
    obtain ⟨new, hnew, hlisting⟩ :=
      exists_listing_part (packageName? t <|> package) before types t
    obtain ⟨new', hnew', hts', hordered'⟩ :=
      ih (packageName? t <|> package) (t :: before) (types ++ new)
    rw [List.length_append] at hordered'
    refine ⟨new ++ new', ?_, hlisting.reflecting.append hts',
      (hlisting.outerFirst nofun).append hordered'⟩
    rw [unitTypes, hnew, hnew', List.append_assoc]

end Extract

theorem reflecting_ofSource {parse : Parser} {source : String} {unit : Tree}
    (h : parse source = some unit) (path : String) :
    Reflecting unit.children (FileFacts.ofSource parse path source).types := by
  simp only [FileFacts.ofSource, h]
  obtain ⟨new, hnew, hts, -⟩ := reflecting_unitTypes none [] [] unit.children
  rw [hnew]
  exact hts

theorem outerFirst_ofSource (parse : Parser) (path source : String) :
    OuterFirst 0 (FileFacts.ofSource parse path source).types := by
  cases h : parse source with
  | none =>
    simp only [FileFacts.ofSource, h]
    trivial
  | some unit =>
    simp only [FileFacts.ofSource, h]
    obtain ⟨new, hnew, -, hordered⟩ := reflecting_unitTypes none [] [] unit.children
    rw [hnew]
    exact hordered

end Lineage.Java
