import Lineage.Proofs.Java.Registration
/-! # The only method of a name

A call on an unknown receiver means the only method of the project that has its name and just as
many parameters as the call has arguments. A type that is searched for the call asks for less: a
method with a variable number of arguments accepts other numbers too. The two answers differ where
such a method tells them apart, and nowhere else. Main statements: `onlyNamed_iff`, `agreesAt_iff`,
`findsOnly_methods`.
-/
namespace Lineage.Java

theorem MethodSymbol.accepts_iff {m : MethodSymbol} {arity : Nat} :
    m.accepts arity = true ↔ m.params = arity ∨ m.varargs = true ∧ m.params ≤ arity + 1 := by
  unfold MethodSymbol.accepts
  cases m.varargs <;> simp <;> omega

namespace Symbols

section Calls
variable (s : Symbols) (name : String) (arity : Nat)

/-- The methods that a call can mean, with their types. -/
def fitting : List (NodeId × MethodSymbol) :=
  s.methods.filter fun e => !e.2.isConstructor && e.2.name = name && e.2.accepts arity

def matching : List (NodeId × MethodSymbol) :=
  s.methods.filter fun e => !e.2.isConstructor && e.2.name = name && e.2.params = arity

/-- Those of them that have another number of parameters. -/
def stretched : List (NodeId × MethodSymbol) :=
  (s.fitting name arity).filter fun e => e.2.params ≠ arity

/-- One type has a single method that the call can mean, and no other type has any. -/
def OnlyNamed (m : NodeId) : Prop :=
  ∃ owner, s.methodsNamed owner name arity = [m] ∧
    ∀ other, other ≠ owner → s.methodsNamed other name arity = []

/-- The search through the project finds what a search through all its types finds. -/
def AgreesAt : Prop :=
  ∀ m, s.uniqueMethod? name arity = some m ↔ s.OnlyNamed name arity m

end Calls

def Agrees (s : Symbols) : Prop := ∀ name arity, s.AgreesAt name arity

variable {s : Symbols} {name : String} {arity : Nat} {m : NodeId}

/-! ## All types together -/

theorem methodsNamed_eq (owner : NodeId) : s.methodsNamed owner name arity =
    ((s.fitting name arity).filter (·.1 = owner)).map (·.2.id) := by
  rw [methodsNamed, methodsOf, fitting, List.filter_map, List.map_map, List.filter_filter,
    List.filter_filter]
  congr 1
  exact List.filter_congr fun e _ => Bool.and_comm _ _

theorem methodsNamed_eq_nil_iff {owner : NodeId} : s.methodsNamed owner name arity = [] ↔
    ∀ e ∈ s.fitting name arity, e.1 ≠ owner := by
  rw [methodsNamed_eq, List.map_eq_nil_iff, List.filter_eq_nil_iff]
  simp

theorem onlyNamed_iff :
    s.OnlyNamed name arity m ↔ ∃ e, s.fitting name arity = [e] ∧ e.2.id = m := by
  constructor
  · rintro ⟨owner, hone, hnone⟩
    have howner : ∀ e ∈ s.fitting name arity, decide (e.1 = owner) = true := by
      intro e he
      by_contra hne
      exact methodsNamed_eq_nil_iff.mp (hnone e.1 (by simpa using hne)) e he rfl
    rw [methodsNamed_eq, List.filter_eq_self.mpr howner] at hone
    obtain ⟨e, he, hid⟩ := List.map_eq_singleton_iff.mp hone
    exact ⟨e, he, hid⟩
  · rintro ⟨e, he, rfl⟩
    refine ⟨e.1, ?_, fun other hother => methodsNamed_eq_nil_iff.mpr ?_⟩
    · simp [methodsNamed_eq, he]
    · rw [he]
      simpa using hother.symm

theorem uniqueMethod?_eq_some_iff :
    s.uniqueMethod? name arity = some m ↔ ∃ e, s.matching name arity = [e] ∧ e.2.id = m := by
  have hmap : ((s.methods.map (·.2)).filter fun m =>
      !m.isConstructor && m.name = name && m.params = arity) =
        (s.matching name arity).map (·.2) := by
    rw [matching, List.filter_map]
    rfl
  unfold uniqueMethod?
  rw [hmap]
  constructor
  · intro h
    split at h
    · rename_i only honly
      obtain ⟨e, he, rfl⟩ := List.map_eq_singleton_iff.mp honly
      exact ⟨e, he, Option.some.inj h⟩
    · cases h
  · rintro ⟨e, he, rfl⟩
    rw [he]
    rfl

/-! ## Methods that fit exactly, and those that are stretched -/

theorem matching_eq (s : Symbols) (name : String) (arity : Nat) :
    s.matching name arity = (s.fitting name arity).filter fun e => e.2.params = arity := by
  rw [matching, fitting, List.filter_filter]
  refine List.filter_congr fun e _ => ?_
  by_cases h : e.2.params = arity
  · simp [h, MethodSymbol.accepts_iff]
  · simp [h]

theorem length_fitting (s : Symbols) (name : String) (arity : Nat) : (s.fitting name arity).length =
    (s.matching name arity).length + (s.stretched name arity).length := by
  rw [matching_eq, stretched, List.length_eq_length_filter_add fun e => e.2.params = arity]
  simp

theorem mem_stretched_iff {e : NodeId × MethodSymbol} : e ∈ s.stretched name arity ↔
    e ∈ s.methods ∧ (e.2.isConstructor = false ∧ e.2.name = name) ∧
      e.2.varargs = true ∧ e.2.params ≠ arity ∧ e.2.params ≤ arity + 1 := by
  simp only [stretched, fitting, List.mem_filter, Bool.and_eq_true, Bool.not_eq_true',
    decide_eq_true_eq, MethodSymbol.accepts_iff]
  grind

theorem agreesAt_iff_length : s.AgreesAt name arity ↔
    ((s.matching name arity).length = 1 ↔ (s.fitting name arity).length = 1) := by
  have hunique : (∃ m, s.uniqueMethod? name arity = some m) ↔
      (s.matching name arity).length = 1 := by
    simp [uniqueMethod?_eq_some_iff, List.length_eq_one_iff]
  have honly : (∃ m, s.OnlyNamed name arity m) ↔ (s.fitting name arity).length = 1 := by
    simp [onlyNamed_iff, List.length_eq_one_iff]
  constructor
  · intro h
    rw [← hunique, ← honly]
    exact exists_congr h
  · intro h m
    rw [uniqueMethod?_eq_some_iff, onlyNamed_iff]
    by_cases hone : (s.fitting name arity).length = 1
    · -- what fits exactly is the only one that fits at all
      have hsub : (s.matching name arity).Sublist (s.fitting name arity) := by
        rw [matching_eq]
        exact List.filter_sublist
      rw [hsub.eq_of_length ((h.mpr hone).trans hone.symm)]
    · have hexact : (s.matching name arity).length ≠ 1 := fun he => hone (h.mp he)
      constructor
      · rintro ⟨e, he, -⟩
        exact absurd (by rw [he]; rfl) hexact
      · rintro ⟨e, he, -⟩
        exact absurd (by rw [he]; rfl) hone

/-- The two searches differ if and only if a single method fits exactly and others are stretched, or
the only method that fits is stretched. -/
theorem agreesAt_iff : s.AgreesAt name arity ↔ s.stretched name arity = [] ∨
    2 ≤ (s.matching name arity).length ∨
      s.matching name arity = [] ∧ 2 ≤ (s.stretched name arity).length := by
  rw [agreesAt_iff_length, length_fitting, ← List.length_eq_zero_iff, ← List.length_eq_zero_iff]
  omega

/-- Which method is the only one for a call. -/
structure FindsOnly (s : Symbols) : Prop where
  found_iff : ∀ name arity m, s.uniqueMethod? name arity = some m ↔
    ∃ owner symbol, s.matching name arity = [(owner, symbol)] ∧ symbol.id = m
  named_iff : ∀ name arity m, s.OnlyNamed name arity m ↔
    ∃ owner symbol, s.fitting name arity = [(owner, symbol)] ∧ symbol.id = m
  fitting_perm : ∀ name arity,
    (s.fitting name arity).Perm (s.matching name arity ++ s.stretched name arity)
  agrees_iff : ∀ name arity, s.AgreesAt name arity ↔ s.stretched name arity = [] ∨
    2 ≤ (s.matching name arity).length ∨
      s.matching name arity = [] ∧ 2 ≤ (s.stretched name arity).length
  /-- Without a variable number of arguments there is no difference. -/
  fixed : ∀ name, (∀ e ∈ s.methods, e.2.name = name → e.2.varargs = false) →
    ∀ arity, s.AgreesAt name arity

theorem findsOnly_methods (s : Symbols) : FindsOnly s where
  found_iff name arity m := by
    rw [uniqueMethod?_eq_some_iff, Prod.exists]
  named_iff name arity m := by
    rw [onlyNamed_iff, Prod.exists]
  fitting_perm name arity := by
    rw [matching_eq, stretched]
    simpa using (List.filter_append_perm (fun e => decide (e.2.params = arity))
      (s.fitting name arity)).symm
  agrees_iff _ _ := agreesAt_iff
  fixed name h arity := by
    refine agreesAt_iff.mpr (.inl (List.eq_nil_iff_forall_not_mem.mpr fun e he => ?_))
    obtain ⟨hmem, ⟨-, hname⟩, hvarargs, -⟩ := mem_stretched_iff.mp he
    rw [h e hmem hname] at hvarargs
    cases hvarargs

theorem not_agrees_variableArguments :
    ¬ Agrees (ofEntries [.method ⟨11⟩ ⟨⟨5⟩, "log", "log(String,Object...)", 2, true, false⟩]) ∧
      ¬ Agrees (ofEntries [.method ⟨11⟩ ⟨⟨6⟩, "run", "run()", 0, false, false⟩,
        .method ⟨12⟩ ⟨⟨7⟩, "run", "run(int...)", 1, true, false⟩]) :=
  ⟨fun h => absurd (agreesAt_iff.mp (h "log" 1)) (by decide),
    fun h => absurd (agreesAt_iff.mp (h "run" 0)) (by decide)⟩

end Symbols

end Lineage.Java
