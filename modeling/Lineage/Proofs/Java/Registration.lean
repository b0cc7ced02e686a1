import Lineage.Java.Symbols
import Lineage.Proofs.Java.TypeNames
import Lineage.Proofs.Keyed
import Mathlib.Data.List.Induction
import Mathlib.Data.List.Nodup
/-! # Registering symbols

A table of symbols is made by registering one after another. Its types have distinct names, whatever
is registered: a type whose name is taken is left out. What a reference means depends on the set of
the types alone. Main statements: `nodup_names_ofEntries`, `types_ofEntries`, `resolve?_eq_of_perm`.
-/
namespace Lineage.Java.Symbols

inductive Entry where
  | type (qualifiedName : String) (id : NodeId)
  | method (owner : NodeId) (m : MethodSymbol)
  | field (owner : NodeId) (f : FieldSymbol)
  | supertype (owner supertype : NodeId)
  deriving DecidableEq, Repr

def Entry.type? : Entry → Option (String × NodeId)
  | .type qualifiedName id => some (qualifiedName, id)
  | _ => none

/-- Registers one symbol; a type whose name is taken changes nothing. -/
def enter (s : Symbols) : Entry → Symbols
  | .type qualifiedName id => (s.addType? qualifiedName id).getD s
  | .method owner m => s.addMethod owner m
  | .field owner f => s.addField owner f
  | .supertype owner supertype => s.addSupertype owner supertype

def ofEntries (entries : List Entry) : Symbols := entries.foldl enter empty

def typesOf (entries : List Entry) : List (String × NodeId) := entries.filterMap Entry.type?

def names (s : Symbols) : List String := s.types.map (·.1)

/-! ## Types by name -/

section Lookup
variable {s : Symbols} {name : String} {id : NodeId}

theorem type?_eq_none_iff : s.type? name = none ↔ name ∉ s.names := lookup_eq_none_iff_not_mem

theorem type?_eq_some_iff (h : s.names.Nodup) : s.type? name = some id ↔ (name, id) ∈ s.types :=
  ⟨mem_of_lookup_eq_some, lookup_of_mem h⟩

theorem mem_candidates_iff {simple : String} :
    name ∈ s.candidates simple ↔ name ∈ s.names ∧ TypeName.lastSegment name = simple := by
  rw [candidates, List.mem_filter, decide_eq_true_eq, names]

end Lookup

/-! ## Simple names -/

section Simple
variable {s : Symbols} {simple only : String} {context : TypeContext}

theorem resolveSimple?_of_single (h : s.candidates simple = [only]) :
    s.resolveSimple? simple context = s.type? only := by
  rw [resolveSimple?, h]

theorem resolveSimple?_of_several (h : ∀ only, s.candidates simple ≠ [only]) :
    s.resolveSimple? simple context =
      ((meanings context simple).find? (s.candidates simple).contains).bind s.type? := by
  unfold resolveSimple?
  split
  · rename_i only honly
    exact absurd honly (h only)
  · rfl

end Simple

/-! ## One entry after another -/

theorem enter_cases (s : Symbols) (e : Entry) :
    (s.enter e).types = s.types ∧ (∀ t, e.type? = some t → t.1 ∈ s.names) ∨
      ∃ t, e.type? = some t ∧ t.1 ∉ s.names ∧ (s.enter e).types = s.types ++ [t] := by
  cases e with
  | type qualifiedName id =>
    cases hfree : s.type? qualifiedName with
    | none =>
      refine .inr ⟨(qualifiedName, id), rfl, type?_eq_none_iff.mp hfree, ?_⟩
      simp [enter, addType?, hfree]
    | some taken =>
      refine .inl ⟨by simp [enter, addType?, hfree], ?_⟩
      rintro t ht
      obtain rfl := Option.some.inj ht
      by_contra hfresh
      rw [type?_eq_none_iff.mpr hfresh] at hfree
      cases hfree
  | method => exact .inl ⟨rfl, nofun⟩
  | field => exact .inl ⟨rfl, nofun⟩
  | supertype => exact .inl ⟨rfl, nofun⟩

theorem ofEntries_snoc (es : List Entry) (e : Entry) :
    ofEntries (es ++ [e]) = (ofEntries es).enter e := by
  rw [ofEntries, List.foldl_append]
  rfl

theorem nodup_names_enter {s : Symbols} (h : s.names.Nodup) (e : Entry) :
    (s.enter e).names.Nodup := by
  rcases enter_cases s e with ⟨heq, -⟩ | ⟨t, -, hfresh, heq⟩
  · rwa [names, heq]
  · rw [names, heq, List.map_append]
    exact h.append (List.nodup_singleton t.1) (by simpa using hfresh)

theorem nodup_names_ofEntries (es : List Entry) : (ofEntries es).names.Nodup := by
  induction es using List.reverseRecOn with
  | nil => exact .nil
  | append_singleton es e ih =>
    rw [ofEntries_snoc]
    exact nodup_names_enter ih e

theorem types_sublist (es : List Entry) : (ofEntries es).types.Sublist (typesOf es) := by
  induction es using List.reverseRecOn with
  | nil => exact .slnil
  | append_singleton es e ih =>
    rw [ofEntries_snoc, typesOf, List.filterMap_append]
    rcases enter_cases (ofEntries es) e with ⟨heq, -⟩ | ⟨t, ht, -, heq⟩
    · rw [heq]
      exact ih.trans (List.sublist_append_left _ _)
    · rw [heq, List.filterMap_cons_some ht]
      exact ih.append (List.Sublist.refl _)

/-- Types with distinct names are all registered, in their order. -/
theorem types_ofEntries {es : List Entry} (h : ((typesOf es).map (·.1)).Nodup) :
    (ofEntries es).types = typesOf es := by
  induction es using List.reverseRecOn with
  | nil => rfl
  | append_singleton es e ih =>
    rw [typesOf, List.filterMap_append, List.map_append] at h
    have hes : (ofEntries es).types = typesOf es := ih h.of_append_left
    rw [ofEntries_snoc, typesOf, List.filterMap_append]
    rcases enter_cases (ofEntries es) e with ⟨heq, htaken⟩ | ⟨t, ht, -, heq⟩
    · cases ht : e.type? with
      | none => simp [heq, hes, ht, typesOf]
      | some t =>
        have hmem : t.1 ∈ (typesOf es).map (·.1) := by
          simpa [names, hes] using htaken t ht
        exact absurd (by simp [ht]) (List.disjoint_of_nodup_append h hmem)
    · simp [heq, hes, ht, typesOf]

/-! ## The order of registration -/

section Order
variable {s s' : Symbols} (h : s.names.Nodup) (hperm : s.types.Perm s'.types)
include h hperm

theorem type?_eq_of_perm (name : String) : s.type? name = s'.type? name := by
  have h' : s'.names.Nodup := (hperm.map _).nodup_iff.mp h
  ext id
  rw [type?_eq_some_iff h, type?_eq_some_iff h', hperm.mem_iff]

omit h in
theorem candidates_perm (simple : String) : (s.candidates simple).Perm (s'.candidates simple) :=
  (hperm.map _).filter _

theorem resolveSimple?_eq_of_perm (simple : String) (context : TypeContext) :
    s.resolveSimple? simple context = s'.resolveSimple? simple context := by
  have hcandidates := candidates_perm hperm simple
  have htype : s.type? = s'.type? := funext (type?_eq_of_perm h hperm)
  by_cases hsingle : ∃ only, s.candidates simple = [only]
  · obtain ⟨only, honly⟩ := hsingle
    have honly' : s'.candidates simple = [only] :=
      (List.singleton_perm.mp (honly ▸ hcandidates)).symm
    rw [resolveSimple?_of_single honly, resolveSimple?_of_single honly', htype]
  · have hseveral : ∀ only, s.candidates simple ≠ [only] := not_exists.mp hsingle
    have hseveral' : ∀ only, s'.candidates simple ≠ [only] := fun only honly =>
      hseveral only (List.perm_singleton.mp (honly ▸ hcandidates))
    have hcontains : (s.candidates simple).contains = (s'.candidates simple).contains :=
      funext fun name => by simpa using hcandidates.mem_iff
    rw [resolveSimple?_of_several hseveral, resolveSimple?_of_several hseveral', hcontains, htype]

/-- What a reference means does not depend on the order in which the types were registered. -/
theorem resolve?_eq_of_perm (raw : String) (context : TypeContext) :
    s.resolve? raw context = s'.resolve? raw context := by
  have htype : s.type? = s'.type? := funext (type?_eq_of_perm h hperm)
  simp only [resolve?, resolveDotted?, resolveSimple?_eq_of_perm h hperm, htype]

end Order

end Lineage.Java.Symbols
