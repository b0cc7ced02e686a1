import Lineage.Proofs.Java.Contents
/-! # The order of the types of a file

A type is listed before the types in its body, and all of these before the next one that stands
beside it. So it comes later than the type around it, whose full name its own begins with. Main
statements: `listing_ofSource`, `Listing.located`.
-/
namespace Lineage.Java

/-- No package is declared behind a type, as the language demands. -/
def Tree.PackageFirst (unit : Tree) : Prop :=
  unit.children.Pairwise fun t part => t.IsType → part.kind ≠ .packageDeclaration

instance (unit : Tree) : Decidable unit.PackageFirst :=
  inferInstanceAs (Decidable (List.Pairwise _ _))

/-- A nested type comes later than the type around it and has a name behind that one's; any other
type has one behind the package. -/
structure Located (package : Option String) (types : List TypeFacts) (j : Nat) (t : TypeFacts) :
    Prop where
  nested : ∀ i, t.outer = some i → i < j ∧ ∃ o, types[i]? = some o ∧
    t.qualifiedName = o.qualifiedName ++ "." ++ t.name
  top : t.outer = none → t.qualifiedName = qualified package t.name

theorem Located.append {package : Option String} {types : List TypeFacts} {j : Nat} {t : TypeFacts}
    (h : Located package types j t) (more : List TypeFacts) : Located package (types ++ more) j t where
  nested i hi := by
    obtain ⟨hlt, o, ho, hname⟩ := h.nested i hi
    refine ⟨hlt, o, ?_, hname⟩
    rw [List.getElem?_append_left (List.getElem?_eq_some_iff.mp ho).1]
    exact ho
  top := h.top

theorem Listing.located {outer : Option Nat} {qualifier package : Option String} {n : Nat}
    {ts : List Tree} {types : List TypeFacts} (h : Listing outer qualifier n ts types)
    (before : List TypeFacts) (hn : before.length = n)
    (hnested : ∀ i ∈ outer, ∃ o, before[i]? = some o ∧ qualifier = some o.qualifiedName)
    (htop : outer = none → qualifier = package) :
    ∀ j t, types[j]? = some t → Located package (before ++ types) (n + j) t := by
  -- for whatever is listed before, as a type in a body is located among all types of the file
  induction h generalizing before with
  | nil => exact fun j t hj => nomatch hj
  | skip _ _ ih => exact ih before hn hnested htop
  | @type _ _ n _ _ u inner types _ _ houter hname _ _ ihinner ih =>
    intro j t hj
    have hself : (before ++ [u])[n]? = some u := by simp [← hn]
    cases j with
    | zero =>
      obtain rfl : u = t := by simpa using hj
      refine ⟨fun i hi => ?_, fun hi => ?_⟩
      · obtain ⟨o, ho, hqualifier⟩ := hnested i (houter ▸ hi)
        have hlt := (List.getElem?_eq_some_iff.mp ho).1
        refine ⟨by omega, o, ?_, by rw [hname, hqualifier]; rfl⟩
        rw [List.getElem?_append_left hlt, ho]
      · rw [hname, htop (houter ▸ hi)]
    | succ j =>
      rw [List.getElem?_cons_succ] at hj
      by_cases hlt : j < inner.length
      · rw [List.getElem?_append_left hlt] at hj
        have hin := ihinner (before ++ [u]) (by simp [hn])
          (fun i hi => ⟨u, by cases hi; exact hself, rfl⟩) nofun j t hj
        simpa [Nat.add_comm j, Nat.add_assoc] using hin.append types
      · rw [List.getElem?_append_right (Nat.le_of_not_lt hlt)] at hj
        have hbeside := ih (before ++ [u] ++ inner) (by simp; omega) (fun i hi => ?_) htop _
          t hj
        · have hindex : n + 1 + inner.length + (j - inner.length) = n + (j + 1) := by omega
          simpa [hindex] using hbeside
        · obtain ⟨o, ho, hqualifier⟩ := hnested i hi
          refine ⟨o, ?_, hqualifier⟩
          rw [List.append_assoc, List.getElem?_append_left (List.getElem?_eq_some_iff.mp ho).1, ho]

/-! ## Types around types -/

/-- The positions of the types around a type, the innermost first. -/
inductive Enclosing (types : List TypeFacts) : Nat → List Nat → Prop
  | top {j : Nat} {t : TypeFacts} (ht : types[j]? = some t) (houter : t.outer = none) :
    Enclosing types j []
  | nested {j i : Nat} {t : TypeFacts} {is : List Nat} (ht : types[j]? = some t)
    (houter : t.outer = some i) (h : Enclosing types i is) : Enclosing types j (i :: is)

theorem Enclosing.unique {types : List TypeFacts} {j : Nat} {is is' : List Nat}
    (h : Enclosing types j is) (h' : Enclosing types j is') : is = is' := by
  induction h generalizing is' with
  | top ht houter =>
    cases h' with
    | top => rfl
    | nested ht' houter' =>
      obtain rfl := Option.some.inj (ht.symm.trans ht')
      cases houter.symm.trans houter'
  | nested ht houter _ ih =>
    cases h' with
    | top ht' houter' =>
      obtain rfl := Option.some.inj (ht.symm.trans ht')
      cases houter.symm.trans houter'
    | nested ht' houter' h' =>
      obtain rfl := Option.some.inj (ht.symm.trans ht')
      obtain rfl := Option.some.inj (houter.symm.trans houter')
      rw [ih h']

theorem OuterFirst.lt {n : Nat} {types : List TypeFacts} (h : OuterFirst n types) {j i : Nat}
    {t : TypeFacts} (ht : types[j]? = some t) (houter : t.outer = some i) : i < n + j := by
  induction types generalizing n j with
  | nil => cases ht
  | cons u types ih =>
    cases j with
    | zero =>
      obtain rfl : u = t := by simpa using ht
      exact h.1 i houter
    | succ j =>
      have hlt := ih h.2 ht
      omega

theorem OuterFirst.exists_enclosing {types : List TypeFacts} (h : OuterFirst 0 types) {j : Nat}
    (hj : j < types.length) : ∃ is, Enclosing types j is := by
  induction j using Nat.strongRecOn with
  | ind j ih =>
    have ht := List.getElem?_eq_getElem hj
    cases houter : types[j].outer with
    | none => exact ⟨[], .top ht houter⟩
    | some i =>
      have hlt := h.lt ht houter
      rw [Nat.zero_add] at hlt
      obtain ⟨is, his⟩ := ih i hlt (Nat.lt_trans hlt hj)
      exact ⟨i :: is, .nested ht houter his⟩

/-! ## Units -/

namespace Extract

theorem packageName?_eq_none {t : Tree} (h : t.kind ≠ .packageDeclaration) :
    packageName? t = none := if_neg h

theorem listing_unitTypes (package : Option String) (before : List Tree) (types : List TypeFacts)
    {parts : List Tree}
    (hfirst : parts.Pairwise fun t part => t.IsType → part.kind ≠ .packageDeclaration) :
    ∃ new, unitTypes package before types parts = types ++ new ∧
      Listing none ((parts.filterMap packageName?).getLast? <|> package) types.length parts new := by
  induction parts generalizing package before types with
  | nil => exact ⟨[], (List.append_nil _).symm, .nil⟩
  | cons t ts ih =>
    obtain ⟨hbehind, hrest⟩ := List.pairwise_cons.mp hfirst
    obtain ⟨new, hnew, hlisting⟩ :=
      exists_listing_part (packageName? t <|> package) before types t
    obtain ⟨new', hnew', hlisting'⟩ :=
      ih (packageName? t <|> package) (t :: before) (types ++ new) hrest
    refine ⟨new ++ new', by rw [unitTypes, hnew, hnew', List.append_assoc], ?_⟩
    rw [List.length_append] at hlisting'
    by_cases ht : t.IsType
    · have hpackage : packageName? t = none := packageName?_eq_none fun hk => by
        have hkind := ht.1
        rw [hk] at hkind
        cases hkind
      have hnone : ts.filterMap packageName? = [] := by
        rw [List.filterMap_eq_nil_iff]
        exact fun part hpart => packageName?_eq_none (hbehind part hpart ht)
      rw [hpackage] at hlisting hlisting'
      rw [hnone] at hlisting'
      rw [List.filterMap_cons_none hpackage, hnone]
      exact hlisting.append hlisting'
    · obtain rfl : new = [] := by
        cases hlisting with
        | skip _ h => cases h; rfl
        | type hd => exact absurd hd ht
      refine .skip ht ?_
      cases hpackage : packageName? t with
      | none =>
        rw [hpackage] at hlisting'
        rwa [List.filterMap_cons_none hpackage]
      | some p =>
        rw [hpackage] at hlisting'
        rw [List.filterMap_cons_some hpackage, List.getLast?_cons]
        cases hlast : (ts.filterMap packageName?).getLast? <;> rw [hlast] at hlisting' <;>
          exact hlisting'

end Extract

theorem listing_ofSource {parse : Parser} {source : String} {unit : Tree}
    (h : parse source = some unit)
    (hfirst : unit.PackageFirst) (path : String) :
    Listing none (FileFacts.ofSource parse path source).package 0 unit.children
      (FileFacts.ofSource parse path source).types := by
  simp only [FileFacts.ofSource, h]
  obtain ⟨new, hnew, hlisting⟩ := Extract.listing_unitTypes none [] [] hfirst
  rw [hnew]
  simpa using hlisting

end Lineage.Java
