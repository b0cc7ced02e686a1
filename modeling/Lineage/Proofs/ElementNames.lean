import Lineage.Java.Grammar
import Lineage.Proofs.Text
import Lineage.Refactoring.Location
/-! # Names of code elements

A detector writes an element as a method (`public foo(a int) : void`), as a variable
(`private count : int`) or as a name with dots. Which name and which key are read back depends on
two delimiters: an opening parenthesis counts wherever it stands, and only without one does the
colon count. Main statements: `elementName?_methodForm`, `elementName?_variableForm_iff`,
`lastName?_dotted_iff`.
-/
namespace Lineage.Refactoring

open Text

/-! ## Elements as they are written -/

/-- The keywords that may stand before a declaration. -/
def modifierKeywords : List String := "sealed" :: Java.Grammar.modifierWords

abbrev Modifier := {w : String // w ∈ modifierKeywords}

/-- A character that an identifier can begin with: a letter, `_`, `$` and, more generously than the
language, every character beyond the first 160 that is not blank. -/
def isIdentifierStart (c : Char) : Bool :=
  ('a' ≤ c && c ≤ 'z') || ('A' ≤ c && c ≤ 'Z') || c == '_' || c == '$' ||
    (0xA0 ≤ c.toNat && !isBlank c)

/-- A control character that the language ignores in identifiers. -/
def isIgnorable (c : Char) : Bool :=
  c.toNat ≤ 8 || (0xE ≤ c.toNat && c.toNat ≤ 0x1B) || (0x7F ≤ c.toNat && c.toNat ≤ 0x9F)

def isIdentifierPart (c : Char) : Bool := isIdentifierStart c || isDigit c || isIgnorable c

/-- A name that a declaration can have. -/
structure Identifier where
  text : String
  start : ∃ c ∈ text.toList.head?, isIdentifierStart c = true
  parts : ∀ c ∈ text.toList, isIdentifierPart c = true

/-- What stands first in an element: modifiers and the name. -/
def declared (m : List Modifier) (n : Identifier) : String := join " " (m.map (·.1) ++ [n.text])

def methodForm (m : List Modifier) (n : Identifier) (p r : String) : String :=
  declared m n ++ "(" ++ (p ++ ") : " ++ r)

def variableForm (m : List Modifier) (n : Identifier) (t : String) : String :=
  declared m n ++ " : " ++ t

def dottedForm (qs : List Identifier) (n : Identifier) : String :=
  join "." (qs.map (·.text) ++ [n.text])

/-! ## Characters of names -/

theorem not_isBlank_of_isIdentifierStart {c : Char} (h : isIdentifierStart c = true) :
    isBlank c = false := by
  rw [Bool.eq_false_iff]
  intro hb
  have hletter : ∀ d e : Char, d ≤ c ∧ c ≤ e ↔ d.toNat ≤ c.toNat ∧ c.toNat ≤ e.toNat :=
    fun d e => Iff.rfl
  simp only [isIdentifierStart, hb, Bool.not_true, Bool.and_false, Bool.or_false, Bool.or_eq_true,
    Bool.and_eq_true, decide_eq_true_eq, beq_iff_eq, hletter, ← Char.toNat_inj] at h
  simp only [isBlank, Bool.or_eq_true, Bool.and_eq_true, decide_eq_true_eq, beq_iff_eq] at hb
  simp only [Char.reduceToNat] at h
  omega

/-- Of the characters of identifiers only an ignored one is blank. -/
theorem isBlank_iff_of_isIdentifierPart {c : Char} (h : isIdentifierPart c = true) :
    isBlank c = true ↔ c = '\u0085' := by
  constructor
  · intro hb
    have hstart : isIdentifierStart c = false := by
      by_contra hs
      rw [not_isBlank_of_isIdentifierStart (by simpa using hs)] at hb
      cases hb
    have hdigit : isDigit c = true ↔ 48 ≤ c.toNat ∧ c.toNat ≤ 57 := by
      rw [isDigit, Bool.and_eq_true, decide_eq_true_eq, decide_eq_true_eq]
      exact Iff.rfl
    simp only [isIdentifierPart, hstart, Bool.false_or, Bool.or_eq_true, hdigit, isIgnorable,
      Bool.and_eq_true, decide_eq_true_eq] at h
    simp only [isBlank, Bool.or_eq_true, Bool.and_eq_true, decide_eq_true_eq, beq_iff_eq] at hb
    refine Char.toNat_inj.mp (Eq.trans (b := 0x85) ?_ rfl)
    omega
  · rintro rfl
    decide

namespace Identifier
variable (n : Identifier)

theorem not_mem {c : Char} (h : isIdentifierPart c = false) : c ∉ n.text.toList := by
  intro hc
  rw [n.parts c hc] at h
  cases h

theorem text_ne_empty : n.text ≠ "" := by
  intro h
  obtain ⟨c, hc, -⟩ := n.start
  rw [h] at hc
  cases hc

theorem exists_head : ∃ c ∈ n.text.toList.head?, isBlank c = false := by
  obtain ⟨c, hc, hstart⟩ := n.start
  exact ⟨c, hc, not_isBlank_of_isIdentifierStart hstart⟩

theorem exists_not_isBlank : ∃ c ∈ n.text.toList, isBlank c = false := by
  obtain ⟨c, hc, hb⟩ := n.exists_head
  exact ⟨c, List.mem_of_mem_head? hc, hb⟩

theorem forall_not_isBlank_iff :
    (∀ c ∈ n.text.toList, isBlank c = false) ↔ '\u0085' ∉ n.text.toList := by
  constructor
  · exact fun h hc => absurd (h _ hc) (by decide)
  · intro h c hc
    rw [Bool.eq_false_iff, ne_eq, isBlank_iff_of_isIdentifierPart (n.parts c hc)]
    rintro rfl
    exact h hc

end Identifier

/-! ## Last names -/

namespace Location

theorem lastName?_of_getLast? {s w name : String} (hw : (words s).getLast? = some w)
    (hname : (pieces (· == '.') w).getLast? = some name) (hne : name ≠ "") :
    lastName? s = some name := by
  simp [lastName?, hw, hname, hne]

theorem lastName?_trim (s : String) : lastName? (trim s) = lastName? s := by
  rw [lastName?, lastName?, words_trim]

/-- What stands before a blank does not matter, if a word follows. -/
theorem lastName?_append_blank {y : String} {c : Char} (hc : isBlank c = true)
    (hy : ∃ d ∈ y.toList, isBlank d = false) (x : String) :
    lastName? (x ++ String.singleton c ++ y) = lastName? y := by
  have hwords : words (x ++ String.singleton c ++ y) = words x ++ words y := by
    simp [words_eq, wordsChars_append hc]
  have hne : words y ≠ [] := by
    rw [words_eq, ne_eq, List.map_eq_nil_iff, wordsChars_eq_nil_iff]
    obtain ⟨d, hd, hb⟩ := hy
    exact fun h => by simp [h d hd] at hb
  rw [lastName?, lastName?, hwords, List.getLast?_append_of_ne_nil _ hne]

theorem lastName?_eq_none {s : String} (h : ∀ c ∈ s.toList, isBlank c = true) :
    lastName? s = none := by
  simp [lastName?, words_eq, wordsChars_eq_nil_iff.mpr h]

theorem not_isBlank_of_lastName? {s name : String} (h : lastName? s = some name) :
    ∀ c ∈ name.toList, isBlank c = false := by
  obtain ⟨w, hw, h⟩ := Option.bind_eq_some_iff.mp h
  obtain ⟨p, hp, h⟩ := Option.bind_eq_some_iff.mp h
  split at h
  · cases h
  · obtain rfl := Option.some.inj h
    obtain ⟨cs, hcs, rfl⟩ := List.mem_map.mp (List.mem_of_getLast? hp)
    obtain ⟨ws, hws, rfl⟩ := List.mem_map.mp (List.mem_of_getLast? hw)
    intro c hc
    rw [String.toList_ofList] at hc hcs
    exact not_isBlank_of_mem_wordsChars hws c (exists_mem_piecesChars_iff.mp ⟨cs, hcs, hc⟩).1

section Plain
variable {name : String} (hne : name ≠ "") (hblank : ∀ c ∈ name.toList, isBlank c = false)
  (hdot : '.' ∉ name.toList)
include hne hblank hdot

theorem lastName?_self : lastName? name = some name := by
  have hchars : name.toList ≠ [] := by simpa using hne
  refine lastName?_of_getLast? (w := name) ?_ ?_ hne
  · simp [words_eq, wordsChars_of_forall hchars hblank]
  · rw [pieces_of_not_mem hdot, List.getLast?_singleton]

/-- Whatever stands before its dot, a name at the end is the last one. -/
theorem lastName?_append_dot (x : String) : lastName? (x ++ "." ++ name) = some name := by
  have hend : ∀ c ∈ '.' :: name.toList, isBlank c = false :=
    List.forall_mem_cons.mpr ⟨by decide, hblank⟩
  obtain ⟨w, hw⟩ := exists_getLast?_wordsChars_append x.toList (List.cons_ne_nil _ _) hend
  refine lastName?_of_getLast? (w := .ofList (w ++ '.' :: name.toList)) ?_ ?_ hne
  · have hlist : (x ++ "." ++ name).toList = x.toList ++ '.' :: name.toList := by simp
    rw [words_eq, hlist, List.getLast?_map, hw]
    rfl
  · rw [pieces, String.toList_ofList, piecesChars_append _ _ _ (by decide),
      piecesChars_of_not_mem hdot]
    simp

end Plain

/-! ## Names of identifiers -/

section Identifiers
variable (m : List Modifier) (n : Identifier)

theorem lastName?_text_iff : lastName? n.text = some n.text ↔ '\u0085' ∉ n.text.toList := by
  rw [← n.forall_not_isBlank_iff]
  exact ⟨not_isBlank_of_lastName?,
    fun h => lastName?_self n.text_ne_empty h (n.not_mem (by decide))⟩

theorem lastName?_declared : lastName? (declared m n) = lastName? n.text := by
  unfold declared
  by_cases hm : m.map (·.1) = []
  · rw [hm]
    rfl
  · rw [join_concat hm]
    exact lastName?_append_blank (c := ' ') (by decide) n.exists_not_isBlank _

theorem lastName?_dotted_iff (qs : List Identifier) :
    lastName? (dottedForm qs n) = some n.text ↔ '\u0085' ∉ n.text.toList := by
  unfold dottedForm
  by_cases hqs : qs.map (·.text) = []
  · rw [hqs]
    exact lastName?_text_iff n
  · rw [join_concat hqs, ← n.forall_not_isBlank_iff]
    exact ⟨not_isBlank_of_lastName?,
      fun h => lastName?_append_dot n.text_ne_empty h (n.not_mem (by decide)) _⟩

theorem exists_head_declared : ∃ c ∈ (declared m n).toList.head?, isBlank c = false := by
  have hkeyword : ∀ w ∈ modifierKeywords, w.toList.head?.any (!isBlank ·) = true := by decide
  cases m with
  | nil => exact n.exists_head
  | cons w m =>
    obtain ⟨c, hc, hb⟩ := (Option.any_eq_true _ _).mp (hkeyword w.1 w.2)
    obtain ⟨rest, hrest⟩ : ∃ rest, (declared (w :: m) n).toList = w.1.toList ++ rest := by
      rw [declared, List.map_cons, List.cons_append]
      cases m.map (·.1) <;> simp [join, String.intercalate_cons_cons]
    refine ⟨c, ?_, by simpa using hb⟩
    rw [hrest, List.head?_append, hc]
    rfl

theorem not_mem_declared {c : Char} (hpart : isIdentifierPart c = false) (hspace : c ≠ ' ')
    (hkeyword : ∀ w ∈ modifierKeywords, c ∉ w.toList) : c ∉ (declared m n).toList := by
  intro hc
  rcases mem_join hc with h | ⟨x, hx, h⟩
  · simp [hspace] at h
  · rcases List.mem_append.mp hx with hx | hx
    · obtain ⟨w, -, rfl⟩ := List.mem_map.mp hx
      exact hkeyword w.1 w.2 h
    · rw [List.mem_singleton.mp hx] at h
      exact n.not_mem hpart h

end Identifiers

/-! ## Heads of elements -/

theorem elementHead_of_paren {x : String} (hx : '(' ∉ x.toList) (y : String) :
    elementHead (x ++ "(" ++ y) = x := by
  have hneedle : "(".toList = [] ++ '(' :: [] := rfl
  rw [elementHead, splitOnce_append hneedle List.not_mem_nil hx]

theorem exists_eq_append_paren {s : String} (hs : '(' ∈ s.toList) :
    ∃ a b, s = a ++ "(" ++ b ∧ '(' ∉ a.toList := by
  obtain ⟨before, after, hlist, hbefore⟩ := List.eq_append_cons_of_mem hs
  refine ⟨.ofList before, .ofList after, ?_, by simpa using hbefore⟩
  apply String.toList_injective
  simp [hlist]

theorem splitOnce_paren_eq_none {s : String} (hs : '(' ∉ s.toList) : splitOnce "(" s = none := by
  rw [splitOnce, Option.map_eq_none_iff, ← Option.not_isSome_iff_eq_none]
  exact fun h => hs ((isSome_splitAtFirst_singleton '(' s.toList).mp h)

theorem elementHead_of_colon {x y : String} (hx : ':' ∉ x.toList)
    (hs : '(' ∉ (x ++ " : " ++ y).toList) : elementHead (x ++ " : " ++ y) = x := by
  have hneedle : " : ".toList = [' '] ++ ':' :: [' '] := rfl
  rw [elementHead, splitOnce_paren_eq_none hs, splitOnce_append hneedle (by decide) hx]

theorem elementHead_eq_self {s : String} (hs : '(' ∉ s.toList)
    (hcolon : ∀ x y, s ≠ x ++ " : " ++ y) : elementHead s = s := by
  have hnone : splitOnce " : " s = none := by
    rw [Option.eq_none_iff_forall_ne_some]
    rintro ⟨x, y⟩ h
    exact hcolon x y (splitOnce_eq_some h)
  rw [elementHead, splitOnce_paren_eq_none hs, hnone]

/-- A parenthesis ends the head, wherever it stands. -/
theorem elementHead_trim_of_paren {x : String} (hhead : ∃ c ∈ x.toList.head?, isBlank c = false)
    (hx : '(' ∉ x.toList) (y : String) : elementHead (trim (x ++ "(" ++ y)) = x := by
  have hstart := exists_head_append hhead "("
  by_cases hy : ∃ d ∈ y.toList, isBlank d = false
  · rw [trim_append hstart hy]
    exact elementHead_of_paren hx _
  · have hempty := elementHead_of_paren hx ""
    rw [String.append_empty] at hempty
    rw [trim_append_blanks hstart ⟨'(', by simp, by decide⟩ (by simpa using hy), hempty]

end Location

/-! ## The forms -/

namespace Location

def withElement (l : Location) (element : String) : Location := { l with element := some element }

section Forms
variable (l : Location) (m : List Modifier) (n : Identifier)

theorem elementName?_withElement (e : String) :
    (l.withElement e).elementName? = lastName? (elementHead (trim e)) := by
  rw [elementName?, withElement, Option.bind_some]

theorem not_paren_mem_declared : '(' ∉ (declared m n).toList ∧ ')' ∉ (declared m n).toList ∧
    ':' ∉ (declared m n).toList :=
  ⟨not_mem_declared m n (by decide) (by decide) (by decide),
    not_mem_declared m n (by decide) (by decide) (by decide),
    not_mem_declared m n (by decide) (by decide) (by decide)⟩

theorem elementName?_methodForm (p r : String) :
    (l.withElement (methodForm m n p r)).elementName? = lastName? n.text := by
  rw [elementName?_withElement, methodForm,
    elementHead_trim_of_paren (exists_head_declared m n) (not_paren_mem_declared m n).1,
    lastName?_declared]

theorem elementName?_variableForm {t : String} (hparen : '(' ∉ t.toList)
    (ht : ∃ c ∈ t.toList, isBlank c = false) :
    (l.withElement (variableForm m n t)).elementName? = lastName? n.text := by
  obtain ⟨hopen, -, hcolon⟩ := not_paren_mem_declared m n
  have htrim : trim (variableForm m n t) = declared m n ++ " : " ++ trimEnd t :=
    trim_append (exists_head_append (exists_head_declared m n) " : ") ht
  have hnone : '(' ∉ (trim (variableForm m n t)).toList := fun h => by
    have hmem := mem_of_mem_trim h
    simp [variableForm, hopen, hparen] at hmem
  rw [elementName?_withElement]
  rw [htrim] at hnone ⊢
  rw [elementHead_of_colon hcolon hnone, lastName?_declared]

theorem trim_variableForm_of_blank {t : String} (ht : ∀ c ∈ t.toList, isBlank c = true) :
    trim (variableForm m n t) = declared m n ++ " :" := by
  have hstart := exists_head_append (exists_head_declared m n) " :"
  have hsplit : variableForm m n t = declared m n ++ " :" ++ (" " ++ t) := by
    apply String.toList_injective
    simp [variableForm]
  have hblanks : ∀ d ∈ (" " ++ t).toList, isBlank d = true := by
    rw [String.toList_append]
    exact List.forall_mem_append.mpr ⟨List.all_eq_true.mp (by decide), ht⟩
  rw [hsplit, trim_append_blanks hstart ⟨':', by simp, by decide⟩ hblanks]

theorem lastName?_declared_colon : lastName? (declared m n ++ " :") = some ":" := by
  have hsplit : declared m n ++ " :" = declared m n ++ String.singleton ' ' ++ ":" := by
    apply String.toList_injective
    simp
  rw [hsplit, lastName?_append_blank (by decide) ⟨':', by simp, by decide⟩]
  exact lastName?_self (by decide) (List.forall_mem_singleton.mpr (by decide)) (by decide)

/-- Where no type is written, the colon is read in place of the name. -/
theorem elementName?_variableForm_of_blank {t : String} (ht : ∀ c ∈ t.toList, isBlank c = true) :
    (l.withElement (variableForm m n t)).elementName? = some ":" := by
  obtain ⟨hopen, -, hcolon⟩ := not_paren_mem_declared m n
  have hhead : elementHead (declared m n ++ " :") = declared m n ++ " :" := by
    refine elementHead_eq_self (by simp [hopen]) fun x y h => ?_
    have hlist : (declared m n).toList ++ [' '] ++ ':' :: [] =
        x.toList ++ [' '] ++ ':' :: ' ' :: y.toList := by
      simpa using congrArg String.toList h
    have hrest := (List.append_cons_inj_of_notMem (by simp [hcolon]) List.not_mem_nil).mp hlist
    cases hrest.2.2
  rw [elementName?_withElement, trim_variableForm_of_blank m n ht, hhead, lastName?_declared_colon]

/-- Where a parenthesis stands in the type, the last name before it is read. -/
theorem elementName?_variableForm_of_paren {a : String} (ha : '(' ∉ a.toList) (b : String) :
    (l.withElement (variableForm m n (a ++ "(" ++ b))).elementName? =
      if a.toList.all isBlank then some ":" else lastName? a := by
  obtain ⟨hopen, -⟩ := not_paren_mem_declared m n
  have hsplit : variableForm m n (a ++ "(" ++ b) = variableForm m n a ++ "(" ++ b := by
    simp [variableForm, String.append_assoc]
  have hhead : ∃ c ∈ (variableForm m n a).toList.head?, isBlank c = false :=
    exists_head_append (exists_head_append (exists_head_declared m n) " : ") a
  have hnone : '(' ∉ (variableForm m n a).toList := by simp [variableForm, hopen, ha]
  rw [elementName?_withElement, hsplit, elementHead_trim_of_paren hhead hnone]
  split
  · rename_i hblank
    rw [← lastName?_trim, trim_variableForm_of_blank m n (List.all_eq_true.mp hblank),
      lastName?_declared_colon]
  · rename_i hblank
    have hlast : variableForm m n a = declared m n ++ " :" ++ String.singleton ' ' ++ a := by
      apply String.toList_injective
      simp [variableForm]
    rw [hlast, lastName?_append_blank (by decide) (by simpa using hblank)]

theorem elementName?_dottedForm (qs : List Identifier) :
    (l.withElement (dottedForm qs n)).elementName? = lastName? (dottedForm qs n) := by
  have hparts : ∀ c, isIdentifierPart c = false → c ≠ '.' →
      c ∉ (trim (dottedForm qs n)).toList := by
    intro c hc hdot h
    rcases mem_join (mem_of_mem_trim h) with h | ⟨x, hx, h⟩
    · simp [hdot] at h
    · rw [← List.map_singleton, ← List.map_append] at hx
      obtain ⟨q, -, rfl⟩ := List.mem_map.mp hx
      exact q.not_mem hc h
  have hhead : elementHead (trim (dottedForm qs n)) = trim (dottedForm qs n) := by
    refine elementHead_eq_self (hparts '(' (by decide) (by decide)) fun x y h => ?_
    refine hparts ' ' (by decide) (by decide) ?_
    rw [h]
    simp
  rw [elementName?_withElement, hhead, lastName?_trim]

/-! ## What is read of each form -/

theorem elementName?_variableForm_iff (t : String) :
    (l.withElement (variableForm m n t)).elementName? = some n.text ↔
      ('\u0085' ∉ n.text.toList ∧ '(' ∉ t.toList ∧ ∃ c ∈ t.toList, isBlank c = false) ∨
      ∃ a b, t = a ++ "(" ++ b ∧ '(' ∉ a.toList ∧ lastName? a = some n.text := by
  have hcolon : ¬ some ":" = some n.text := by
    intro h
    refine n.not_mem (c := ':') (by decide) ?_
    rw [← Option.some.inj h]
    decide
  by_cases hparen : '(' ∈ t.toList
  · obtain ⟨a, b, rfl, ha⟩ := exists_eq_append_paren hparen
    rw [elementName?_variableForm_of_paren l m n ha]
    constructor
    · intro h
      split at h
      · exact absurd h hcolon
      · exact .inr ⟨a, b, rfl, ha, h⟩
    · rintro (⟨-, h, -⟩ | ⟨a', b', hsame, ha', hname⟩)
      · exact absurd hparen h
      · obtain rfl : a = a' := by
          rw [← elementHead_of_paren ha b, hsame, elementHead_of_paren ha']
        rw [if_neg, hname]
        intro hblank
        rw [lastName?_eq_none (List.all_eq_true.mp hblank)] at hname
        cases hname
  · have hnone : ¬ ∃ a b, t = a ++ "(" ++ b ∧ '(' ∉ a.toList ∧ lastName? a = some n.text := by
      rintro ⟨a, b, rfl, -, -⟩
      exact hparen (by simp)
    rw [or_iff_left hnone]
    by_cases ht : ∃ c ∈ t.toList, isBlank c = false
    · rw [elementName?_variableForm l m n hparen ht, lastName?_text_iff]
      exact ⟨fun h => ⟨h, hparen, ht⟩, And.left⟩
    · rw [elementName?_variableForm_of_blank l m n (by simpa using ht)]
      exact ⟨fun h => absurd h hcolon, fun h => absurd h.2.2 ht⟩

theorem isMethod_methodForm (p r : String) :
    (l.withElement (methodForm m n p r)).isMethod = true := by
  simp [isMethod, withElement, methodForm]

theorem isMethod_variableForm (t : String) :
    (l.withElement (variableForm m n t)).isMethod = true ↔ '(' ∈ t.toList ∧ ')' ∈ t.toList := by
  obtain ⟨hopen, hclose, -⟩ := not_paren_mem_declared m n
  simp [isMethod, withElement, variableForm, hopen, hclose]

/-- What the names and keys of a location say about an element with modifiers `m` and the name `n`,
in whichever of the forms it is written. -/
structure ReadsForms : Prop where
  method : ∀ p r, (l.withElement (methodForm m n p r)).elementName? = some n.text ↔
    '\u0085' ∉ n.text.toList
  /-- A parenthesis in the type hides the name: only what stands before it is read. -/
  field : ∀ t, (l.withElement (variableForm m n t)).elementName? = some n.text ↔
    ('\u0085' ∉ n.text.toList ∧ '(' ∉ t.toList ∧ ∃ c ∈ t.toList, isBlank c = false) ∨
    ∃ a b, t = a ++ "(" ++ b ∧ '(' ∉ a.toList ∧ lastName? a = some n.text
  dotted : ∀ qs, (l.withElement (dottedForm qs n)).elementName? = some n.text ↔
    '\u0085' ∉ n.text.toList
  keyed : ∀ p r, (l.withElement (methodForm m n p r)).methodKey? =
    some (l.filePath ++ "::" ++ trim (methodForm m n p r))
  unkeyed : ∀ t, (l.withElement (variableForm m n t)).methodKey? = none ↔
    ¬ ('(' ∈ t.toList ∧ ')' ∈ t.toList)

theorem readsForms : ReadsForms l m n where
  method p r := by rw [elementName?_methodForm, lastName?_text_iff]
  field := elementName?_variableForm_iff l m n
  dotted qs := by rw [elementName?_dottedForm, lastName?_dotted_iff]
  keyed p r := by
    rw [methodKey?, if_pos (isMethod_methodForm l m n p r)]
    rfl
  unkeyed t := by
    rw [← isMethod_variableForm l m n t, methodKey?]
    split <;> simp_all [withElement]

end Forms

/-- An annotated type, no type at all and a character that the language ignores. -/
theorem not_named_annotated :
    let l : Location := { filePath := "A.java", startLine := 1, endLine := 1 }
    let m : List Modifier := [⟨"private", by decide⟩]
    let names : Identifier :=
      ⟨"names", ⟨'n', by decide, by decide⟩, List.all_eq_true.mp (by decide)⟩
    let ignoring : Identifier :=
      ⟨"a\u0085b", ⟨'a', by decide, by decide⟩, List.all_eq_true.mp (by decide)⟩
    let annotated := l.withElement (variableForm m names "@Size(max = 9) List<String>")
    (annotated.elementName? = some "@Size" ∧ annotated.methodKey? ≠ none) ∧
      (l.withElement (variableForm m names "")).elementName? = some ":" ∧
      (l.withElement (methodForm m ignoring "" "void")).elementName? = some "b" := by
  decide +kernel

end Location

end Lineage.Refactoring
