import Lineage.Java.Extract
import Lineage.Proofs.Java.Commas
import Mathlib.Data.List.Basic
/-! # Types without their arguments

What is left of a type's text without type arguments and blanks are the words, points and brackets
that the tree of the type has outside of its type arguments, if neither comments nor annotations
stand in it. Main statements: `erases_spelling`, `erase_withoutBlanks`.
-/
namespace Lineage.Java

namespace TypeName

/-- A text of which the same is left wherever it stands, and nothing between angle brackets. -/
def Erases (cs out : List Char) : Prop :=
  ∀ depth rest, eraseChars depth (cs ++ rest) =
    (if depth = 0 then out else []) ++ eraseChars depth rest

/-- A text of which nothing is left between angle brackets. -/
def Vanishes (cs : List Char) : Prop :=
  ∀ depth rest, eraseChars (depth + 1) (cs ++ rest) = eraseChars (depth + 1) rest

def isSpelling (c : Char) : Bool := Token.isWordPart c || c == '.' || c == '[' || c == ']'

variable {cs ds out out' : List Char} {c : Char}

theorem eraseChars_cons (hopen : c ≠ '<') (hclose : c ≠ '>') (depth : Nat) (cs : List Char) :
    eraseChars depth (c :: cs) =
      (if depth = 0 ∧ !Text.isBlank c then [c] else []) ++ eraseChars depth cs := by
  rw [eraseChars, if_neg hopen, if_neg hclose]
  split <;> rfl

theorem erases_nil : Erases [] [] := by
  intro depth rest
  simp

theorem Erases.append (h : Erases cs out) (h' : Erases ds out') :
    Erases (cs ++ ds) (out ++ out') := by
  intro depth rest
  rw [List.append_assoc, h, h']
  split <;> simp

theorem Erases.vanishes (h : Erases cs out) : Vanishes cs := fun depth rest => h (depth + 1) rest

theorem vanishes_nil : Vanishes [] := erases_nil.vanishes

theorem Vanishes.append (h : Vanishes cs) (h' : Vanishes ds) : Vanishes (cs ++ ds) := by
  intro depth rest
  rw [List.append_assoc, h, h']

theorem Vanishes.cons (hopen : c ≠ '<') (hclose : c ≠ '>') (h : Vanishes cs) :
    Vanishes (c :: cs) := by
  intro depth rest
  rw [List.cons_append, eraseChars_cons hopen hclose, h]
  simp

theorem vanishes_of_ne (h : ∀ c ∈ cs, c ≠ '<' ∧ c ≠ '>') : Vanishes cs := by
  induction cs with
  | nil => exact vanishes_nil
  | cons c cs ih =>
    obtain ⟨hc, hcs⟩ := List.forall_mem_cons.mp h
    exact (ih hcs).cons hc.1 hc.2

theorem ne_of_isBlank (h : Text.isBlank c = true) : c ≠ '<' ∧ c ≠ '>' := by
  constructor <;> rintro rfl <;> revert h <;> decide

theorem erases_blanks (h : ∀ c ∈ cs, Text.isBlank c = true) : Erases cs [] := by
  induction cs with
  | nil => exact erases_nil
  | cons c cs ih =>
    obtain ⟨hc, hcs⟩ := List.forall_mem_cons.mp h
    intro depth rest
    obtain ⟨hopen, hclose⟩ := ne_of_isBlank hc
    rw [List.cons_append, eraseChars_cons hopen hclose, ih hcs]
    simp [hc]

theorem ne_of_isSpelling (h : isSpelling c = true) : c ≠ '<' ∧ c ≠ '>' := by
  constructor <;> rintro rfl <;> revert h <;> decide

theorem not_isBlank_of_isSpelling (h : isSpelling c = true) : Text.isBlank c = false := by
  by_contra hblank
  rw [Bool.not_eq_false] at hblank
  simp only [isSpelling, Token.isWordPart_of_isBlank hblank, Bool.false_or, Bool.or_eq_true,
    beq_iff_eq] at h
  rcases h with (rfl | rfl) | rfl <;> revert hblank <;> decide

theorem erases_spelling (h : ∀ c ∈ cs, isSpelling c = true) : Erases cs cs := by
  induction cs with
  | nil => exact erases_nil
  | cons c cs ih =>
    obtain ⟨hc, hcs⟩ := List.forall_mem_cons.mp h
    intro depth rest
    obtain ⟨hopen, hclose⟩ := ne_of_isSpelling hc
    rw [List.cons_append, eraseChars_cons hopen hclose, ih hcs]
    by_cases hdepth : depth = 0 <;> simp [hdepth, not_isBlank_of_isSpelling hc]

theorem Vanishes.erases (h : Vanishes cs) : Erases ('<' :: (cs ++ ['>'])) [] := by
  intro depth rest
  rw [List.cons_append, eraseChars, if_pos rfl, List.append_assoc, h, List.singleton_append,
    eraseChars, if_neg (by decide), if_pos rfl]
  simp

theorem erases_flatMap {α : Type} {f g : α → List Char} {xs : List α}
    (h : ∀ x ∈ xs, Erases (f x) (g x)) : Erases (xs.flatMap f) (xs.flatMap g) := by
  induction xs with
  | nil => exact erases_nil
  | cons x xs ih =>
    obtain ⟨hx, hxs⟩ := List.forall_mem_cons.mp h
    exact hx.append (ih hxs)

theorem vanishes_flatMap {α : Type} {f : α → List Char} {xs : List α}
    (h : ∀ x ∈ xs, Vanishes (f x)) : Vanishes (xs.flatMap f) := by
  induction xs with
  | nil => exact vanishes_nil
  | cons x xs ih =>
    obtain ⟨hx, hxs⟩ := List.forall_mem_cons.mp h
    exact hx.append (ih hxs)

theorem erase_of_erases {s : String} (h : Erases s.toList out) : erase s = String.ofList out := by
  have hall := h 0 []
  simp only [List.append_nil, if_true, eraseChars] at hall
  rw [erase, hall]

theorem eraseChars_withoutBlanks (depth : Nat) (cs : List Char) :
    eraseChars depth (cs.filter fun c => !Text.isBlank c) = eraseChars depth cs := by
  induction cs generalizing depth with
  | nil => rfl
  | cons c cs ih =>
    by_cases hblank : Text.isBlank c
    · obtain ⟨hopen, hclose⟩ := ne_of_isBlank hblank
      simp [eraseChars_cons hopen hclose, hblank, ih]
    · simp [eraseChars, hblank, ih]

theorem erase_withoutBlanks (s : String) : erase (withoutBlanks s) = erase s := by
  rw [erase, withoutBlanks, String.toList_ofList, eraseChars_withoutBlanks, erase]

end TypeName

open Lineage.Java.TypeName

/-! ## Trees -/

namespace Tree

/-- A property that holds of a tree and of all trees inside. -/
inductive All (P : Tree → Prop) : Tree → Prop
  | intro {t : Tree} (h : P t) (hc : ∀ c ∈ t.children, All P c) : All P t

theorem All.self {P : Tree → Prop} {t : Tree} (h : All P t) : P t := by
  cases h with
  | intro h _ => exact h

theorem All.child {P : Tree → Prop} {t c : Tree} (h : All P t) (hc : c ∈ t.children) : All P c := by
  cases h with
  | intro _ h => exact h c hc

mutual

def erased : Tree → String
  | .node k _ text _ _ cs =>
    if k = .typeArguments then "" else if cs = [] then text else erasedOf cs

def erasedOf : List Tree → String
  | [] => ""
  | t :: ts => t.erased ++ erasedOf ts

end

/-- Neither a comment nor an annotation, and without a byte order mark. -/
structure Unmarked (t : Tree) : Prop where
  comment : t.kind.isComment = false
  annotation : Extract.isAnnotationKind t.kind = false
  mark : '\uFEFF' ∉ t.text.toList

abbrev Unadorned (t : Tree) : Prop := t.All Unmarked

/-- What is left of the text of a tree are the words outside of type arguments. -/
def Spelled (t : Tree) : Prop :=
  t.Unadorned → Erases t.text.toList t.erased.toList ∧ ∀ c ∈ t.erased.toList, isSpelling c = true

theorem toList_erasedOf (ts : List Tree) :
    (erasedOf ts).toList = ts.flatMap fun t => t.erased.toList := by
  induction ts with
  | nil => rfl
  | cons t ts ih => rw [erasedOf, String.toList_append, ih, List.flatMap_cons]

end Tree

/-! ## Ends of types -/

/-- A text that ends neither in a point or a semicolon nor in a blank. -/
def Closed (s : String) : Prop :=
  ∃ before c, s.toList = before ++ [c] ∧ (c ≠ '.' ∧ c ≠ ';') ∧ Text.isBlank c = false

theorem closed_append {s : String} (h : Closed s) (before : String) : Closed (before ++ s) := by
  obtain ⟨init, c, hs, hc⟩ := h
  exact ⟨before.toList ++ init, c, by rw [String.toList_append, hs, List.append_assoc], hc⟩

theorem closed_of_isWord {s : String} (h : IsWord s) : Closed s := by
  have hne : s.toList ≠ [] := fun he => h.1 (String.toList_inj.mp he)
  have hword := h.2 _ (List.getLast_mem hne)
  refine ⟨_, _, (List.dropLast_append_getLast hne).symm, ⟨fun he => ?_, fun he => ?_⟩, ?_⟩
  · rw [he] at hword
    revert hword
    decide
  · rw [he] at hword
    revert hword
    decide
  · by_contra hblank
    rw [Bool.not_eq_false] at hblank
    rw [Token.isWordPart_of_isBlank hblank] at hword
    cases hword

theorem Closed.withoutBlanks {s : String} (h : Closed s) : Closed (withoutBlanks s) := by
  obtain ⟨before, c, hs, hc⟩ := h
  refine ⟨before.filter fun c => !Text.isBlank c, c, ?_, hc⟩
  rw [TypeName.withoutBlanks, String.toList_ofList, hs, List.filter_append]
  simp [hc.2]

theorem not_closed_dots (s : String) : ¬Closed (s ++ "...") := by
  rintro ⟨before, c, hs, ⟨hne, -⟩, -⟩
  have hlast := congrArg List.getLast? hs
  simp [String.toList_append] at hlast
  exact hne hlast.symm

/-- The tree of a type: its text is erased to words, of which there are some. -/
structure Tree.TypeLike (t : Tree) : Prop where
  spelled : t.Spelled
  nonempty : t.erased ≠ ""
  closed : Closed t.text

end Lineage.Java
