import Lineage.Java.Token
/-! # Commas in comments

A text that is made of words, points and whole comments has commas only in the comments. Names are
such texts, as comments may stand inside of them, and a list of names can be told from the names with
commas between them. Main statement: `join_injective`.
-/
namespace Lineage.Java

/-- Where a reader is who tells comments from the rest. -/
inductive Mode where
  | code
  | slash
  | line
  | block
  | star
  deriving DecidableEq

namespace Mode

def next : Mode → Char → Mode
  | code, '/' => slash
  | code, _ => code
  | slash, '/' => line
  | slash, '*' => block
  | slash, _ => code
  | line, '\n' => code
  | line, _ => line
  | block, '*' => star
  | block, _ => block
  | star, '/' => code
  | star, '*' => star
  | star, _ => block

/-- The characters before the first comma that stands in no comment. -/
def beforeComma : Mode → List Char → List Char
  | _, [] => []
  | m, c :: cs => if m = code ∧ c = ',' then [] else c :: beforeComma (m.next c) cs

/-- A text leads from one mode to another, and its commas stand in comments. -/
def Spans (m : Mode) (cs : List Char) (m' : Mode) : Prop :=
  m.beforeComma cs = cs ∧ cs.foldl next m = m'

variable {m m' m'' : Mode} {c : Char} {cs ds : List Char}

theorem Spans.nil (m : Mode) : Spans m [] m := ⟨rfl, rfl⟩

theorem Spans.cons (hc : m ≠ code ∨ c ≠ ',') (h : Spans (m.next c) cs m') :
    Spans m (c :: cs) m' := by
  refine ⟨?_, h.2⟩
  rw [beforeComma, if_neg fun h => hc.elim (· h.1) (· h.2), h.1]

theorem Spans.beforeComma_append (h : Spans m cs m') (ds : List Char) :
    m.beforeComma (cs ++ ds) = cs ++ m'.beforeComma ds := by
  induction cs generalizing m with
  | nil =>
    obtain ⟨-, rfl⟩ := h
    rfl
  | cons c cs ih =>
    obtain ⟨hcomma, hlast⟩ := h
    rw [beforeComma] at hcomma
    split at hcomma
    · cases hcomma
    · rename_i hc
      rw [List.cons_append, beforeComma, if_neg hc, ih ⟨List.tail_eq_of_cons_eq hcomma, hlast⟩]
      rfl

theorem Spans.append (h : Spans m cs m') (h' : Spans m' ds m'') : Spans m (cs ++ ds) m'' := by
  refine ⟨?_, ?_⟩
  · rw [h.beforeComma_append, h'.1]
  · rw [List.foldl_append, h.2, h'.2]

theorem next_code (hc : c ≠ '/') : code.next c = code := by
  unfold next
  split <;> simp_all

theorem next_line (hc : c ≠ '\n') : line.next c = line := by
  unfold next
  split <;> simp_all

theorem spans_code (h : ∀ c ∈ cs, c ≠ ',' ∧ c ≠ '/') : Spans code cs code := by
  induction cs with
  | nil => exact .nil _
  | cons c cs ih =>
    obtain ⟨hcomma, hslash⟩ := h c List.mem_cons_self
    refine .cons (.inr hcomma) ?_
    rw [next_code hslash]
    exact ih fun d hd => h d (List.mem_cons_of_mem _ hd)

theorem spans_line (h : ∀ c ∈ cs, c ≠ '\n') : Spans line cs line := by
  induction cs with
  | nil => exact .nil _
  | cons c cs ih =>
    refine .cons (.inl (by decide)) ?_
    rw [next_line (h c List.mem_cons_self)]
    exact ih fun d hd => h d (List.mem_cons_of_mem _ hd)

end Mode

open Mode

/-- A text without a comma outside comments in which all comments end. -/
abbrev Solid (s : String) : Prop := Spans code s.toList code

/-! ## Words -/

/-- A name without anything in it that is no part of a word. -/
def IsWord (s : String) : Prop := s ≠ "" ∧ ∀ c ∈ s.toList, Token.isWordPart c = true

theorem not_mem_of_isWord {s : String} (h : IsWord s) {c : Char}
    (hc : Token.isWordPart c = false) : c ∉ s.toList := fun hmem => by
  rw [h.2 c hmem] at hc
  cases hc

namespace Token

theorem ne_of_isWordPart {c : Char} (h : isWordPart c = true) : c ≠ ',' ∧ c ≠ '/' := by
  constructor <;> rintro rfl <;> revert h <;> decide

theorem isWordPart_of_isBlank {c : Char} (h : Text.isBlank c = true) : isWordPart c = false := by
  have hrange : c.toNat ≤ 0x20 ∨ 0x80 ≤ c.toNat := by
    simp only [Text.isBlank, Bool.or_eq_true, Bool.and_eq_true, decide_eq_true_eq, beq_iff_eq] at h
    omega
  have hne : ∀ d : Char, 0x20 < d.toNat → d.toNat < 0x80 → c ≠ d := by
    rintro d hlow hhigh rfl
    omega
  have hout : ∀ d e : Char, 0x20 < d.toNat → e.toNat < 0x80 → ¬(d ≤ c ∧ c ≤ e) := by
    rintro d e hlow hhigh ⟨hd, he⟩
    have hd' : d.toNat ≤ c.toNat := hd
    have he' : c.toNat ≤ e.toNat := he
    omega
  simp only [not_and, Char.not_le] at hout
  have hunderscore := hne '_' (by decide) (by decide)
  have hdollar := hne '$' (by decide) (by decide)
  simp only [isWordPart, isWordStart, isGap, Text.isDigit, h, hunderscore, hdollar,
    Bool.true_or, Bool.not_true, Bool.and_false, Bool.or_false, Bool.or_eq_false_iff,
    Bool.and_eq_false_imp, decide_eq_true_eq, decide_eq_false_iff_not, Char.not_le,
    beq_eq_false_iff_ne, ne_eq, not_false_eq_true, and_true]
  exact ⟨⟨hout 'a' 'z' (by decide) (by decide), hout 'A' 'Z' (by decide) (by decide)⟩,
    hout '0' '9' (by decide) (by decide)⟩

theorem solid_of_isWord {s : String} (h : IsWord s) : Solid s :=
  spans_code fun c hc => ne_of_isWordPart (h.2 c hc)

end Token

/-! ## Lists of names -/

theorem Solid.append {s t : String} (hs : Solid s) (ht : Solid t) : Solid (s ++ t) := by
  rw [Solid, String.toList_append]
  exact Spans.append hs ht

theorem toList_join_cons (x y : String) (ys : List String) :
    (Text.join "," (x :: y :: ys)).toList = x.toList ++ ',' :: (Text.join "," (y :: ys)).toList := by
  simp [Text.join, String.intercalate_cons_cons]

theorem beforeComma_join {x : String} (hx : Solid x) (xs : List String) :
    code.beforeComma (Text.join "," (x :: xs)).toList = x.toList := by
  cases xs with
  | nil => exact hx.1
  | cons y ys =>
    rw [toList_join_cons, Spans.beforeComma_append hx, beforeComma, if_pos ⟨rfl, rfl⟩,
      List.append_nil]

theorem join_cons_cons_ne (x y : String) (ys : List String) :
    Text.join "," (x :: y :: ys) ≠ Text.join "," [x] := by
  intro h
  have hlength := congrArg (·.toList.length) h
  simp [Text.join] at hlength

theorem join_injective {xs ys : List String} (hx : ∀ x ∈ xs, Solid x ∧ x ≠ "")
    (hy : ∀ y ∈ ys, Solid y ∧ y ≠ "") (h : Text.join "," xs = Text.join "," ys) : xs = ys := by
  induction xs generalizing ys with
  | nil =>
    cases ys with
    | nil => rfl
    | cons y ys =>
      have hfirst := beforeComma_join (hy y List.mem_cons_self).1 ys
      rw [← h] at hfirst
      exact absurd (String.toList_inj.mp hfirst.symm) (hy y List.mem_cons_self).2
  | cons x xs ih =>
    have hfirst := beforeComma_join (hx x List.mem_cons_self).1 xs
    cases ys with
    | nil =>
      rw [h] at hfirst
      exact absurd (String.toList_inj.mp hfirst.symm) (hx x List.mem_cons_self).2
    | cons y ys =>
      rw [h, beforeComma_join (hy y List.mem_cons_self).1] at hfirst
      obtain rfl := String.toList_inj.mp hfirst
      cases xs with
      | nil =>
        cases ys with
        | nil => rfl
        | cons z ys => exact absurd h.symm (join_cons_cons_ne y z ys)
      | cons x' xs =>
        cases ys with
        | nil => exact absurd h (join_cons_cons_ne y x' xs)
        | cons z ys =>
          have hrest := congrArg String.toList h
          rw [toList_join_cons, toList_join_cons, List.append_cancel_left_eq,
            List.cons.injEq] at hrest
          rw [ih (fun w hw => hx w (List.mem_cons_of_mem _ hw))
            (fun w hw => hy w (List.mem_cons_of_mem _ hw)) (String.toList_inj.mp hrest.2)]

end Lineage.Java
